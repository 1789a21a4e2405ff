import LinkRepair.Proofs.Exploration.Search
import LinkRepair.Proofs.Repair.Descents
import LinkRepair.Proofs.Repair.Rules

/-!
# A repair comes to its end

The bounds that a repair carries cut nothing off: it ends as the rules without bounds do.  Super types,
bounds, type arguments and overridden symbols may go round in circles, as searches along them look at
everything once.  Parent links may not, since nothing but the forest itself bounds the ascent along
them; but a repair never closes a circle of parent links, as every new declaration points at an older one.

* `closes_overridden`      the search along overridden symbols ends;
* `Forest.Anchored`        parent links lead to declarations that are there, and in no circle;
* `Frames.anchored`        a repair keeps it so, and then every declaration can be located;
* `implements_implementWithin`   the classes that wait for one another are all different;
* `enters_enterDeclaration`      a visit of the first sweep ends;
* `sweepsDeclarations_repairDeclarations`, `sweepsExpressions_repairExpressions`   so do both sweeps;
* `repairs_iff_repairForest`     a repair ends, and as the library computes it.
-/

namespace LinkRepair

namespace Forest

section
variable {F : Forest} {d : DeclarationId}

/-! ## searches -/

/-- **What some functions override is found**, whatever overrides what. -/
theorem closes_overridden (F : Forest) (functions : List DeclarationId) : F.Closes functions :=
  walks_of_cutAll (cutAll_meetOverridden _) fun _ _ => rfl

/-! ## parent links -/

/-- parent links lead to declarations that are there, and in no circle -/
structure Anchored (F : Forest) : Prop where
  known : F.ParentsKnown
  acyclic : F.ParentsAcyclic

theorem Anchored.locates (h : F.Anchored) (d : DeclarationId) : F.Locates d :=
  exists_ascends h.acyclic d

end

end Forest

namespace Pass

section
variable {cx : Context} {c : Scope} {I : Intrinsics} {F : Forest} {roots : List Root} {p q : Pass}
  {d : DeclarationId} {T K : DeclarationId → Prop}

/-- from what was there, parent links lead to what was there, as before -/
theorem Frames.parent_of_old (h : Frames I T K p q) (hp : p.forest.ParentsKnown) {a b : DeclarationId}
    (ha : (p.forest.declaration? a).isSome) (hb : q.forest.parentDeclaration? a = some b) :
    p.forest.parentDeclaration? a = some b ∧ (p.forest.declaration? b).isSome := by
  obtain ⟨x, hx⟩ := Option.isSome_iff_exists.mp ha
  rw [h.parentDeclaration? hx] at hb
  obtain ⟨y, hy, hyb⟩ := Option.bind_eq_some_iff.mp hb
  exact ⟨hb, hp a y b hy hyb⟩

/-- **No circle of parent links is closed**: those of what is new lead to what is older, and in the end to
what was there. -/
theorem Frames.anchored (h : Frames I T K p q) (hp : p.forest.Anchored) : q.forest.Anchored := by
  refine ⟨h.parentsKnown hp.known, fun d hd => ?_⟩
  -- what was there keeps its links, so a circle through it was there before
  have hold : ∀ {a b}, (p.forest.declaration? a).isSome →
      Relation.TransGen (fun a b => q.forest.parentDeclaration? a = some b) a b →
      Relation.TransGen (fun a b => p.forest.parentDeclaration? a = some b) a b
        ∧ (p.forest.declaration? b).isSome := by
    intro a b ha hab
    induction hab with
    | single hb => exact (h.parent_of_old hp.known ha hb).imp_left .single
    | tail _ hc ih => exact (h.parent_of_old hp.known ih.2 hc).imp_left ih.1.tail
  -- the links of what is new lead to lower indices, until they come to what was there
  have holder : ∀ {a b}, Relation.TransGen (fun a b => q.forest.parentDeclaration? a = some b) a b →
      p.forest.declaration? a = none → b.index < a.index ∨ (p.forest.declaration? b).isSome := by
    intro a b hab ha
    have hstep : ∀ {b c}, p.forest.declaration? b = none → q.forest.parentDeclaration? b = some c →
        c.index < b.index := by
      intro b c hb hbc
      obtain ⟨y, hy, hyc⟩ := Option.bind_eq_some_iff.mp hbc
      exact (h.fresh b y hb hy).older c hyc
    induction hab with
    | single hb => exact .inl (hstep ha hb)
    | @tail b c _ hc ih =>
      cases hb : p.forest.declaration? b with
      | some x => exact .inr (h.parent_of_old hp.known (by rw [hb]; rfl) hc).2
      | none =>
        have hlt : b.index < a.index := ih.resolve_right (by rw [hb]; exact Bool.false_ne_true)
        exact .inl (Nat.lt_trans (hstep hb hc) hlt)
  cases hd' : p.forest.declaration? d with
  | some x => exact hp.acyclic d (hold (by rw [hd']; rfl) hd).1
  | none =>
    rcases holder hd hd' with hlt | hsome
    · exact Nat.lt_irrefl _ hlt
    · rw [hd'] at hsome
      cases hsome

/-! ## members -/

theorem addsMember_addMember (hp : p.forest.Anchored) (m : DeclarationId) :
    AddsMember cx d p m (addMember cx d p m) ∧ (addMember cx d p m).forest.Anchored := by
  have hcopy : Frames cx.intrinsics (fun _ => True) (fun _ => True) p
      { p with forest := (p.forest.copyMember d m).2 } :=
    frames_of_grows (D := fun _ => True) (Forest.grows_copyMember trivial) fun _ _ => .inl trivial
  have hraise : Frames cx.intrinsics (fun _ => True) (fun _ => True) _ (addMember cx d p m) :=
    frames_raiseIn _ trivial
  exact ⟨⟨(hcopy.anchored hp).locates _, rfl⟩, hraise.anchored (hcopy.anchored hp)⟩

section
variable (hF : F.Bequests True roots) (hA : F.Anchored) {r : DeclarationId}
  (hr : F.Known roots (.declaration r))
include hF hA hr

/-- **The classes that wait for one another are all different**, so a class is given its members within
the bound, however the classes above it are above one another. -/
theorem implements_implementWithin {bound : Nat} {p : Pass} {d : DeclarationId} :
    ∀ way, p.Grafted cx.intrinsics True F → p.forest.Inherits r d → Waiting F bound p way →
    Implements cx p d (implementWithin cx bound p d) := by
  refine implementWithin_induction (motive := fun bound p d q => ∀ way, p.Grafted cx.intrinsics True F →
    p.forest.Inherits r d → Waiting F bound p way → Implements cx p d q)
    ?stop ?seen ?abstract ?concrete bound p d
  case stop => exact fun _ _ _ _ _ hway => absurd hway not_waiting_zero
  case seen => exact fun _ _ _ hseen _ _ _ _ => .seen hseen
  case abstract => exact fun _ _ _ hunseen habstract _ _ _ _ => .abstract hunseen habstract
  case concrete =>
    rintro bound p d ih hunseen hconcrete _ rfl way hp hd hway
    have hclass : (F.declaration? d).isSome := by
      obtain ⟨info, hinfo⟩ := Option.isSome_iff_exists.mp (Forest.isSome_class?_of_isConcrete hconcrete)
      obtain ⟨_, _, hold, _⟩ := hp.of_class? hinfo
      exact Forest.isSome_of_class? hold
    have hheirs : ∀ a, a = r → F.Known roots (.declaration a) := fun _ h => h ▸ hr
    have hstart : Chain cx (p.fringe (· = r)) p { p with examined := d :: p.examined } :=
      .single (.examine p d)
    obtain ⟨habove, hq⟩ : InOrder (Implements cx) { p with examined := d :: p.examined }
        (p.forest.ancestors d) _ ∧ Chain cx (p.fringe (· = r)) _ _ :=
      inOrder_foldl (fun q a ha hq => by
        have hfrom := hstart.trans hq
        have hda : q.forest.Inherits r a := (Chain.frames hfrom).inherits
          (fun _ => not_touched_fringe) (hd.trans (Forest.inherits_of_mem_ancestors ha))
        exact ⟨ih q a (d :: way) (hp.chain hF hheirs hfrom) hda
          (hway.push hclass hunseen (Chain.frames hq).examined),
          hq.trans (Chain.fringe hfrom (chain_implementWithin ⟨r, rfl, hda⟩))⟩) .refl
    have hanchored := (hp.chain hF hheirs (hstart.trans hq)).frames.anchored hA
    exact .concrete hunseen hconcrete (p.forest.searches_ancestors d) habove
      (Forest.closes_overridden _ _) (inOrder_foldl (P := fun s : Pass => s.forest.Anchored)
        (fun s m _ hs => addsMember_addMember hs m) hanchored).1

theorem implements_implementMembers (hp : p.Grafted cx.intrinsics True F) :
    Implements cx p r (p.implementMembers cx r) :=
  implements_implementWithin hF hA hr [] hp .refl (waiting_nil (Nat.lt_succ_of_le hp.frames.size_le))

end

/-! ## visits -/

section
variable (hF : F.Bequests True roots) (hA : F.Anchored)

theorem mendsClass_mendClass (hp : p.forest.Anchored) {info : ClassInfo}
    (hd : (p.forest.class? d).isSome) (symbol : SymbolId) :
    MendsClass cx p d symbol info (p.mendClass cx d symbol info) := by
  have hbound : Chain cx Scope.everything p (p.fixTypeParameters cx info.typeParameters).2 :=
    (chain_each (P := fun _ => True) (fun _ _ _ _ => ⟨chain_fixTypeParameter trivial, trivial⟩) trivial).1
  have hask := hbound.trans (chain_ask [symbol])
  unfold MendsClass mendClass
  dsimp only
  cases classProblem d symbol _ _ with
  | none => rfl
  | some problem =>
    have hmade := hask.trans (chain_initializerOf (d := d) trivial ((Chain.frames hask).isSome_class? hd))
    exact ⟨_, ⟨((Chain.frames hmade).anchored hp).locates _, rfl⟩, rfl⟩

variable (cx) in
theorem mendsFunction_repairFunction (hp : p.forest.Anchored) (x : Declaration) :
    MendsFunction cx p d x (p.repairFunction cx d x) := by
  have hfix : Chain cx Scope.everything p ((p.filterOverridden d).fixSignature cx d).2 :=
    (chain_filterOverridden trivial).trans (chain_fixSignature fun _ _ _ _ => trivial)
  unfold MendsFunction repairFunction
  dsimp only
  cases functionProblem d x _ with
  | none => rfl
  | some problem => exact ⟨rfl, ((Chain.frames hfix).anchored hp).locates d, rfl⟩

include hF hA

/-- **A visit of the first sweep ends.** -/
theorem enters_enterDeclaration (hp : p.Grafted cx.intrinsics True F) {n : Node} (hn : F.Known roots n) :
    Enters cx p n (enterDeclaration cx p n) := by
  have hanchored := hp.frames.anchored hA
  by_cases hplain : ∀ d x, n = .declaration d → p.forest.declaration? d = some x →
      (∀ info, x.content ≠ .ofClass info) ∧ ∀ f, x.content ≠ .ofFunction f
  · exact .plain hplain
  · simp only [not_forall, not_and_or, not_not, exists_prop] at hplain
    obtain ⟨d, x, rfl, hx, ⟨info, hc⟩ | ⟨f, hf⟩⟩ := hplain
    · have hclass : (p.forest.class? d).isSome := by
        simp [Forest.class?, hx, Declaration.class?, hc]
      have hmend : Chain cx ⟨fun _ => True, fun _ => True, (· = d)⟩ p (p.mendClass cx d x.symbol info) :=
        chain_mendClass hx hc (fun _ _ => trivial) (fun _ _ => trivial) fun _ _ => trivial
      have hq := hp.chain hF (fun a (ha : a = d) => ha ▸ hn) hmend
      have := Enters.ofClass hx hc (mendsClass_mendClass hanchored hclass x.symbol)
        (implements_implementMembers hF hA hn hq)
      simpa only [enterDeclaration, hx, hc, repairClass_eq] using this
    · have := Enters.ofFunction hx hf (mendsFunction_repairFunction cx hanchored x)
      simpa only [enterDeclaration, hx, hf] using this

/-! ## sweeps -/

/-- the first sweep, if it meets each node that was there once at most -/
theorem sweepsDeclarations_repairDeclarations : ∀ {rest : List Root} {p : Pass},
    (∀ v ∈ declarationVisits cx rest p, v.1.Stage cx.intrinsics F ∧ F.Known roots v.2) →
    (∀ n, F.Stores n → ((declarationVisits cx rest p).map Prod.snd).count n ≤ 1) →
    F.nodeCount ≤ p.forest.nodeCount →
    InOrder (SweepsDeclarations cx) p rest (repairDeclarations cx rest p) := by
  intro rest
  induction rest with
  | nil => exact fun _ _ _ => .done _
  | cons root rest ih =>
    intro p hvs honce hsize
    have hvisits : declarationVisits cx (root :: rest) p
        = visitsAll (Pass.enterDeclaration cx) (sweepDepth p.forest) p
            ((p.forest.rootDeclarations root).map .declaration)
          ++ declarationVisits cx rest (p.sweepDeclarations cx root) := rfl
    rw [hvisits] at hvs honce
    have honce' := fun n hn => Nat.le_trans (Nat.le_of_eq (by rw [List.map_append, List.count_append]))
      (honce n hn)
    have hdepth := nodeCount_add_four_le_sweepDepth p.forest
    have hcut := cutAll_enterDeclaration hF (fun v hv => hvs v (List.mem_append_left _ hv))
      (fun n hn => Nat.le_trans (Nat.le_add_right _ _) (honce' n hn)) (by omega)
    refine .next (walks_of_cutAll hcut fun v hv => ?_)
      (ih (fun v hv => hvs v (List.mem_append_right _ hv))
        (fun n hn => Nat.le_trans (Nat.le_add_left _ _) (honce' n hn))
        (Nat.le_trans hsize (chain_sweepDeclarations cx root p).frames.nodeCount_le))
    obtain ⟨hstage, hknown⟩ := hvs v (List.mem_append_left _ hv)
    exact enters_enterDeclaration hF hA hstage.grafted hknown

omit hF hA in
/-- the second sweep, in a well-formed forest with new branches -/
theorem sweepsExpressions_repairExpressions (hR : F.Rooted) (hsub : roots ⊆ F.fileRoots)
    (hp : F.Branches p.forest) :
    InOrder (SweepsExpressions cx) p roots (repairExpressions cx roots p) := by
  refine (inOrder_foldl (P := fun q => F.Branches q.forest) (fun q root hroot hq => ⟨?_, ?_⟩) hp).1
  · obtain ⟨f, _, rfl⟩ := List.mem_map.mp (hsub hroot)
    refine ⟨fun d hd => (by cases hd), ?_⟩
    exact walks_of_cutAll (cutAll_enterExpression (hR.branches hq) hq.childrenKnown
      (hq.fileRoots ▸ hsub hroot)) fun _ _ => rfl
  · exact branches_repairExpressions [root] hq

end

end

end Pass

/-- **A repair ends**, from any files of a well-formed forest. -/
theorem repairs_repair (cx : Context) {F : Forest} {roots : List Root} (hroots : roots.Subperm F.fileRoots)
    (hF : F.defects = []) (hC : F.ChildrenKnown) (hA : F.Anchored) (hB : F.Bequests True roots) :
    Repairs cx roots F (repair cx roots F) := by
  have hR := Forest.defects_eq_nil_iff.mp hF
  obtain ⟨hend, hvs⟩ := Pass.stage_visit cx hB hC
  exact ⟨_, Pass.sweepsDeclarations_repairDeclarations hB hA hvs
      (fun n hn => Pass.count_visits_le_one cx hR.toPlanted hB hA.known hroots hn) (Nat.le_refl _),
    Pass.sweepsExpressions_repairExpressions hR hroots.subset hend.branches⟩

/-- **A repair of all files ends, and as the library computes it.**  The forest is well-formed, what its
nodes list and what their parent links name is there, and no chain of parent links is a circle; what a
class inherits has parameters in the slots for parameters.  Super types, bounds, type arguments and
overridden symbols may be as they like: every question about classifiers comes to an answer, in any forest
and with any memo. -/
theorem repairs_iff_repairForest (cx : Context) {F : Forest} (hF : F.defects = []) (hC : F.ChildrenKnown)
    (hP : F.ParentsKnown) (hA : F.ParentsAcyclic)
    (hB : ∀ m x f, F.Bequeaths (F.userRoots cx.intrinsics) m x f → F.Fits x.content) :
    (∀ (G : Forest) memo s, ∃ o, (∀ o', Explores G [] memo s o' ↔ o' = o)
        ∧ G.explore memo s = (o.verdict, o.memo))
      ∧ ∀ p, Repairs cx (F.userRoots cx.intrinsics) F p ↔ p = repairForest cx F := by
  refine ⟨fun G memo s => ?_, fun p => ?_⟩
  · obtain ⟨o, ho, heq⟩ := explores_explore G memo s
    exact ⟨o, fun o' => ⟨fun h => h.unique o ho, fun h => h ▸ ho⟩, heq⟩
  · have hend := repairs_repair cx (F.userRoots_subperm cx.intrinsics) hF hC ⟨hP, hA⟩
      (Forest.bequests_of_fits hB)
    exact ⟨fun h => h.unique hend, fun h => h ▸ hend⟩

namespace Forest

/-- classes `A<T : A>` and `B` below one another, where the super type of `B` is `A<B>`: abstract functions
`m` in `A` and `n` in `B` override one another, `n` returns what is missing, and `B` lacks the function `k` -/
def entwined : Forest :=
  let base := (named "lib").installIntrinsics
  let unit := base.1.unitType
  let file := base.2.newFile "pkg" "a.kt" ""
  let gone := file.2.newMissingSymbol "pkg" .classLike "Gone"
  let a := gone.2.newClass "pkg" (.file file.1) "A" .plain
  let b := a.2.newClass "pkg" (.file file.1) "B" .plain
  let symbolOf := fun (F : Forest) d => ((F.declaration? d).map Declaration.symbol).getD gone.1
  let typeB := TypeRef.simple (symbolOf b.2 b.1)
  let above := (b.2.addSuperType a.1 typeB).addSuperType b.1
    (.named (symbolOf b.2 a.1) [.projection typeB] false)
  let t := above.newTypeParameter a.1 "T" [.simple (symbolOf b.2 a.1)]
  let k := t.2.newFunction "pkg" (.declaration a.1) "k" unit
  let m := k.2.newFunction "pkg" (.declaration a.1) "m" unit
  let n := m.2.newFunction "pkg" (.declaration b.1) "n" (.simple gone.1)
  let abstractly := fun overridden (f : FunctionInfo) =>
    { f with modality := .abstract, body := none, overridden := overridden }
  ((n.2.updateDeclaration k.1 (Declaration.mapFunction (abstractly []))).updateDeclaration m.1
    (Declaration.mapFunction (abstractly [symbolOf n.2 n.1]))).updateDeclaration n.1
      (Declaration.mapFunction (abstractly [symbolOf n.2 m.1]))

/-- the context of a repair of `entwined` -/
def entwinedContext : Context := ⟨(named "lib").installIntrinsics.1, .warning⟩

end Forest

open Forest in
/-- in the circles, `B` is given the function that it lacks, and the two new bodies raise -/
theorem repairs_iff_entwined :
    let I := entwinedContext.intrinsics
    let p := repairForest entwinedContext entwined
    entwined.defects = [] ∧ entwined.ChildrenKnown ∧ entwined.ParentsKnown ∧ entwined.ParentsAcyclic
      ∧ (∀ m x f, entwined.Bequeaths (entwined.userRoots I) m x f → entwined.Fits x.content)
      ∧ ⟨7⟩ ∈ entwined.ancestors ⟨6⟩ ∧ ⟨6⟩ ∈ entwined.ancestors ⟨7⟩
      ∧ p.summary = ⟨2, 0, 1⟩
      ∧ ∀ q, Repairs entwinedContext (entwined.userRoots I) entwined q ↔ q = p := by
  intro I p
  have hF : entwined.defects = [] := by decide +kernel
  have hC : entwined.ChildrenKnown := by decide +kernel
  have hP : entwined.ParentsKnown := by decide +kernel
  have hA : entwined.ParentsAcyclic := parentsAcyclic_of_fileOf (by decide +kernel)
  have hB := (@kindCorrect_of_kindsFit entwined (entwined.userRoots I) (by decide +kernel)).inherited
  exact ⟨hF, hC, hP, hA, hB, by decide +kernel, by decide +kernel, by decide +kernel,
    (repairs_iff_repairForest entwinedContext hF hC hP hA hB).2⟩

end LinkRepair
