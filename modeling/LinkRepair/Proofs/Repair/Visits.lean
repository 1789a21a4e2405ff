import LinkRepair.Proofs.Forest.Trees
import LinkRepair.Proofs.Repair.Grafts
import LinkRepair.Proofs.Repair.Sweep

/-!
# The visits of the sweep over declarations

A node of a planted forest is visited once at most, so what only the visit of one declaration may
edit is as it was until then, and stays what it is from then on.

* `declarationVisits`, `expressionVisits`   the visits of the two sweeps, root by root, each with its
                           pass;
* `grafted_visit`          each is at a node that is known, in a stage of the repair;
* `count_visits_le_one`    a node that was there is visited once at most;
* `not_touched`            what the visit of one declaration may edit, no other visit may;
* `declaration?_before`, `declaration?_after`   so it is left alone before and after that visit.
-/

namespace LinkRepair

/-- the visits of the first sweep, each with the pass in which it starts -/
def declarationVisits (cx : Context) (roots : List Root) (p : Pass) : List (Pass × Node) :=
  inTurn (fun p root => visitsAll (Pass.enterDeclaration cx) (Pass.sweepDepth p.forest) p
    ((p.forest.rootDeclarations root).map .declaration)) (Pass.sweepDeclarations cx) p roots

/-- the visits of the second sweep, each with the pass in which it starts -/
def expressionVisits (cx : Context) (roots : List Root) (p : Pass) : List (Pass × Node) :=
  inTurn (fun p root => visitsAll (Pass.enterExpression cx (Pass.rootFile p.forest root))
    (Pass.sweepDepth p.forest) p ((p.forest.rootDeclarations root).map .declaration))
    (Pass.sweepExpressions cx) p roots

/-- what every visit of the second sweep keeps at an admitted node, and that nodes below are admitted,
carries over to all visits and to the end -/
theorem expressionVisits_invariant (cx : Context) {P : Pass → Prop} {N : Node → Prop} :
    ∀ {roots : List Root} {q : Pass},
      (∀ file s n, P s → N n → P (Pass.enterExpression cx file s n).1
        ∧ ∀ m ∈ (Pass.enterExpression cx file s n).2, N m) →
      (∀ s, P s → ∀ root ∈ roots, ∀ d ∈ s.forest.rootDeclarations root, N (.declaration d)) → P q →
      P (repairExpressions cx roots q) ∧ ∀ v ∈ expressionVisits cx roots q, P v.1 ∧ N v.2 := by
  intro roots
  induction roots with
  | nil => exact fun _ _ hq => ⟨hq, fun v hv => absurd hv List.not_mem_nil⟩
  | cons root roots ih =>
    intro q hstep htops hq
    have hrun : Run (Pass.enterExpression cx (Pass.rootFile q.forest root))
        ((q.forest.rootDeclarations root).map .declaration) q _ (q.sweepExpressions cx root) :=
      run_walkAll (Pass.sweepDepth q.forest) _ .start (List.Subset.refl _)
    obtain ⟨hend, _, hvs⟩ := hrun.invariant (P := P) (N := fun _ => N) (hstep _)
      (fun _ _ _ _ _ hm => hm) hq fun n hn => by
        obtain ⟨d, hd, rfl⟩ := List.mem_map.mp hn
        exact htops q hq root List.mem_cons_self d hd
    obtain ⟨hlast, hrest⟩ := ih hstep (fun s hs r hr => htops s hs r (List.mem_cons_of_mem _ hr)) hend
    refine ⟨hlast, fun v hv => ?_⟩
    rcases List.mem_append.mp hv with hv | hv
    · exact hvs v hv
    · exact hrest v hv

/-! ## what a visit edits -/

/-- the kinds of declarations that are edited when they are visited -/
def Content.isEdited : Content → Bool
  | .ofClass _ | .ofFunction _ | .ofProperty _ | .ofField _ | .ofVariable _ => true
  | .ofParameter _ | .ofTypeParameter _ | .ofEnumEntry _ | .ofInitializer _ => false

theorem Content.mem_edited {c : Content} {d a : DeclarationId} :
    a ∈ c.edited d ↔ c.isEdited ∧ (a = d ∨ a ∈ c.slots) := by
  cases c <;> simp [edited, isEdited, slots, FunctionInfo.parameters]

theorem Content.Becomes.isEdited {I : Intrinsics} {F : Forest} {m : Memo} {s : SymbolId}
    {c c' : Content} (h : c.Becomes I F m s c') : c'.isEdited = c.isEdited := by
  cases h <;> rfl

theorem Declaration.not_isEdited_of_isInitializer {x : Declaration} (h : x.isInitializer) :
    x.content.isEdited = false := by
  unfold isInitializer at h
  split at h
  · rename_i hc
    rw [hc]
    rfl
  · cases h

namespace Forest

/-- parameters and type parameters are not edited when they are visited -/
theorem not_isEdited {F : Forest} {a : DeclarationId} {x : Declaration}
    (hx : F.declaration? a = some x) (h : F.HasParameter a ∨ F.HasTypeParameter a) :
    ¬ x.content.isEdited := by
  rcases h with ⟨y, p, hy, hc⟩ | ⟨y, p, hy, hc⟩ <;>
    (obtain rfl := Option.some.inj (hx.symm.trans hy); rw [hc]; exact Bool.false_ne_true)

theorem not_isInitializer {F : Forest} {a : DeclarationId} {x : Declaration}
    (hx : F.declaration? a = some x) (h : F.HasParameter a ∨ F.HasTypeParameter a) :
    ¬ x.isInitializer := by
  unfold Declaration.isInitializer
  rcases h with ⟨y, p, hy, hc⟩ | ⟨y, p, hy, hc⟩ <;>
    (obtain rfl := Option.some.inj (hx.symm.trans hy); rw [hc]; exact Bool.false_ne_true)

/-- the slots of an added declaration hold added ones -/
theorem Fashioned.slots_none {S : Prop} {B G : Forest} {x : Declaration} (h : B.Fashioned S G x) :
    ∀ a ∈ x.content.slots, B.declaration? a = none := by
  unfold Fashioned at h
  cases hc : x.content with
  | ofFunction f =>
    rw [hc] at h
    exact h.2.2.1
  | ofClass c =>
    rw [hc] at h
    exact h.elim
  | _ => exact fun a ha => absurd ha List.not_mem_nil

section
variable {F G : Forest} {roots : List Root}

theorem userRoots_subperm (F : Forest) (I : Intrinsics) : (F.userRoots I).Subperm F.fileRoots :=
  (List.filter_sublist.map _).subperm

theorem rootDeclarations_of_files (h : G.files = F.files) (root : Root) :
    G.rootDeclarations root = F.rootDeclarations root := by
  unfold rootDeclarations file?
  rw [h]

theorem mem_topNodes {root : Root} {n : Node} (hroot : root ∈ roots)
    (hn : n ∈ (F.rootDeclarations root).map Node.declaration) : n ∈ F.topNodes roots := by
  obtain ⟨d, hd, rfl⟩ := List.mem_map.mp hn
  exact List.mem_map_of_mem (List.mem_flatMap.mpr ⟨root, hroot, hd⟩)

theorem known_of_mem_topNodes {n : Node} (h : n ∈ F.topNodes roots) : F.Known roots n := by
  obtain ⟨d, hd, rfl⟩ := List.mem_map.mp h
  exact fun _ => ⟨d, hd, .refl⟩

end

end Forest

namespace Pass

section
variable {cx : Context} {S : Prop} {F : Forest} {roots : List Root} {p q : Pass}

/-! ## in a line -/

variable (cx) in
theorem files_sweepDeclarations (root : Root) :
    (p.sweepDeclarations cx root).forest.files = p.forest.files :=
  (chain_sweepDeclarations cx root p).frames.files

theorem run_declarationVisits {s : Pass} : ∀ {rest : List Root} {p : Pass} {vs : List (Pass × Node)},
    Run (enterDeclaration cx) (F.topNodes roots) s vs p → p.forest.files = F.files → rest ⊆ roots →
    Run (enterDeclaration cx) (F.topNodes roots) s (vs ++ declarationVisits cx rest p)
      (repairDeclarations cx rest p) := by
  intro rest
  induction rest with
  | nil =>
    intro p vs h _ _
    show Run _ _ _ (vs ++ []) p
    rwa [List.append_nil]
  | cons root rest ih =>
    intro p vs h hfiles hsub
    have hroot := run_walkAll (sweepDepth p.forest) ((p.forest.rootDeclarations root).map .declaration) h
      fun n hn => by
        rw [Forest.rootDeclarations_of_files hfiles] at hn
        exact Forest.mem_topNodes (hsub List.mem_cons_self) hn
    have := ih hroot ((files_sweepDeclarations cx root).trans hfiles) fun r hr =>
      hsub (List.mem_cons_of_mem _ hr)
    rw [List.append_assoc] at this
    exact this

variable (cx) in
/-- what is visited was to be visited -/
theorem count_declarationVisits (n : Node) : ∀ (roots : List Root) {p : Pass},
    p.forest.files = F.files →
    ((declarationVisits cx roots p).map Prod.snd).count n ≤ (F.topNodes roots).count n
      + ((declarationVisits cx roots p).flatMap (pushed (enterDeclaration cx))).count n := by
  intro roots
  induction roots with
  | nil => intro p _; exact Nat.zero_le _
  | cons root roots ih =>
    intro p hfiles
    have hroot := List.perm_iff_count.mp (@visitsAll_perm _ _ (enterDeclaration cx)
      (sweepDepth p.forest) p ((p.forest.rootDeclarations root).map .declaration)) n
    have hrest := ih ((files_sweepDeclarations cx root).trans hfiles)
    have htops : F.topNodes (root :: roots)
        = (p.forest.rootDeclarations root).map .declaration ++ F.topNodes roots := by
      rw [Forest.rootDeclarations_of_files hfiles]
      exact List.map_append
    have hvisits : declarationVisits cx (root :: roots) p
        = visitsAll (enterDeclaration cx) (sweepDepth p.forest) p
            ((p.forest.rootDeclarations root).map .declaration)
          ++ declarationVisits cx roots (p.sweepDeclarations cx root) := rfl
    rw [htops, hvisits, List.map_append, List.flatMap_append]
    simp only [List.count_append] at hroot ⊢
    omega

/-! ## stages -/

variable (cx) in
/-- a visit leads on to the nodes below, or stops there -/
theorem enterDeclaration_snd (p : Pass) (n : Node) : (enterDeclaration cx p n).2 = []
    ∨ (enterDeclaration cx p n).2 = (enterDeclaration cx p n).1.forest.children n := by
  have hbelow : ∀ (stopped : Bool) (q : Pass), (q.below n stopped).2 = []
      ∨ (q.below n stopped).2 = (q.below n stopped).1.forest.children n := by
    rintro (_ | _) q
    · exact .inr rfl
    · exact .inl rfl
  unfold enterDeclaration
  split
  · exact hbelow _ _
  · split
    · exact .inl rfl
    · split <;> exact hbelow _ _

theorem mem_pushed_enterDeclaration {v : Pass × Node} {n : Node}
    (h : n ∈ pushed (enterDeclaration cx) v) :
    n ∈ (enterDeclaration cx v.1 v.2).1.forest.children v.2 := by
  unfold pushed at h
  rcases enterDeclaration_snd cx v.1 v.2 with e | e
  · rw [e] at h
    exact absurd h List.not_mem_nil
  · rwa [e] at h

variable (cx) in
/-- **The first sweep is a run** from the roots. -/
theorem run_sweep (F : Forest) (roots : List Root) :
    Run (Pass.enterDeclaration cx) (F.topNodes roots) (.start F)
      (declarationVisits cx roots (.start F)) (repairDeclarations cx roots (.start F)) :=
  run_declarationVisits .start rfl (List.Subset.refl roots)

theorem Grafted.enterDeclaration (h : p.Grafted cx.intrinsics S F) (hF : F.Bequests S roots)
    {n : Node} (hn : F.Known roots n) :
    (enterDeclaration cx p n).1.Grafted cx.intrinsics S F := by
  refine h.chain hF (fun r hr => ?_) (chain_enterDeclaration n)
  rw [← show n = .declaration r from hr]
  exact hn

variable (cx) in
/-- **Every visit is at a known node, in a stage of the repair**, and so is the end. -/
theorem grafted_visit (hF : F.Bequests S roots) (hP : F.ParentsKnown) :
    ((repairDeclarations cx roots (.start F)).Grafted cx.intrinsics S F
        ∧ (repairDeclarations cx roots (.start F)).Sane)
      ∧ ∀ v ∈ declarationVisits cx roots (.start F),
        (v.1.Grafted cx.intrinsics S F ∧ v.1.Sane) ∧ F.Known roots v.2 := by
  have hrun := run_sweep cx F roots
  obtain ⟨hend, _, hvs⟩ := hrun.invariant
    (P := fun p => p.Grafted cx.intrinsics S F ∧ p.Sane) (N := fun _ => F.Known roots)
    (fun p n hp hn => by
      have hg := hp.1.enterDeclaration hF hn
      refine ⟨⟨hg, ((chain_enterDeclaration n).sane hp.2).1⟩, fun m hm => ?_⟩
      exact hg.known_child hn (mem_pushed_enterDeclaration (v := (p, n)) hm))
    (fun _ _ _ _ _ hm => hm) ⟨grafted_start F, sane_start hP⟩ fun n => Forest.known_of_mem_topNodes
  exact ⟨hend, hvs⟩

variable (cx) in
/-- the same of one visit, with those before and after it -/
theorem grafted_of_visits (hF : F.Bequests S roots) (hP : F.ParentsKnown) {n : Node}
    {pre post : List (Pass × Node)}
    (hvs : declarationVisits cx roots (.start F) = pre ++ (p, n) :: post) :
    (p.Grafted cx.intrinsics S F ∧ p.Sane) ∧ F.Known roots n := by
  apply (grafted_visit cx hF hP).2 (p, n)
  rw [hvs]
  exact List.mem_append_right _ List.mem_cons_self

/-! ## once at most -/

/-- what a visit leads on to was below its node -/
theorem Grafted.count_pushed_le {v : Pass × Node} (hg : v.1.Grafted cx.intrinsics S F)
    (hB : F.Bequests S roots) (hknown : F.Known roots v.2) {n : Node} (hn : F.Stores n) :
    (pushed (Pass.enterDeclaration cx) v).count n ≤ (F.children v.2).count n := by
  show (Pass.enterDeclaration cx v.1 v.2).2.count n ≤ _
  rcases enterDeclaration_snd cx v.1 v.2 with e | e
  · rw [e]
    exact Nat.zero_le _
  · rw [e]
    exact (hg.enterDeclaration hB hknown).count_children v.2 hn

variable (hF : F.Planted) (hB : F.Bequests S roots) (hP : F.ParentsKnown)
  (hroots : roots.Subperm F.fileRoots)
include hF hB hP hroots

variable (cx) in
/-- **A node that was there is visited once at most.** -/
theorem count_visits_le_one {n : Node} (hn : F.Stores n) :
    ((declarationVisits cx roots (.start F)).map Prod.snd).count n ≤ 1 := by
  have hvisit := (grafted_visit cx hB hP).2
  refine hF.count_le_one (P := F.Stores) (f := pushed (Pass.enterDeclaration cx)) hroots
    (fun _ _ h => h.stores) (fun n => count_declarationVisits cx n roots rfl) (fun v hv n hn => ?_)
    (fun v hv hn => (hvisit v hv).2 hn) hn
  exact (hvisit v hv).1.1.count_pushed_le hB (hvisit v hv).2 hn

/-- the visits before that of a node, and those after it, are at other nodes -/
theorem ne_of_visits {n : Node} (hn : F.Stores n) {pre post : List (Pass × Node)}
    (hvs : declarationVisits cx roots (.start F) = pre ++ (p, n) :: post) :
    ∀ v ∈ pre ++ post, v.2 ≠ n := by
  intro v hv e
  have hle := count_visits_le_one cx hF hB hP hroots hn
  have hpos : 0 < ((pre ++ post).map Prod.snd).count n :=
    List.count_pos_iff.mpr (List.mem_map.mpr ⟨v, hv, e⟩)
  rw [hvs] at hle
  simp only [List.map_append, List.map_cons, List.count_append, List.count_cons, beq_self_eq_true,
    if_true] at hle hpos
  omega

omit hB hP in
/-- **What the visit of a declaration may edit, no other visit may.** -/
theorem not_touched (hk : F.KindCorrect roots) (hp : p.Grafted cx.intrinsics S F)
    {d a : DeclarationId} {x : Declaration} (hd : F.Reaches roots (.declaration d))
    (hx : F.declaration? d = some x) (ha : a ∈ x.content.edited d) {n : Node}
    (hn : F.Known roots n) (hne : n ≠ .declaration d) : ¬ (p.scope n).touched a := by
  have hreached : ∀ {n}, F.Reaches roots n → F.Reached n := Forest.reached_of_reaches hroots.subset
  obtain ⟨hedited, ha⟩ := Content.mem_edited.mp ha
  -- a slot holds a parameter or a type parameter, and `d` is neither
  have hslot : a ∈ x.content.slots → F.HasParameter a ∨ F.HasTypeParameter a := fun h =>
    (hk.slots d x hd hx).of_mem_slots h
  have hstored : (F.declaration? a).isSome := by
    rcases ha with rfl | ha
    · exact Option.isSome_iff_exists.mpr ⟨x, hx⟩
    · rcases hslot ha with ⟨z, _, hz, _⟩ | ⟨z, _, hz, _⟩ <;>
        exact Option.isSome_iff_exists.mpr ⟨z, hz⟩
  obtain ⟨z, hz⟩ := Option.isSome_iff_exists.mp hstored
  obtain ⟨w, hw, hwb, _⟩ := hp.frames.declaration? a z hz
  rintro (⟨b, y, rfl, hy, hby⟩ | hnone)
  · rcases hby with hby | hby
    · obtain ⟨hye, hby⟩ := Content.mem_edited.mp hby
      rcases hby with rfl | hby
      · -- the visited declaration is a slot itself
        have haslot := ha.resolve_left fun e => hne (congrArg Node.declaration e)
        obtain rfl := Option.some.inj (hw.symm.trans hy)
        rw [hwb.content.isEdited] at hye
        exact Forest.not_isEdited hz (hslot haslot) hye
      · cases hxb : F.declaration? b with
        | none =>
          have := (hp.sprouts b y hxb hy).slots_none a hby
          rw [hz] at this
          cases this
        | some xb =>
          have hb := hp.frames.becomes hxb hy
          rw [hb.content.slots] at hby
          have hbr := hn (Option.isSome_iff_exists.mpr ⟨xb, hxb⟩)
          rcases ha with rfl | ha
          · obtain rfl := Option.some.inj (hx.symm.trans hz)
            exact Forest.not_isEdited hz ((hk.slots b xb hbr hxb).of_mem_slots hby) hedited
          · exact hne (hF.container _ _ (.declaration a) (hreached hbr) (hreached hd)
              (Forest.child_of_slot hxb rfl hby) (Forest.child_of_slot hx rfl ha))
    · have hinit : w.isInitializer := by
        obtain ⟨c, _, hfind⟩ := Option.bind_eq_some_iff.mp hby
        have := List.find?_some hfind
        rwa [hw] at this
      rcases ha with rfl | ha
      · obtain rfl := Option.some.inj (hx.symm.trans hz)
        have := hwb.content.isEdited
        rw [hedited, Declaration.not_isEdited_of_isInitializer hinit] at this
        cases this
      · refine Forest.not_isInitializer hw ?_ hinit
        exact (hslot ha).imp (hp.frames.keeps.parameter a) (hp.frames.keeps.typeParameter a)
  · exact absurd (hp.frames.declaration?_none hnone) (by
      rw [show (start F).forest.declaration? a = F.declaration? a from rfl, hz]
      exact Option.some_ne_none _)

/-- from `p` to `q` the declaration `a` does not change -/
def Leaves (a : DeclarationId) (z : Declaration) (p q : Pass) : Prop :=
  p.forest.declaration? a = some z → q.forest.declaration? a = some z

section
variable (hk : F.KindCorrect roots) {d a : DeclarationId} {x z : Declaration}
  {pre post : List (Pass × Node)} (hx : F.declaration? d = some x)
  (hvs : declarationVisits cx roots (.start F) = pre ++ (p, .declaration d) :: post)
  (ha : a ∈ x.content.edited d)
include hk hx hvs ha

/-- the other visits have it out of their scope -/
theorem not_touched_of_visits : ∀ v ∈ pre ++ post, ¬ (v.1.scope v.2).touched a := by
  have hstores : F.Stores (.declaration d) := Option.isSome_iff_exists.mpr ⟨x, hx⟩
  have hvisit := (grafted_visit cx hB hP).2
  rw [hvs] at hvisit
  have hd := (hvisit _ (List.mem_append_right _ List.mem_cons_self)).2 hstores
  have hne := ne_of_visits hF hB hP hroots hstores hvs
  intro v hv
  obtain ⟨⟨hg, _⟩, hknown⟩ := hvisit v <| by
    rcases List.mem_append.mp hv with hv | hv
    · exact List.mem_append_left _ hv
    · exact List.mem_append_right _ (List.mem_cons_of_mem _ hv)
  exact not_touched hF hroots hk hg hd hx ha hknown (hne v hv)

theorem leaves_of_visits (hc : z.isClass = false) :
    ∀ v ∈ pre ++ post, Leaves a z v.1 (Pass.enterDeclaration cx v.1 v.2).1 := fun v hv hp =>
  (chain_enterDeclaration v.2).frames.declaration?_eq hp
    (not_touched_of_visits hF hB hP hroots hk hx hvs ha v hv) (.inr hc)

/-- **Until its visit, a declaration is as it was**, and so are the parameters in its slots. -/
theorem declaration?_before (hz : F.declaration? a = some z) (hc : z.isClass = false) :
    p.forest.declaration? a = some z := by
  have hrun := run_sweep cx F roots
  rw [hvs] at hrun
  have hleaves := leaves_of_visits hF hB hP hroots hk hx hvs ha hc
  exact (hrun.of_append_cons.1.relates (R := Leaves a z) (fun _ h => h)
    (fun h h' hp => h' (h hp)) fun v hv => hleaves v (List.mem_append_left _ hv)).1 hz

/-- **After its visit, it stays what it is.** -/
theorem declaration?_after (hz : (Pass.enterDeclaration cx p (.declaration d)).1.forest.declaration? a
    = some z) (hc : z.isClass = false) :
    (repairDeclarations cx roots (.start F)).forest.declaration? a = some z := by
  have hrun := run_sweep cx F roots
  rw [hvs] at hrun
  have hleaves := leaves_of_visits hF hB hP hroots hk hx hvs ha hc
  exact hrun.after (R := Leaves a z) (fun _ h => h) (fun h h' hp => h' (h hp))
    (fun v hv => hleaves v (List.mem_append_right _ hv)) hz

end

end

end Pass

end LinkRepair
