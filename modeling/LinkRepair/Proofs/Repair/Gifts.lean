import LinkRepair.Proofs.Repair.Lacks
import LinkRepair.Proofs.Repair.Order

/-!
# The members that classes are given

Copies of members come into the forest in one way only: a class is given them, one after the other.
Everything else that the sweep over declarations does leaves the functions of all classes as they are.

* `Scope.edits`               steps that give no members to classes;
* `Step.members`              each puts nothing but initializers into the classes;
* `Step.memberFunctions`      so it leaves the functions of every class as they are;
* `Pass.Tended`               a stage at which classes have been given certain members;
* `Tended.addMembers`         a class is given some more;
* `Pass.Mends`                edits that do not add members, while no class is looked at;
* `mends_mendClass`           such is the repair of a class before it is given members;
* `Plain.trimmed_mendClass`   after which it has linked super types only;
* `mends_visit`               and such is every visit but that of a class.
-/

namespace LinkRepair

/-- every declaration may be edited, and no class is given members -/
def Scope.edits : Scope := ⟨fun _ => True, fun _ => False, fun _ => False⟩

/-- an initializer that a class was given for a body that raises its problem -/
def Forest.AddedInitializer (F : Forest) (b : DeclarationId) : Prop :=
  ∃ y, F.declaration? b = some y ∧ y.isInitializer ∧ y.origin = .missing

theorem Forest.AddedInitializer.not_isPlainFunction {F : Forest} {b : DeclarationId}
    (h : F.AddedInitializer b) : F.isPlainFunction b = false := by
  obtain ⟨y, hy, hi, _⟩ := h
  unfold Declaration.isInitializer at hi
  split at hi
  · rename_i body hbody
    simp [Forest.isPlainFunction, hy, Declaration.function?, hbody]
  · cases hi

theorem Forest.addedInitializer_newInitializer (F : Forest) (d : DeclarationId) :
    (F.newInitializer d .missing).2.AddedInitializer (F.newInitializer d .missing).1 :=
  ⟨_, F.declaration?_attach_declare d .anonymousInitializer none rfl, rfl, rfl⟩

namespace Pass

section
variable {cx : Context} {c : Scope} {F : Forest} {D : DeclarationId → DeclarationId → Prop}
  {p q : Pass} {a b d m : DeclarationId}

/-- a step that gives no members puts nothing but initializers into the classes -/
theorem Step.members (h : Step cx .edits p q) {c : ClassInfo} (hc : p.forest.class? a = some c) :
    ∃ c' added, q.forest.class? a = some c' ∧ c'.members = c.members ++ added
      ∧ ∀ b ∈ added, q.forest.AddedInitializer b := by
  obtain ⟨x, hx, hxc⟩ := Forest.class?_eq hc
  have hnone : ∀ b ∈ ([] : List DeclarationId), q.forest.AddedInitializer b :=
    fun _ hb => absurd hb List.not_mem_nil
  have hsame : q.forest.class? a = some c → ∃ c' added, q.forest.class? a = some c'
      ∧ c'.members = c.members ++ added ∧ ∀ b ∈ added, q.forest.AddedInitializer b :=
    fun hc' => ⟨c, [], hc', (List.append_nil _).symm, hnone⟩
  have hclass := h.frames.isSome_class? (d := a) (by rw [hc]; rfl)
  cases h with
  | ask => exact hsame hc
  | examine => exact hsame hc
  | @amend b g _ hamend =>
    by_cases e : b = a
    · obtain rfl := e
      have hq : (p.forest.updateDeclaration b g).declaration? b = some (g x) := by
        rw [Forest.declaration?_updateDeclaration, if_pos rfl, hx, Option.map_some]
      obtain ⟨c', hc'⟩ := Option.isSome_iff_exists.mp hclass
      obtain ⟨y, hy, hyc⟩ := Forest.class?_eq hc'
      obtain rfl := Option.some.inj (hq.symm.trans hy)
      obtain ⟨c₀, hc₀, hmembers⟩ := (hamend x hx).members hyc
      obtain rfl := Option.some.inj (hxc.symm.trans hc₀)
      exact ⟨c', [], hc', hmembers.trans (List.append_nil _).symm, hnone⟩
    · exact hsame (Option.bind_eq_some_iff.mpr ⟨x, (Forest.declaration?_update_of_ne e).trans hx, hxc⟩)
  | @initializer b _ hb =>
    obtain ⟨cb, hcb⟩ := Option.isSome_iff_exists.mp hb
    by_cases e : b = a
    · obtain rfl := e
      exact ⟨_, [_], (p.forest.newInitializer_spec b .missing).2 c hc, rfl, fun i hi => by
        rw [List.mem_singleton.mp hi]
        exact p.forest.addedInitializer_newInitializer b⟩
    · have hgrows : Forest.Grows (fun d => d = b) p.forest (p.forest.newInitializer b .missing).2 :=
        Forest.grows_newInitializer rfl (Forest.isSome_of_class? hcb)
      obtain ⟨added, hy, _, hnew⟩ := hgrows.declaration? a x hx
      rw [hnew (Ne.symm e), Declaration.enlist_nil] at hy
      exact hsame (Option.bind_eq_some_iff.mpr ⟨x, hy, hxc⟩)
  | @raise b problem => exact hsame ((class?_raiseIn cx p problem b a).trans hc)
  | member hgrow => exact hgrow.elim

theorem Step.membersOf (h : Step cx .edits p q) (ha : (p.forest.declaration? a).isSome) :
    ∃ added, q.forest.membersOf a = p.forest.membersOf a ++ added
      ∧ ∀ b ∈ added, q.forest.AddedInitializer b := by
  unfold Forest.membersOf
  cases hc : p.forest.class? a with
  | none =>
    rw [h.frames.class?_none ha hc]
    exact ⟨[], rfl, fun _ hb => absurd hb List.not_mem_nil⟩
  | some c =>
    obtain ⟨c', added, hc', hmembers, hadded⟩ := h.members hc
    exact ⟨added, by rw [hc']; exact hmembers, hadded⟩

/-- initializers are no functions of a class -/
theorem Frames.memberFunctions_eq {I : Intrinsics} {T K : DeclarationId → Prop} (h : Frames I T K p q)
    (hC : p.forest.MembersKnown)
    (hknown : ∀ m x, p.forest.declaration? m = some x → p.forest.Knows x.symbol)
    {added : List DeclarationId} (hmembers : q.forest.membersOf a = p.forest.membersOf a ++ added)
    (hadded : ∀ b ∈ added, q.forest.AddedInitializer b) :
    q.forest.memberFunctions a = p.forest.memberFunctions a := by
  have hnone : added.filter q.forest.isPlainFunction = [] :=
    List.filter_eq_nil_iff.mpr fun b hb => by simp [(hadded b hb).not_isPlainFunction]
  rw [Forest.memberFunctions_eq, Forest.memberFunctions_eq, hmembers, List.filter_append, hnone,
    List.append_nil]
  exact List.filter_congr fun b hb =>
    h.isPlainFunction_eq (hknown b) (Forest.isSome_of_mem_membersOf hC hb)

/-- **A step that gives no members leaves the functions of every class as they are.** -/
theorem Step.memberFunctions (h : Step cx .edits p q) (hC : p.forest.MembersKnown)
    (hknown : ∀ m x, p.forest.declaration? m = some x → p.forest.Knows x.symbol)
    (ha : (p.forest.declaration? a).isSome) :
    q.forest.memberFunctions a = p.forest.memberFunctions a := by
  obtain ⟨added, hmembers, hadded⟩ := h.membersOf ha
  exact h.frames.memberFunctions_eq hC hknown hmembers hadded

/-! ## stages -/

/-- a stage of the repair of `F` at which classes have been given the members that `D` tells -/
structure Tended (cx : Context) (F : Forest) (D : DeclarationId → DeclarationId → Prop) (p : Pass) :
    Prop where
  plain : p.Plain cx.intrinsics F
  known : p.forest.MembersKnown
  spares : p.Spares F
  endowed : p.Endowed F D
  due : ∀ a m, D a m → F.Due a m

section
variable (hE : F.Entire) (hA : F.Acyclic)
include hE

theorem tended_start : (start F).Tended cx F fun _ _ => False where
  plain := plain_start _ hE.parents
  known := Forest.ChildrenKnown.membersKnown hE.children
  spares := spares_start F
  endowed :=
    { added := fun a b _ hb hnew => by
        have hstored := Forest.isSome_of_mem_memberFunctions hb
        rw [show (start F).forest.declaration? b = F.declaration? b from rfl, hnew] at hstored
        cases hstored
      given := fun _ _ h => False.elim h }
  due := fun _ _ h => False.elim h

include hA

theorem Tended.chain (h : p.Tended cx F D) (hc : Chain cx .edits p q) : q.Tended cx F D := by
  induction hc with
  | refl => exact h
  | tail _ hs ih =>
    exact ⟨ih.plain.step (hA.founds hE.needsKnown) hE.parents hE.owners hs, hs.membersKnown ih.known,
      ih.spares.step ih.plain hE hs, ih.endowed.frames hs.frames ih.due fun a ha =>
        hs.memberFunctions ih.known (ih.plain.knows_symbol hE) (ih.plain.frames.isSome (d := a) ha), ih.due⟩

/-- **A class is given a member** for a function that is due to it. -/
theorem Tended.addMember (h : p.Tended cx F D) (hm : F.Due d m) :
    (addMember cx d p m).Tended cx F (fun a n => D a n ∨ a = d ∧ n = m)
      ∧ (Pass.addMember cx d p m).gifts = p.gifts ++ [gift cx F d m] := by
  obtain ⟨owner, hd⟩ := Option.isSome_iff_exists.mp (Forest.isSome_of_isConcrete hm.1.concrete)
  have hclass : owner.isClass := by
    have := hm.1.concrete
    unfold Forest.isConcrete at this
    rw [hd] at this
    unfold Declaration.isClass
    cases hc : owner.class? with
    | none => simp [hc] at this
    | some c => rfl
  obtain ⟨b, hb, hmb⟩ := hm.1.inherited
  obtain ⟨source, f, hsource, hf⟩ := Forest.exists_function_of_mem_memberFunctions hmb
  have hchain : Chain cx .everything p (Pass.addMember cx d p m) := by
    have hoffers : p.forest.Offers (fun _ => True) m := by
      obtain ⟨added, hmembers, _⟩ := h.plain.memberFunctions hE hb.isSome
      exact ⟨b, b, trivial, .refl, hmembers ▸ List.mem_append_left _ hmb⟩
    have hall : ∀ n ∈ [m], p.forest.Offers (fun _ => True) n := fun n hn => by
      rw [List.mem_singleton.mp hn]
      exact hoffers
    exact (chain_addMembers (h.plain.frames.isSome (d := d)
      (Option.isSome_iff_exists.mpr ⟨owner, hd⟩)) .refl hall).widen
  have hframes := hchain.frames
  have hmembers : ∀ a, (F.declaration? a).isSome →
      (Pass.addMember cx d p m).forest.memberFunctions a = p.forest.memberFunctions a
        ++ if a = d then [(p.forest.copyMember d m).1] else [] := fun a ha =>
    h.plain.memberFunctions_addMember hE h.known hd hclass hsource hf ha
  have hstands := h.plain.standsIn_addMember hE hd hsource hf
  refine ⟨⟨h.plain.chain (hA.founds hE.needsKnown) hE.parents hE.owners hchain,
    hchain.membersKnown h.known, h.spares.chain h.plain hE hA hchain, ⟨fun a b ha hb hnew => ?_,
      fun a n hn => ?_⟩, fun a n hn => ?_⟩, h.plain.gifts_addMember hE hd hclass hsource hf⟩
  · rw [hmembers a ha] at hb
    rcases List.mem_append.mp hb with hb | hb
    · obtain ⟨n, hn, hstands'⟩ := h.endowed.added a b ha hb hnew
      exact ⟨n, .inl hn, hstands'.frames hframes⟩
    · split at hb
      · rename_i e
        rw [List.mem_singleton.mp hb]
        exact ⟨m, .inr ⟨e, rfl⟩, hstands⟩
      · exact absurd hb List.not_mem_nil
  · rcases hn with hn | ⟨rfl, rfl⟩
    · obtain ⟨b, hb, hstands'⟩ := h.endowed.given a n hn
      rw [hmembers a (Forest.isSome_of_isConcrete (h.due a n hn).1.concrete)]
      exact ⟨b, List.mem_append_left _ hb, hstands'.frames hframes⟩
    · rw [hmembers a (Option.isSome_iff_exists.mpr ⟨owner, hd⟩), if_pos rfl]
      exact ⟨_, List.mem_append_right _ (List.mem_singleton_self _), hstands⟩
  · rcases hn with hn | ⟨rfl, rfl⟩
    · exact h.due a n hn
    · exact hm

/-- **A class is given members** for functions that are due to it, one after the other. -/
theorem Tended.addMembers : ∀ {ms : List DeclarationId} {D : DeclarationId → DeclarationId → Prop}
    {p : Pass}, p.Tended cx F D → (∀ m ∈ ms, F.Due d m) →
    (ms.foldl (Pass.addMember cx d) p).Tended cx F (fun a n => D a n ∨ a = d ∧ n ∈ ms)
      ∧ (ms.foldl (Pass.addMember cx d) p).gifts = p.gifts ++ ms.map (gift cx F d) := by
  intro ms
  induction ms with
  | nil =>
    intro D p h _
    refine ⟨?_, (List.append_nil _).symm⟩
    simpa using h
  | cons m ms ih =>
    intro D p h hms
    obtain ⟨hone, hgift⟩ := h.addMember hE hA (hms m List.mem_cons_self)
    obtain ⟨hall, hgifts⟩ := ih hone fun n hn => hms n (List.mem_cons_of_mem _ hn)
    refine ⟨?_, ?_⟩
    · have hiff : (fun a n => (D a n ∨ a = d ∧ n = m) ∨ a = d ∧ n ∈ ms)
          = fun a n => D a n ∨ a = d ∧ n ∈ m :: ms := by
        funext a n
        rw [List.mem_cons, or_assoc, ← and_or_left]
      rw [← hiff]
      exact hall
    · rw [List.foldl_cons, hgifts, hgift, List.append_assoc]
      rfl

end

/-! ## between classes -/

/-- the outlines of the added members, and the classes that were looked at -/
def grants (p : Pass) : List (Bool × Bool × Report) × List DeclarationId := (p.gifts, p.examined)

theorem grants_of_account (h : q.account = p.account) : q.grants = p.grants := by
  unfold grants gifts
  rw [show q.repairs = p.repairs from congrArg Prod.fst h, show q.examined = p.examined from
    congrArg Prod.snd h]

/-- from `p` to `q` declarations are edited, and no class is looked at or given members -/
structure Mends (cx : Context) (p q : Pass) : Prop where
  chain : Chain cx .edits p q
  grants : q.grants = p.grants

theorem grants_raiseIn {problem : Problem} (hp : ∀ m, problem ≠ .unimplementedMember m) :
    (p.raiseIn cx problem d).grants = p.grants := by
  have hadded := Repair.isAddedMember_of_ne hp (.declaration d)
    ⟨cx.severity, p.forest.problemText problem, p.forest.declarationLocation d⟩
  show (((p.repairs ++ [_]).filter _).map _, p.examined) = _
  rw [List.filter_append, List.filter_cons_of_neg (by rw [hadded]; exact Bool.false_ne_true),
    List.filter_nil, List.append_nil]
  rfl

theorem classProblem_ne {s : SymbolId} {v v' : Verdict} {problem : Problem}
    (h : classProblem d s v v' = some problem) : ∀ m, problem ≠ .unimplementedMember m := by
  unfold classProblem at h
  split at h
  · cases h
    exact nofun
  · cases h
    exact nofun
  · cases h
    exact nofun
  · obtain ⟨k, _, rfl⟩ := Option.map_eq_some_iff.mp h
    exact nofun

theorem functionProblem_ne {x : Declaration} {v : Verdict} {problem : Problem}
    (h : functionProblem d x v = some problem) : ∀ m, problem ≠ .unimplementedMember m := by
  unfold functionProblem at h
  split at h
  · cases h
  · cases h
    exact nofun
  · obtain ⟨k, _, rfl⟩ := Option.map_eq_some_iff.mp h
    exact nofun

theorem account_initializerOf (p : Pass) (d : DeclarationId) :
    (p.initializerOf d).2.account = p.account := by
  unfold initializerOf
  split <;> rfl

theorem grants_breakClass {problem : Problem} (hp : ∀ m, problem ≠ .unimplementedMember m) :
    (p.breakClass cx d problem).grants = p.grants :=
  (grants_of_account (account_dropBrokenSuperTypes _ d)).trans
    ((grants_raiseIn hp).trans (grants_of_account (account_initializerOf p d)))

variable {x : Declaration} {info : ClassInfo}

/-- **The repair of a class gives members to no class**, until the class itself is given some. -/
theorem mends_mendClass (hx : p.forest.declaration? d = some x) (hinfo : x.content = .ofClass info) :
    Mends cx p (p.mendClass cx d x.symbol info) := by
  refine ⟨chain_mendClass hx hinfo (fun _ _ => trivial) (fun _ _ => trivial) fun _ _ => trivial, ?_⟩
  have hbounds : (p.fixTypeParameters cx info.typeParameters).2.account = p.account :=
    each_invariant (P := fun q => q.account = p.account) (fun q a hq =>
      (account_fixPart a cx.intrinsics.anyType q (.typeParameter a)).trans hq) rfl
  unfold mendClass
  generalize p.fixTypeParameters cx info.typeParameters = bound at hbounds
  have hask := grants_of_account ((account_ask bound.2 [x.symbol]).trans hbounds)
  dsimp only
  generalize bound.2.ask [x.symbol] = verdict at hask
  split
  · exact hask
  · rename_i problem hproblem
    exact (grants_breakClass (classProblem_ne hproblem)).trans hask

/-- super types that mention something broken are dropped -/
theorem Plain.trimmed_dropBrokenSuperTypes (h : p.Plain cx.intrinsics F) (hE : F.Entire)
    (hA : F.Acyclic) (hd : (F.declaration? d).isSome) : (p.dropBrokenSuperTypes d).Trimmed F d := by
  intro c hc t ht
  unfold dropBrokenSuperTypes at hc
  cases hinfo : p.forest.class? d with
  | none =>
    simp only [hinfo] at hc
    cases hc
  | some info =>
    obtain ⟨y, hy, hyc⟩ := Forest.class?_eq hinfo
    obtain ⟨x, hx⟩ := Option.isSome_iff_exists.mp hd
    have hknown := h.knows_types hE hx hy
    rw [Forest.class?_eq_some.mp hyc] at hknown
    have hkept : (p.linkedTypes info.superTypes).1 = _ := h.linkedTypes hE hA fun s hs => by
      obtain ⟨u, hu, hsu⟩ := List.mem_flatMap.mp hs
      exact hknown u hu s (u.mentioned_subset_blamed hsu)
    simp only [hinfo] at hc
    replace hc : (Forest.updateDeclaration _ d _).class? d = some c := hc
    unfold Forest.class? at hc
    rw [Forest.declaration?_updateDeclaration, if_pos rfl, (linkedTypes_spec info.superTypes p).2.1, hy,
      Option.map_some, Option.bind_some, Declaration.class?_mapClass, hyc, hkept] at hc
    obtain rfl := Option.some.inj hc
    exact (List.mem_filter.mp ht).2

/-- **After its repair a class has linked super types only**: a class without a problem never had
others. -/
theorem Plain.trimmed_mendClass (h : p.Plain cx.intrinsics F) (hE : F.Entire) (hA : F.Acyclic)
    {x₀ : Declaration} (hx₀ : F.declaration? d = some x₀) (hx : p.forest.declaration? d = some x)
    (hinfo : x.content = .ofClass info) : (p.mendClass cx d x.symbol info).Trimmed F d := by
  have hd : (F.declaration? d).isSome := Option.isSome_iff_exists.mpr ⟨x₀, hx₀⟩
  have hb := h.frames.becomes hx₀ hx
  have hbounds : Chain cx .edits p (p.fixTypeParameters cx info.typeParameters).2 :=
    (chain_each (f := fixTypeParameter cx) (P := fun _ => True) (fun q a _ _ =>
      ⟨chain_fixTypeParameter trivial, trivial⟩) trivial).1
  have hplain := h.chain (hA.founds hE.needsKnown) hE.parents hE.owners hbounds
  have hclass : ((p.fixTypeParameters cx info.typeParameters).2.forest.class? d).isSome :=
    hbounds.frames.isSome_class? (by simp [Forest.class?, hx, Declaration.class?, hinfo])
  have hasked := hbounds.asked_of_ask hx
  unfold mendClass
  generalize p.fixTypeParameters cx info.typeParameters = bound at hplain hclass hasked
  obtain ⟨hanswered, hanswer⟩ := hplain.ask (hA.founds hE.needsKnown) [x.symbol]
  replace hanswer := hanswer fun s hs => by
    rw [List.mem_singleton.mp hs, hb.symbol]
    exact hE.symbols d x₀ hx₀
  dsimp only
  split
  · rename_i hnone
    have hverdict : (bound.2.ask [x.symbol]).1 = none := by
      unfold classProblem at hnone
      split at hnone
      · cases hnone
      · cases hnone
      · cases hnone
      · assumption
    refine hanswered.trimmed hE hA ⟨x₀, hx₀, ?_⟩
    rw [hanswer, List.findSome?_cons] at hverdict
    rw [← hb.symbol]
    split at hverdict
    · cases hverdict
    · assumption
  · rename_i problem _
    have hraise : Chain cx .edits (bound.2.ask [x.symbol]).2
        (((bound.2.ask [x.symbol]).2.initializerOf d).2.raiseIn cx problem
          ((bound.2.ask [x.symbol]).2.initializerOf d).1) :=
      chain_raiseInitializer trivial (by rw [ask_forest]; exact hclass) (fun _ _ => trivial) fun _ _ =>
        trivial
    exact (hanswered.chain (hA.founds hE.needsKnown) hE.parents hE.owners hraise).trimmed_dropBrokenSuperTypes
      hE hA hd

/-- **A visit gives no members to classes**, unless it is that of a class. -/
theorem mends_visit {n : Node} (h : ∀ d x info, n = .declaration d → p.forest.declaration? d = some x →
    x.content ≠ .ofClass info) : Mends cx p (enterDeclaration cx p n).1 := by
  have hrefl : Mends cx p p := ⟨.refl, rfl⟩
  unfold enterDeclaration
  cases n with
  | expression e => exact hrefl
  | declaration d =>
    dsimp only
    split
    · exact hrefl
    · rename_i x hx
      cases hc : x.content with
      | ofClass info => exact absurd hc (h d x info rfl hx)
      | ofFunction f =>
        refine ⟨chain_repairFunction hx hc fun _ _ => trivial, ?_⟩
        have hfixed : ((p.filterOverridden d).fixSignature cx d).2.grants = p.grants :=
          grants_of_account (account_fixSignature _ d)
        show (p.repairFunction cx d x).2.grants = p.grants
        unfold repairFunction
        generalize (p.filterOverridden d).fixSignature cx d = fixed at hfixed
        dsimp only
        split
        · exact hfixed
        · rename_i problem hproblem
          exact (grants_raiseIn (functionProblem_ne hproblem)).trans hfixed
      | ofProperty info => exact ⟨chain_filterOverridden trivial, rfl⟩
      | ofField info => exact ⟨chain_fixValue trivial, grants_of_account (account_fixValue cx p d)⟩
      | ofVariable info => exact ⟨chain_fixValue trivial, grants_of_account (account_fixValue cx p d)⟩
      | ofParameter | ofTypeParameter | ofEnumEntry | ofInitializer => exact hrefl

end

end Pass

end LinkRepair
