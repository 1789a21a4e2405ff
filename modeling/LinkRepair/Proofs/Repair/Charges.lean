import LinkRepair.Proofs.Repair.Account
import LinkRepair.Proofs.Repair.Alike

/-!
# What a visit reports

A visit reports the problem of its declaration, and the members that it adds.  The first does not
depend on what was repaired before, nor does the place where it is reported.

* `Repair.outline`      what summaries and reports are made of;
* `Pass.charges`        the outlines of the repairs other than added members;
* `Alike.breakClass`    a broken class is charged with the same problem at the same place;
* `Alike.visit`         the same visit makes the same charges, and the same edits.
-/

namespace LinkRepair

theorem Problem.Within.ne_unimplementedMember {F : Forest} {problem : Problem}
    (h : problem.Within F) (m : DeclarationId) : problem ≠ .unimplementedMember m := by
  rintro rfl
  cases h

namespace Repair

/-- what a repair counts for, and its report -/
def outline (r : Repair) : Bool × Bool × Report := (r.isDeclaration, r.isAddedMember, r.report)

theorem isAddedMember_of_ne {problem : Problem} (h : ∀ m, problem ≠ .unimplementedMember m) (n : Node)
    (report : Report) : isAddedMember ⟨n, problem, report⟩ = false := by
  cases problem with
  | unimplementedMember m => exact absurd rfl (h m)
  | _ => rfl

end Repair

namespace Pass

/-- the outlines of the repairs that are no added members -/
def charges (p : Pass) : List (Bool × Bool × Report) :=
  (p.repairs.filter fun r => !r.isAddedMember).map Repair.outline

/-- the charge of a declaration with a problem -/
def charge (cx : Context) (F : Forest) (problem : Problem) (d : DeclarationId) :
    Bool × Bool × Report :=
  (true, false, ⟨cx.severity, F.problemText problem, F.declarationLocation d⟩)

section
variable {cx : Context} {F : Forest} {p q : Pass} {a b d : DeclarationId} {problem : Problem}

theorem charges_raiseIn (hp : ∀ m, problem ≠ .unimplementedMember m) :
    (p.raiseIn cx problem d).charges = p.charges ++ [charge cx p.forest problem d] := by
  have hadded := Repair.isAddedMember_of_ne hp (.declaration d)
    ⟨cx.severity, p.forest.problemText problem, p.forest.declarationLocation d⟩
  show ((p.repairs ++ [_]).filter _).map _ = _
  rw [List.filter_append, List.map_append, List.filter_cons_of_pos (by rw [hadded]; rfl)]
  simp only [List.filter_nil, List.map_cons, List.map_nil, Repair.outline, hadded]
  rfl

/-- a new body is the only thing that changes, and is not seen -/
theorem view_raiseIn (hp : ∀ e, p.forest.expression? e = none → F.expression? e = none) :
    F.view (p.raiseIn cx problem a).forest b
      = if a = b then (F.view p.forest b).map (Declaration.withBody []) else F.view p.forest b := by
  rw [Forest.view, declaration?_raiseIn]
  split
  · unfold Forest.view
    rw [Option.map_map, Option.map_map]
    congr 1
    funext x
    exact Declaration.within_withBody (hp _ (by simp [Forest.expression?]))
  · rfl

/-! ## the initializer of a class -/

/-- a member that was there was listed before -/
theorem Frames.mem_members {I : Intrinsics} {T K : DeclarationId → Prop} (h : Frames I T K p q)
    (hd : (p.forest.declaration? d).isSome) {c : ClassInfo} (hc : q.forest.class? d = some c)
    (ha : a ∈ c.members) (hs : (p.forest.declaration? a).isSome) :
    ∃ c₀, p.forest.class? d = some c₀ ∧ a ∈ c₀.members := by
  obtain ⟨c₀, added, hc₀, _, _, hmembers, hnew⟩ := h.class?_before hd hc
  rw [hmembers] at ha
  refine ⟨c₀, hc₀, (List.mem_append.mp ha).resolve_right fun hadded => ?_⟩
  rw [hnew a hadded] at hs
  cases hs

/-- the first initializer of a class of `F` was the first, or was not there -/
theorem Plain.initializer?_cases {I : Intrinsics} (h : p.Plain I F) (hE : F.Entire)
    (hd : (F.declaration? d).isSome) (hi : p.forest.initializer? d = some a) :
    F.initializer? d = some a ∨ F.initializer? d = none ∧ F.declaration? a = none := by
  cases hF : F.initializer? d with
  | some b =>
    have := h.frames.initializer? (Forest.ChildrenKnown.membersKnown hE.children) hF
    exact .inl (this.symm.trans hi)
  | none =>
    refine .inr ⟨rfl, ?_⟩
    by_contra hs
    obtain ⟨z, hz⟩ := Option.ne_none_iff_exists'.mp hs
    obtain ⟨c, hc, hmem, w, hw, hinit⟩ := Forest.exists_of_initializer? hi
    obtain ⟨c₀, hc₀, hmem₀⟩ := h.frames.mem_members hd hc hmem (Option.isSome_iff_exists.mpr ⟨z, hz⟩)
    have hb := h.frames.becomes hz hw
    replace hc₀ : F.class? d = some c₀ := hc₀
    rw [Forest.initializer?, hc₀, Option.bind_some, List.find?_eq_none] at hF
    have := hF a hmem₀
    rw [hz] at this
    exact this (hb.isInitializer.symm.trans hinit)

/-- a first initializer that was not there stands in for one that is missing, and is a member of its
class -/
def Housed (F : Forest) (p : Pass) (d : DeclarationId) : Prop :=
  ∀ a, p.forest.initializer? d = some a → F.declaration? a = none →
    ∃ y, p.forest.declaration? a = some y ∧ y.origin.isStandIn ∧ y.parent = some (.declaration d)

end

end Pass

namespace Forest

/-- where the problem of a class is reported: at its first initializer, or at the class -/
def culprit (F : Forest) (d : DeclarationId) : DeclarationId := (F.initializer? d).getD d

/-- a new initializer stands in for one that is missing, and is a member of its class -/
theorem declaration?_newInitializer (F : Forest) (d : DeclarationId) (origin : Origin) :
    F.declaration? (F.newInitializer d origin).1 = none
      ∧ ∃ y, (F.newInitializer d origin).2.declaration? (F.newInitializer d origin).1 = some y
        ∧ y.origin = origin ∧ y.parent = some (.declaration d) :=
  ⟨F.declaration?_size, _, declaration?_attach_declare d _ _ rfl, rfl, rfl⟩

end Forest

namespace Pass

section
variable {cx : Context} {F : Forest} {A : DeclarationId → Prop} {p q : Pass} {a b d : DeclarationId}
  {problem : Problem} (hE : F.Entire) (hA : F.Acyclic)
include hE

omit hE in
theorem Plain.frames_initializerOf (h : p.Plain cx.intrinsics F) (hd : (F.class? d).isSome) :
    Frames cx.intrinsics (fun _ => True) (fun _ => True) (.start F) (p.initializerOf d).2 := by
  have hmade : Chain cx .everything p (p.initializerOf d).2 :=
    chain_initializerOf trivial (h.frames.isSome_class? (d := d) hd)
  exact h.frames.trans hmade.frames

/-- **The initializer of a class** is the one that was there, or one that was not. -/
theorem Plain.initializerOf (h : p.Plain cx.intrinsics F) (hd : (F.class? d).isSome)
    (hhoused : p.Housed F d) :
    ((∀ a, F.initializer? d = some a → (p.initializerOf d).1 = a)
      ∧ (F.initializer? d = none → F.declaration? (p.initializerOf d).1 = none))
      ∧ (p.initializerOf d).2.repairs = p.repairs
      ∧ (∀ b, (F.declaration? b).isSome →
        F.view (p.initializerOf d).2.forest b = F.view p.forest b)
      ∧ (p.initializerOf d).2.forest.declarationLocation (p.initializerOf d).1
        = F.declarationLocation (F.culprit d) := by
  obtain ⟨c₀, hc₀⟩ := Option.isSome_iff_exists.mp hd
  obtain ⟨c, hc⟩ := Option.isSome_iff_exists.mp (h.frames.isSome_class? (d := d) hd)
  have hstored : (F.declaration? d).isSome := Forest.isSome_of_class? hc₀
  have hlocate : ∀ {r : Pass} {i : DeclarationId}, F.Words r.forest →
      (F.initializer? d = some i ∨ F.initializer? d = none ∧ F.declaration? i = none
        ∧ ∃ y, r.forest.declaration? i = some y ∧ y.origin.isStandIn
          ∧ y.parent = some (.declaration d)) →
      r.forest.declarationLocation i = F.declarationLocation (F.culprit d) := by
    rintro r i hwords (hi | ⟨hnone, hnew, y, hy, horigin, hparent⟩)
    · obtain ⟨_, _, _, z, hz, _⟩ := Forest.exists_of_initializer? hi
      rw [Forest.culprit, hi, Option.getD_some,
        hwords.declarationLocation hE.parents (Option.isSome_iff_exists.mpr ⟨z, hz⟩)]
    · rw [Forest.culprit, hnone, Option.getD_none]
      exact hwords.addedLocation hE.parents hstored hnew hy horigin hparent
  unfold Pass.initializerOf
  cases hi : p.forest.initializer? d with
  | some i =>
    have hcases := h.initializer?_cases hE hstored hi
    refine ⟨⟨fun a ha => ?_, fun hnone => ?_⟩, rfl, fun _ _ => rfl, hlocate h.frames.words ?_⟩
    · rcases hcases with h' | ⟨h', _⟩
      · exact Option.some.inj (h'.symm.trans ha)
      · rw [h'] at ha
        cases ha
    · rcases hcases with h' | ⟨_, h'⟩
      · rw [h'] at hnone
        cases hnone
      · exact h'
    · exact hcases.imp_right fun h' => ⟨h'.1, h'.2, hhoused i hi h'.2⟩
  | none =>
    obtain ⟨hnew, y, hy, horigin, hparent⟩ := p.forest.declaration?_newInitializer d .missing
    have hgrows : Forest.Grows (fun _ => True) p.forest (p.forest.newInitializer d .missing).2 :=
      Forest.grows_newInitializer trivial (Forest.isSome_of_class? hc)
    have hframes : Frames cx.intrinsics (fun _ => False) (fun _ => True) p
        { p with forest := (p.forest.newInitializer d .missing).2 } :=
      frames_of_grows hgrows fun _ _ => .inr trivial
    have hnone : F.initializer? d = none := by
      cases hF : F.initializer? d with
      | none => rfl
      | some b =>
        have := h.frames.initializer? (Forest.ChildrenKnown.membersKnown hE.children) hF
        rw [hi] at this
        cases this
    refine ⟨⟨fun a ha => ?_, fun _ => h.frames.declaration?_none hnew⟩, rfl, fun b hb => ?_, ?_⟩
    · rw [hnone] at ha
      cases ha
    · exact hframes.view_eq (fun _ => h.frames.declaration?_none) hb id
    · refine hlocate (r := { p with forest := (p.forest.newInitializer d .missing).2 }) ?_
        (.inr ⟨hnone, h.frames.declaration?_none hnew, y, hy, by rw [horigin]; rfl, hparent⟩)
      exact Frames.words (h.frames.trans (hframes.mono (fun _ _ => trivial) fun _ _ => trivial))

/-- **A broken class is charged with its problem at its first initializer**, or at the class if it had
none. -/
theorem Plain.charges_breakClass (h : p.Plain cx.intrinsics F) (hd : (F.class? d).isSome)
    (hhoused : p.Housed F d) (hproblem : problem.Within F) :
    (p.breakClass cx d problem).charges = p.charges ++ [charge cx F problem (F.culprit d)] := by
  obtain ⟨_, hrepairs, _, hlocation⟩ := h.initializerOf hE hd hhoused
  have hwords : F.Words (p.initializerOf d).2.forest :=
    Frames.words (h.frames_initializerOf hd)
  have hcharges : ∀ r : Pass, (r.dropBrokenSuperTypes d).charges = r.charges := fun r => by
    rw [charges, repairs_dropBrokenSuperTypes]
    rfl
  rw [breakClass, hcharges, charges_raiseIn hproblem.ne_unimplementedMember]
  congr 1
  · rw [charges, hrepairs]
    rfl
  · rw [charge, charge, hwords.problemText hE.owners hproblem, hlocation]

include hA

theorem Alike.breakClass (h : Alike cx.intrinsics F A p q) (hd : A d) (hclass : (F.class? d).isSome)
    (hp : p.Housed F d) (hq : q.Housed F d)
    (hp' : ∀ x, p.forest.declaration? d = some x → (p.memo.find? x.symbol).isSome)
    (hq' : ∀ x, q.forest.declaration? d = some x → (q.memo.find? x.symbol).isSome) :
    Alike cx.intrinsics F A (p.breakClass cx d problem) (q.breakClass cx d problem) := by
  obtain ⟨hcases, _, hview, _⟩ := h.left.initializerOf hE hclass hp
  obtain ⟨hcases', _, hview', _⟩ := h.right.initializerOf hE hclass hq
  have hclass₁ := h.left.frames.isSome_class? (d := d) hclass
  have hclass₂ := h.right.frames.isSome_class? (d := d) hclass
  have hchain : Chain cx .everything p ((p.initializerOf d).2.raiseIn cx problem (p.initializerOf d).1) :=
    chain_raiseInitializer trivial hclass₁ (fun _ _ => trivial) fun _ _ => trivial
  have hchain' : Chain cx .everything q ((q.initializerOf d).2.raiseIn cx problem (q.initializerOf d).1) :=
    chain_raiseInitializer trivial hclass₂ (fun _ _ => trivial) fun _ _ => trivial
  have hraised : Alike cx.intrinsics F A
      ((p.initializerOf d).2.raiseIn cx problem (p.initializerOf d).1)
      ((q.initializerOf d).2.raiseIn cx problem (q.initializerOf d).1) := by
    refine h.chain hE hA hchain hchain' fun b hb => ?_
    have hstored := h.stored b hb
    rw [view_raiseIn (F := F) fun _ => (h.left.frames_initializerOf hclass).expression?_none,
      view_raiseIn (F := F) fun _ => (h.right.frames_initializerOf hclass).expression?_none,
      hview b hstored, hview' b hstored, h.view b hb]
    -- both are the initializer that was there, or neither was there
    cases hinit : F.initializer? d with
    | some i => rw [hcases.1 i hinit, hcases'.1 i hinit]
    | none =>
      have hne : ∀ {a}, F.declaration? a = none → a ≠ b := by
        rintro a ha rfl
        rw [ha] at hstored
        cases hstored
      rw [if_neg (hne (hcases.2 hinit)), if_neg (hne (hcases'.2 hinit))]
  exact hraised.dropBrokenSuperTypes hE hA hd (hchain.asked hclass₁ hp') (hchain'.asked hclass₂ hq')

/-! ## added members -/

omit hE hA in
variable (cx) in
/-- added members are no charges -/
theorem charges_implementWithin : ∀ (bound : Nat) (p : Pass) (d : DeclarationId),
    (implementWithin cx bound p d).charges = p.charges := by
  have hmember : ∀ (d : DeclarationId) (q : Pass) (m : DeclarationId),
      (addMember cx d q m).charges = q.charges := fun d q m => by
    show ((q.repairs ++ [_]).filter _).map _ = _
    rw [List.filter_append, List.map_append]
    exact List.append_nil _
  refine implementWithin_induction (motive := fun _ p _ q => q.charges = p.charges)
    ?stop ?seen ?abstract ?concrete
  case stop => exact fun _ _ => rfl
  case seen => exact fun _ _ _ _ => rfl
  case abstract => exact fun _ _ _ _ _ => rfl
  case concrete =>
    intro bound p d ih _ _ q hq
    have habove : q.charges = p.charges := hq ▸ List.foldlRecOn
      (motive := fun q : Pass => q.charges = p.charges) _ _ rfl fun q hq a _ => (ih q a).trans hq
    exact List.foldlRecOn (motive := fun q : Pass => q.charges = p.charges) _ _ habove
      fun q hq m _ => (hmember d q m).trans hq

theorem Alike.implementMembers (h : Alike cx.intrinsics F A p q) :
    Alike cx.intrinsics F A (p.implementMembers cx d) (q.implementMembers cx d) := by
  have hchain : ∀ r : Pass, Chain cx (r.fringe (· = d)) r (r.implementMembers cx d) := fun r =>
    chain_implementWithin ⟨d, rfl, .refl⟩
  have hview : ∀ r : Pass, r.Plain cx.intrinsics F → ∀ b, A b →
      F.view (r.implementMembers cx d).forest b = F.view r.forest b := fun r hr b hb =>
    (hchain r).frames.view_eq (fun _ => hr.frames.declaration?_none) (h.stored b hb)
      (not_touched_fringe (hr.frames.isSome (h.stored b hb)))
  refine h.chain hE hA (hchain p) (hchain q) fun b hb => ?_
  rw [hview p h.left b hb, hview q h.right b hb, h.view b hb]

/-! ## visits -/

/-- what two stages have in common after the same visit -/
structure SameVisit (I : Intrinsics) (F : Forest) (A : DeclarationId → Prop) (p q p' q' : Pass) :
    Prop where
  alike : Alike I F A p' q'
  charges : ∃ l, p'.charges = p.charges ++ l ∧ q'.charges = q.charges ++ l

omit hE hA in
theorem SameVisit.of_repairs {I : Intrinsics} {p' q' : Pass} (h : Alike I F A p' q')
    (hp : p'.repairs = p.repairs) (hq : q'.repairs = q.repairs) : SameVisit I F A p q p' q' :=
  ⟨h, [], by rw [Pass.charges, hp, List.append_nil]; rfl,
    by rw [Pass.charges, hq, List.append_nil]; rfl⟩

/-- a function gets the same verdict on its signature -/
theorem Alike.fixFunction (h : Alike cx.intrinsics F A p q) (hd : A d) {x : Declaration}
    (hx : F.declaration? d = some x) (hslots : ∀ a ∈ x.content.slots, A a) :
    SameAnswer cx.intrinsics F A ((p.filterOverridden d).fixSignature cx d)
      ((q.filterOverridden d).fixSignature cx d) := by
  have hfiltered := h.filterOverridden hE hA (d := d)
  refine hfiltered.fixSignature hE hA hd fun f hf a ha => ?_
  obtain ⟨w, hw, hwf⟩ := Option.bind_eq_some_iff.mp hf
  have hb := hfiltered.left.frames.becomes hx hw
  have := hb.content.slots
  rw [Forest.function?_eq_some.mp hwf] at this
  exact hslots a (this ▸ ha)

theorem Alike.repairFunction (h : Alike cx.intrinsics F A p q) (hd : A d) {x y z : Declaration}
    {f : FunctionInfo} (hx : F.declaration? d = some x) (hf : x.content = .ofFunction f)
    (hslots : ∀ a ∈ x.content.slots, A a) (hy : y.origin = x.origin ∧ y.symbol = x.symbol)
    (hz : z.origin = x.origin ∧ z.symbol = x.symbol) :
    SameVisit cx.intrinsics F A p q (p.repairFunction cx d y).2 (q.repairFunction cx d z).2 := by
  have hfixed := h.fixFunction hE hA hd hx hslots
  have hrepairs : ∀ r : Pass, ((r.filterOverridden d).fixSignature cx d).2.repairs = r.repairs :=
    fun r => repairs_fixSignature _ d
  have hproblem : functionProblem d y ((p.filterOverridden d).fixSignature cx d).1
      = functionProblem d z ((q.filterOverridden d).fixSignature cx d).1 := by
    unfold functionProblem
    rw [hy.1, hy.2, hz.1, hz.2, hfixed.verdict]
  have hknown := hfixed.known
  unfold Pass.repairFunction
  dsimp only
  rw [← hproblem]
  have hp' := hrepairs p
  have hq' := hrepairs q
  replace hfixed := hfixed.alike
  generalize (p.filterOverridden d).fixSignature cx d = r at hproblem hknown hp' hfixed
  generalize (q.filterOverridden d).fixSignature cx d = r' at hproblem hq' hfixed
  cases hprob : functionProblem d y r.1 with
  | none => exact .of_repairs hfixed hp' hq'
  | some problem =>
    have hwithin : problem.Within F := by
      unfold functionProblem at hprob
      split at hprob
      · cases hprob
      · cases hprob
        rw [hy.2]
        exact .missingDeclaration (hE.symbols d x hx)
      · obtain ⟨k, hk, rfl⟩ := Option.map_eq_some_iff.mp hprob
        exact .brokenSignature ⟨x, hx, hE.symbols d x hx⟩ (hknown k hk)
    have hroutine : ∀ {s : Pass}, s.Plain cx.intrinsics F → s.forest.HasRoutine d := fun hs =>
      Frames.hasRoutine hs.frames ⟨x, hx, by simp [Declaration.isRoutine, Declaration.function?, hf]⟩
    have hcharges : ∀ {s : Pass}, s.Plain cx.intrinsics F →
        (s.raiseIn cx problem d).charges = s.charges ++ [charge cx F problem d] := fun hs => by
      have hwords : F.Words _ := hs.frames.words
      rw [charges_raiseIn hwithin.ne_unimplementedMember, charge, charge,
        hwords.problemText hE.owners hwithin,
        hwords.declarationLocation hE.parents (Option.isSome_iff_exists.mpr ⟨x, hx⟩)]
    refine ⟨hfixed.chain hE hA (c := .everything) (k := .everything)
      (.single (.raise problem trivial (hroutine hfixed.left)))
      (.single (.raise problem trivial (hroutine hfixed.right))) fun b hb => ?_,
      [charge cx F problem d], ?_, ?_⟩
    · rw [view_raiseIn (F := F) fun _ => hfixed.left.frames.expression?_none,
        view_raiseIn (F := F) fun _ => hfixed.right.frames.expression?_none, hfixed.view b hb]
    · rw [hcharges hfixed.left, charges, hp']
      rfl
    · rw [hcharges hfixed.right, charges, hq']
      rfl

omit hA in
theorem within_classProblem {x : Declaration} (hx : F.declaration? d = some x)
    {verdict bound : Verdict} (hverdict : ∀ k, verdict = some k → F.KnowsCause k)
    (hbound : ∀ k, bound = some k → F.KnowsCause k)
    (h : classProblem d x.symbol verdict bound = some problem) : problem.Within F := by
  have hd : F.KnowsDeclaration d := ⟨x, hx, hE.symbols d x hx⟩
  unfold classProblem at h
  split at h
  · cases h
    exact .missingDeclaration (hE.symbols d x hx)
  · cases h
    exact .missingEnclosingClass hd
  · cases h
    exact .brokenSignature hd fun l hl => hverdict _ rfl l (List.mem_cons_of_mem _ hl)
  · obtain ⟨k, hk, rfl⟩ := Option.map_eq_some_iff.mp h
    exact .brokenSignature hd (hbound k hk)

omit hE hA in
variable (cx) in
/-- a question about the bounds of a class leaves its initializers as they are, and makes no repair -/
theorem Plain.fixTypeParameters (h : p.Plain cx.intrinsics F) (hp : p.Housed F d) {x : Declaration}
    (hx : F.declaration? d = some x) (ts : List DeclarationId) :
    (p.fixTypeParameters cx ts).2.Housed F d ∧ (p.fixTypeParameters cx ts).2.repairs = p.repairs
      ∧ ∀ y, ((p.fixTypeParameters cx ts).2.ask [x.symbol]).2.forest.declaration? d = some y →
        (((p.fixTypeParameters cx ts).2.ask [x.symbol]).2.memo.find? y.symbol).isSome := by
  obtain ⟨hchain, hinit, hrepairs⟩ := chain_each (c := .everything) (f := Pass.fixTypeParameter cx)
    (l := ts) (P := fun q => q.forest.initializer? d = p.forest.initializer? d ∧ q.repairs = p.repairs)
    (p := p) (fun q a _ hq => ⟨chain_fixTypeParameter trivial,
      (fixTypeParameter_class cx q a d).1.trans hq.1,
      (repairs_fixPart a cx.intrinsics.anyType q (.typeParameter a)).trans hq.2⟩) ⟨rfl, rfl⟩
  obtain ⟨y, hy, hb, _⟩ := h.frames.declaration? d x hx
  have hasked := Chain.asked_of_ask hchain hy
  rw [hb.symbol] at hasked
  refine ⟨fun a ha hnone => ?_, hrepairs, hasked⟩
  obtain ⟨w, hw, horigin, hparent⟩ := hp a (hinit.symm.trans ha) hnone
  obtain ⟨w', hw', hb', _⟩ := hchain.frames.declaration? a w hw
  exact ⟨w', hw', hb'.origin ▸ horigin, hb'.parent.trans hparent⟩

theorem Alike.repairClass (h : Alike cx.intrinsics F A p q) (hd : A d) {x : Declaration}
    {c₀ c c' : ClassInfo} (hx : F.declaration? d = some x) (hc₀ : x.content = .ofClass c₀)
    (hslots : ∀ a ∈ x.content.slots, A a) (hc : c.typeParameters = c₀.typeParameters)
    (hc' : c'.typeParameters = c₀.typeParameters) (hp : p.Housed F d) (hq : q.Housed F d) :
    SameVisit cx.intrinsics F A p q (p.repairClass cx d x.symbol c)
      (q.repairClass cx d x.symbol c') := by
  have hclass : (F.class? d).isSome := by simp [Forest.class?, hx, Declaration.class?, hc₀]
  rw [hc₀] at hslots
  have hbound : SameAnswer cx.intrinsics F A (p.fixTypeParameters cx c₀.typeParameters)
      (q.fixTypeParameters cx c₀.typeParameters) :=
    Alike.each (fun a ha s s' hs => hs.fixTypeParameter hE hA (hslots a ha)) h
  obtain ⟨hp₁, hrepairs, hasked⟩ := h.left.fixTypeParameters cx hp hx c₀.typeParameters
  obtain ⟨hq₁, hrepairs', hasked'⟩ := h.right.fixTypeParameters cx hq hx c₀.typeParameters
  unfold Pass.repairClass
  rw [hc, hc']
  have hknown := hbound.known
  have hverdict := hbound.verdict
  replace hbound := hbound.alike
  generalize p.fixTypeParameters cx c₀.typeParameters = r at *
  generalize q.fixTypeParameters cx c₀.typeParameters = r' at *
  have hsymbol : ∀ s ∈ [x.symbol], F.Knows s := fun s hs => by
    rw [List.mem_singleton.mp hs]
    exact hE.symbols d x hx
  have hask := hbound.ask hE hA hsymbol
  have hproblem : classProblem d x.symbol (r.2.ask [x.symbol]).1 r.1
      = classProblem d x.symbol (r'.2.ask [x.symbol]).1 r'.1 := by rw [hask.verdict, hverdict]
  dsimp only
  rw [← hproblem]
  cases hprob : classProblem d x.symbol (r.2.ask [x.symbol]).1 r.1 with
  | none =>
    refine ⟨hask.alike.implementMembers hE hA, [], ?_, ?_⟩
    · rw [Pass.implementMembers, charges_implementWithin, List.append_nil, Pass.charges, ask_repairs, hrepairs]
      rfl
    · rw [Pass.implementMembers, charges_implementWithin, List.append_nil, Pass.charges, ask_repairs, hrepairs']
      rfl
  | some problem =>
    have hwithin := within_classProblem hE hx hask.known hknown hprob
    refine ⟨(hask.alike.breakClass hE hA hd hclass hp₁ hq₁ hasked hasked').implementMembers hE hA,
      [charge cx F problem (F.culprit d)], ?_, ?_⟩
    · rw [Pass.implementMembers, charges_implementWithin,
        hask.alike.left.charges_breakClass hE hclass hp₁ hwithin, Pass.charges, ask_repairs, hrepairs]
      rfl
    · rw [Pass.implementMembers, charges_implementWithin,
        hask.alike.right.charges_breakClass hE hclass hq₁ hwithin, Pass.charges, ask_repairs, hrepairs']
      rfl

/-- **The same visit makes the same charges, and the same edits**, whatever was repaired before. -/
theorem Alike.visit {x : Declaration} (hx : F.declaration? d = some x) (hedited : x.content.isEdited)
    (h : Alike cx.intrinsics F (F.Edits (.declaration d)) p q) (hp : p.Housed F d)
    (hq : q.Housed F d) : SameVisit cx.intrinsics F (F.Edits (.declaration d)) p q
      (enterDeclaration cx p (.declaration d)).1 (enterDeclaration cx q (.declaration d)).1 := by
  have hedits : ∀ a, a = d ∨ a ∈ x.content.slots → F.Edits (.declaration d) a := fun a ha =>
    ⟨d, x, rfl, hx, .inl (Content.mem_edited.mpr ⟨hedited, ha⟩)⟩
  have hd := hedits d (.inl rfl)
  have hslots : ∀ a ∈ x.content.slots, F.Edits (.declaration d) a := fun a ha => hedits a (.inr ha)
  obtain ⟨y, hy, hb, _⟩ := h.left.frames.declaration? d x hx
  obtain ⟨z, hz, hb', _⟩ := h.right.frames.declaration? d x hx
  have hcontent := hb.content
  have hcontent' := hb'.content
  unfold enterDeclaration
  simp only [hy, hz]
  generalize hyc : y.content = c at hcontent
  generalize hzc : z.content = c' at hcontent'
  generalize hxc : x.content = c₀ at hcontent hcontent' hedited
  cases hcontent with
  | ofClass =>
    cases hcontent' with
    | ofClass =>
      rw [hb.symbol, hb'.symbol]
      exact h.repairClass hE hA hd hx hxc hslots rfl rfl hp hq
  | ofFunction =>
    cases hcontent' with
    | ofFunction =>
      exact h.repairFunction hE hA hd hx hxc hslots ⟨hb.origin, hb.symbol⟩ ⟨hb'.origin, hb'.symbol⟩
  | ofProperty =>
    cases hcontent' with
    | ofProperty => exact .of_repairs (h.filterOverridden hE hA) rfl rfl
  | ofField =>
    cases hcontent' with
    | ofField =>
      exact .of_repairs (h.fixValue hE hA hd).alike (repairs_fixValue cx p d) (repairs_fixValue cx q d)
  | ofVariable =>
    cases hcontent' with
    | ofVariable =>
      exact .of_repairs (h.fixValue hE hA hd).alike (repairs_fixValue cx p d) (repairs_fixValue cx q d)
  | _ => cases hedited

end

end Pass

end LinkRepair
