import LinkRepair.Proofs.Repair.Ancestry

/-!
# What a class has to be given

Which members a class is given depends on what the classes above it were given before.  It can be told
from the forest at the start all the same: a class wants the abstract functions above it that nothing
implements there, and is due those of them for which no class above wants one of the same name and
number of parameters.  What is taken out of a list of overridden symbols may not lead to an abstract
function, or else the answer depends on when it is taken out.

* `Forest.Lossless`       nothing that can not be overridden leads to an abstract function;
* `Forest.Due`            an abstract function that a class has to be given;
* `exists_due`            what a class wants, it or a class above it is given;
* `Pass.Spares`           overridden symbols stay, except for those that can not be overridden;
* `Pass.Endowed`          which functions classes have been given members for;
* `Plain.unimplemented_perm`   a class is given what is due once the classes above it have been.
-/

namespace LinkRepair

namespace Forest

/-- the function `m` is to be implemented, and none of the functions at hand implements it -/
def lacks (F : Forest) (present : List DeclarationId) (m : DeclarationId) : Bool :=
  F.isAbstract m && (F.declaration? m).any (fun x =>
    x.origin == .defined && !(F.overrideClosure present).contains x.symbol)
    && !((present.filter fun n => !F.isAbstract n).map F.callKey).contains (F.callKey m)

theorem unimplemented_eq (F : Forest) (d : DeclarationId) (ancestors : List DeclarationId) :
    F.unimplemented d ancestors = (ancestors.flatMap F.memberFunctions).filter
      (F.lacks ((d :: ancestors).flatMap F.memberFunctions)) := rfl

theorem lacks_iff {F : Forest} {present : List DeclarationId} {m : DeclarationId} :
    F.lacks present m = true ↔ F.isAbstract m = true
      ∧ (∃ x, F.declaration? m = some x ∧ x.origin = .defined ∧ ∀ n ∈ present, ¬ F.Overrides n x.symbol)
      ∧ ∀ n ∈ present, F.isAbstract n = false → F.callKey n ≠ F.callKey m := by
  have hclosure : ∀ s, s ∉ F.overrideClosure present ↔ ∀ n ∈ present, ¬ F.Overrides n s := fun s =>
    ⟨fun h n hn ho => h (mem_overrideClosure hn ho), fun h hs =>
      have ⟨n, hn, ho⟩ := overrides_of_mem_overrideClosure hs
      h n hn ho⟩
  unfold lacks
  simp only [Bool.and_eq_true, Option.any_eq_true, beq_iff_eq, Bool.not_eq_true',
    List.contains_eq_mem, decide_eq_false_iff_not, hclosure, List.mem_map, List.mem_filter, not_exists,
    not_and, and_assoc]

theorem nodup_declarationIds (F : Forest) : F.declarationIds.Nodup :=
  List.nodup_range.map fun _ _ h => congrArg DeclarationId.index h

/-- a function that classes below have to implement -/
def IsDemand (F : Forest) (m : DeclarationId) (x : Declaration) : Prop :=
  F.declaration? m = some x ∧ x.origin = .defined ∧ F.isPlainFunction m ∧ F.isAbstract m = true

/-- a symbol in a list of overridden symbols that can not be overridden leads to no function that has
to be implemented -/
def Lossless (F : Forest) : Prop :=
  ∀ d, ∀ s ∈ F.overriddenBy d, F.isOverridable s = false → ∀ m x, F.IsDemand m x →
    ¬ Relation.ReflTransGen F.OverridesNext s x.symbol

/-- a function of the class or of one above it overrides the symbol -/
def Covered (F : Forest) (d : DeclarationId) (s : SymbolId) : Prop :=
  ∃ b n, (b = d ∨ F.Above d b) ∧ n ∈ F.memberFunctions b ∧ F.Overrides n s

/-- an abstract function of a class above that is not implemented in the class or above it -/
structure Wants (F : Forest) (d m : DeclarationId) : Prop where
  concrete : F.isConcrete d = true
  inherited : ∃ b, F.Above d b ∧ m ∈ F.memberFunctions b
  demand : ∃ x, F.IsDemand m x ∧ ¬ F.Covered d x.symbol
  unmatched : ∀ b n, (b = d ∨ F.Above d b) → n ∈ F.memberFunctions b → F.isAbstract n = false →
    F.callKey n ≠ F.callKey m

/-- a function that a class wants, when no class above wants one of the same name and number of
parameters -/
def Due (F : Forest) (d m : DeclarationId) : Prop :=
  F.Wants d m ∧ ∀ a n, F.Above d a → F.Wants a n → F.callKey n ≠ F.callKey m

open Classical in
/-- the functions that are due, in the order of the classes above -/
noncomputable def dues (F : Forest) (d : DeclarationId) : List DeclarationId :=
  ((F.declarationIds.filter fun b => F.Above d b).flatMap F.memberFunctions).filter fun m => F.Due d m

section
variable {F : Forest} {a d m n : DeclarationId}

/-- a concrete class and those above it are there -/
theorem isSome_of_above {b : DeclarationId} (hd : F.isConcrete d = true) (hb : b = d ∨ F.Above d b) :
    (F.declaration? b).isSome := by
  rcases hb with rfl | hb
  · exact isSome_of_isConcrete hd
  · exact hb.isSome

theorem mem_dues : m ∈ F.dues d ↔ F.Due d m := by
  classical
  unfold dues
  rw [List.mem_filter, decide_eq_true_iff]
  refine and_iff_right_of_imp fun h => ?_
  obtain ⟨b, hb, hm⟩ := h.1.inherited
  exact List.mem_flatMap.mpr ⟨b, List.mem_filter.mpr ⟨mem_declarationIds.mpr hb.isSome,
    decide_eq_true hb⟩, hm⟩

/-- nothing is due to a class that is not concrete -/
theorem dues_eq_nil (h : F.isConcrete d = false) : F.dues d = [] :=
  List.eq_nil_iff_forall_not_mem.mpr fun m hm => by
    rw [(mem_dues.mp hm).1.concrete] at h
    cases h

/-- **What a class wants is due to it or to a class above it**, up to the name and the number of
parameters. -/
theorem exists_due (hE : F.Entire) (hA : F.Acyclic) (ha : F.Whole a) (h : F.Wants a n) :
    ∃ b m, (b = a ∨ F.Above a b) ∧ F.Due b m ∧ F.callKey m = F.callKey n := by
  refine above_induction (P := fun a => ∀ n, F.Wants a n →
    ∃ b m, (b = a ∨ F.Above a b) ∧ F.Due b m ∧ F.callKey m = F.callKey n) hE hA (fun a _ ih n h => ?_)
    ha n h
  by_cases hdue : F.Due a n
  · exact ⟨a, n, .inl rfl, hdue, rfl⟩
  · have hother : ∃ b m, F.Above a b ∧ F.Wants b m ∧ F.callKey m = F.callKey n := by
      by_contra hnone
      exact hdue ⟨h, fun b m hb hm hkey => hnone ⟨b, m, hb, hm, hkey⟩⟩
    obtain ⟨b, m, hb, hm, hkey⟩ := hother
    obtain ⟨b', m', hb', hdue', hkey'⟩ := ih b hb m hm
    refine ⟨b', m', .inr ?_, hdue', hkey'.trans hkey⟩
    rcases hb' with rfl | hb'
    · exact hb
    · exact hb.trans hb'

end

end Forest

/-! ## overridden symbols -/

theorem Declaration.Turns.overridden {I : Intrinsics} {m : Memo} {F G : Forest} {x y : Declaration}
    (h : x.Turns I m F G y) : ∀ s ∈ x.overridden, F.isOverridable s = true → s ∈ y.overridden := by
  intro s hs hoverridable
  obtain ⟨symbol, name, origin, parent, span, content⟩ := x
  cases h with
  | amended h =>
    cases h with
    | overridden _ hl =>
      have := hl s hs hoverridable
      cases content with
      | ofFunction | ofProperty => exact this
      | _ => exact absurd hs List.not_mem_nil
    | _ => cases content <;> exact hs
  | raised | extended => cases content <;> exact hs

namespace Pass

/-- what can be overridden stays in the lists of overridden symbols -/
def Spares (F : Forest) (p : Pass) : Prop :=
  ∀ d, ∀ s ∈ F.overriddenBy d, F.isOverridable s = true → s ∈ p.forest.overriddenBy d

section
variable {cx : Context} {c : Scope} {F : Forest} {p q : Pass} {d m : DeclarationId} {s t : SymbolId}

theorem spares_start (F : Forest) : (start F).Spares F := fun _ _ hs _ => hs

theorem Spares.step (h : p.Spares F) (hp : p.Plain cx.intrinsics F) (hE : F.Entire)
    (hs : Step cx c p q) : q.Spares F := by
  intro d s hmem hoverridable
  have hmem' := h d s hmem hoverridable
  unfold Forest.overriddenBy at hmem hmem' ⊢
  cases hx : F.declaration? d with
  | none =>
    rw [hx] at hmem
    exact absurd hmem List.not_mem_nil
  | some x =>
    rw [hx] at hmem
    obtain ⟨y, hy, _⟩ := hp.frames.declaration? d x hx
    obtain ⟨z, hz, hturns⟩ := hs.declaration? hy
    rw [hy] at hmem'
    rw [hz]
    refine hturns.overridden s hmem' ?_
    rwa [hp.isOverridable_eq hE (hE.overridden d x hx s hmem)]

theorem Spares.chain (h : p.Spares F) (hp : p.Plain cx.intrinsics F) (hE : F.Entire)
    (hA : F.Acyclic) (hc : Chain cx c p q) : q.Spares F := by
  induction hc with
  | refl => exact h
  | tail hc hs ih =>
    exact ih.step (hp.chain (hA.founds hE.needsKnown) hE.parents hE.owners hc) hE hs

/-! ## what is overridden at a stage -/

section
variable {I : Intrinsics} (h : p.Plain I F) (hE : F.Entire)
include h hE

/-- what overrides a symbol at a stage did so at the start -/
theorem Plain.overridesNext (hs : F.Knows s) (hst : p.forest.OverridesNext s t) :
    F.OverridesNext s t ∧ F.Knows t := by
  obtain ⟨d, ho, ht⟩ := hst
  have howner : p.forest.owner? s = F.owner? s := h.frames.owner?_eq hs
  rw [howner] at ho
  obtain ⟨x, hx, _⟩ := hE.owners s d ho
  have ht' : t ∈ F.overriddenBy d :=
    (h.frames.overriddenBy_sublist (m := d) (Option.isSome_iff_exists.mpr ⟨x, hx⟩)).subset ht
  refine ⟨⟨d, ho, ht'⟩, hE.overridden d x hx t ?_⟩
  unfold Forest.overriddenBy at ht'
  rwa [hx] at ht'

theorem Plain.overridesChain (hs : F.Knows s) (hst : Relation.ReflTransGen p.forest.OverridesNext s t) :
    Relation.ReflTransGen F.OverridesNext s t ∧ F.Knows t := by
  induction hst with
  | refl => exact ⟨.refl, hs⟩
  | tail _ hnext ih =>
    obtain ⟨hnext', ht⟩ := h.overridesNext hE ih.2 hnext
    exact ⟨ih.1.tail hnext', ht⟩

theorem Plain.overrides (hm : (F.declaration? m).isSome) (ho : p.forest.Overrides m t) :
    F.Overrides m t := by
  obtain ⟨s, hs, hst⟩ := ho
  obtain ⟨x, hx⟩ := Option.isSome_iff_exists.mp hm
  have hs' : s ∈ F.overriddenBy m := (h.frames.overriddenBy_sublist (m := m) hm).subset hs
  refine ⟨s, hs', (h.overridesChain hE (hE.overridden m x hx s ?_) hst).1⟩
  unfold Forest.overriddenBy at hs'
  rwa [hx] at hs'

/-- **A function that has to be implemented stays overridden**, as nothing on the way to it is taken
out. -/
theorem Plain.overrides_of_lossless (hs : p.Spares F) (hL : F.Lossless) {n : DeclarationId}
    {x : Declaration} (hn : F.IsDemand n x) (ho : F.Overrides m x.symbol) :
    p.forest.Overrides m x.symbol := by
  have hkept : ∀ {d s}, s ∈ F.overriddenBy d → Relation.ReflTransGen F.OverridesNext s x.symbol →
      s ∈ p.forest.overriddenBy d := fun {d s} hmem hst => by
    refine hs d s hmem ?_
    by_contra hnot
    exact hL d s hmem (Bool.eq_false_iff.mpr hnot) n x hn hst
  have hknown : ∀ {d s}, s ∈ F.overriddenBy d → F.Knows s := fun {d s} hmem => by
    unfold Forest.overriddenBy at hmem
    split at hmem
    · exact absurd hmem List.not_mem_nil
    · rename_i y hy
      exact hE.overridden d y hy s hmem
  obtain ⟨s, hmem, hst⟩ := ho
  refine ⟨s, hkept hmem hst, ?_⟩
  have hs := hknown hmem
  clear hmem
  induction hst using Relation.ReflTransGen.head_induction_on with
  | refl => exact .refl
  | @head s s' hnext hst ih =>
    obtain ⟨d, ho, hmem⟩ := hnext
    refine (ih (hknown hmem)).head ⟨d, ?_, hkept hmem hst⟩
    exact (h.frames.owner?_eq hs).trans ho

end

end

/-! ## classes that were given what is due -/

/-- an added function with the name and the number of parameters of the function `m`, which is all that
it may override -/
structure StandsIn (F : Forest) (p : Pass) (b m : DeclarationId) : Prop where
  origin : ∃ y, p.forest.declaration? b = some y ∧ y.origin = .unimplemented
  concrete : p.forest.isAbstract b = false
  key : p.forest.callKey b = F.callKey m
  overridden : ∀ s ∈ p.forest.overriddenBy b, ∃ x, F.declaration? m = some x ∧ s = x.symbol

/-- a class `a` has been given a member for a function `m` just if `D a m` -/
structure Endowed (F : Forest) (D : DeclarationId → DeclarationId → Prop) (p : Pass) : Prop where
  added : ∀ a b, (F.declaration? a).isSome → b ∈ p.forest.memberFunctions a →
    F.declaration? b = none → ∃ m, D a m ∧ p.StandsIn F b m
  given : ∀ a m, D a m → ∃ b ∈ p.forest.memberFunctions a, p.StandsIn F b m

section
variable {I : Intrinsics} {F : Forest} {D : DeclarationId → DeclarationId → Prop} {p q : Pass}
  {a b d m : DeclarationId} {T K : DeclarationId → Prop}

theorem StandsIn.frames (h : p.StandsIn F b m) (hf : Frames I T K p q) : q.StandsIn F b m := by
  obtain ⟨y, hy, horigin⟩ := h.origin
  have hb : (p.forest.declaration? b).isSome := Option.isSome_iff_exists.mpr ⟨y, hy⟩
  obtain ⟨z, hz, hbecomes, _⟩ := hf.declaration? b y hy
  exact ⟨⟨z, hz, hbecomes.origin.trans horigin⟩, (hf.isAbstract_eq hb).trans h.concrete,
    (hf.callKey_eq hb).trans h.key, fun s hs => h.overridden s ((hf.overriddenBy_sublist hb).subset hs)⟩

/-- what was given stays, when classes are given nothing more -/
theorem Endowed.frames (h : p.Endowed F D) (hf : Frames I T K p q)
    (hD : ∀ a m, D a m → F.Due a m) (hmembers : ∀ a, (F.declaration? a).isSome →
      q.forest.memberFunctions a = p.forest.memberFunctions a) : q.Endowed F D where
  added := fun a b ha hb hnew => by
    rw [hmembers a ha] at hb
    obtain ⟨m, hm, hstands⟩ := h.added a b ha hb hnew
    exact ⟨m, hm, hstands.frames hf⟩
  given := fun a m hm => by
    obtain ⟨b, hb, hstands⟩ := h.given a m hm
    rw [hmembers a (Forest.isSome_of_isConcrete (hD a m hm).1.concrete)]
    exact ⟨b, hb, hstands.frames hf⟩

section
variable (h : p.Plain I F) (hE : F.Entire) (hg : p.Endowed F D) (hD : ∀ a m, D a m → F.Due a m)
  (hd : ∀ m, ¬ D d m)
include h hE hg hD hd

/-- what a class or one above it has at a stage was there, or stands in for a function that is due to a
class above -/
theorem Plain.memberFunctions_cases {b n : DeclarationId} (hstored : (F.declaration? b).isSome)
    (hb : b = d ∨ F.Above d b) (hn : n ∈ p.forest.memberFunctions b) :
    n ∈ F.memberFunctions b ∨ ∃ m, F.Above d b ∧ F.Due b m ∧ p.StandsIn F n m := by
  obtain ⟨added, hmembers, hnew⟩ := h.memberFunctions hE hstored
  rw [hmembers] at hn
  refine (List.mem_append.mp hn).imp_right fun hadded => ?_
  obtain ⟨m, hgiven, hstands⟩ := hg.added b n hstored (hmembers ▸ hn) (hnew n hadded)
  exact ⟨m, hb.resolve_left fun e => hd m (e ▸ hgiven), hD b m hgiven, hstands⟩

/-- nothing of the class or above it overrides a function that is due -/
theorem Plain.not_overrides {x : Declaration} (hm : F.Due d m) (hx : F.declaration? m = some x)
    {b n : DeclarationId} (hb : b = d ∨ F.Above d b) (hn : n ∈ p.forest.memberFunctions b) :
    ¬ p.forest.Overrides n x.symbol := by
  intro ho
  obtain ⟨x', hdemand, hcovered⟩ := hm.1.demand
  obtain rfl := Option.some.inj (hx.symm.trans hdemand.1)
  rcases h.memberFunctions_cases hE hg hD hd (Forest.isSome_of_above hm.1.concrete hb) hb hn with
    hn' | ⟨m', hbd, hdue, hstands⟩
  · exact hcovered ⟨b, n, hb, hn', h.overrides hE (Forest.isSome_of_mem_memberFunctions hn') ho⟩
  · -- an added function overrides what it stands in for, and what that one overrides
    obtain ⟨s, hsmem, hchain⟩ := ho
    obtain ⟨z, hz, rfl⟩ := hstands.overridden s hsmem
    rcases Relation.ReflTransGen.cases_head hchain with hsame | ⟨s', hnext, hrest⟩
    · have howner := hE.owned m' z hz
      rw [hsame, hE.owned m x hx] at howner
      obtain rfl := Option.some.inj howner
      exact hm.2 b m hbd hdue.1 rfl
    · have hknown := hE.symbols m' z hz
      obtain ⟨hnext', hknown'⟩ := h.overridesNext hE hknown hnext
      obtain ⟨d', ho', hmem'⟩ := hnext'
      rw [hE.owned m' z hz] at ho'
      obtain rfl := Option.some.inj ho'
      obtain ⟨b', hb', hm'⟩ := hdue.1.inherited
      exact hcovered ⟨b', m', .inr (hbd.trans hb'), hm', s', hmem', (h.overridesChain hE hknown' hrest).1⟩

/-- nothing of the class or above it has the name and the number of parameters of a function that is
due, unless it is abstract -/
theorem Plain.callKey_ne (hm : F.Due d m) {b n : DeclarationId} (hb : b = d ∨ F.Above d b)
    (hn : n ∈ p.forest.memberFunctions b) (hconcrete : p.forest.isAbstract n = false) :
    p.forest.callKey n ≠ F.callKey m := by
  intro hkey
  rcases h.memberFunctions_cases hE hg hD hd (Forest.isSome_of_above hm.1.concrete hb) hb hn with
    hn' | ⟨m', hbd, hdue, hstands⟩
  · have hy := Forest.isSome_of_mem_memberFunctions hn'
    exact hm.1.unmatched b n hb hn' ((h.frames.isAbstract_eq (m := n) hy).symm.trans hconcrete)
      ((h.frames.callKey_eq (m := n) hy).symm.trans hkey)
  · exact hm.2 b m' hbd hdue.1 (hstands.key.symm.trans hkey)

variable (hA : F.Acyclic) (hs : p.Spares F) (hL : F.Lossless)
  (habove : ∀ a m, F.Above d a → F.Due a m → D a m)
  {ancestors : List DeclarationId} (hmem : ∀ b, b ∈ ancestors ↔ F.Above d b)
  (hconcrete : F.isConcrete d = true)
include hA hs hL habove hmem hconcrete

/-- **A function above a class is lacking at a stage just if it is due**, once the classes above have
been given what is due to them. -/
theorem Plain.lacks_iff {b : DeclarationId} (hb : F.Above d b) (hm : m ∈ F.memberFunctions b) :
    p.forest.lacks ((d :: ancestors).flatMap p.forest.memberFunctions) m = true ↔ F.Due d m := by
  have hpresent : ∀ {n}, n ∈ (d :: ancestors).flatMap p.forest.memberFunctions
      ↔ ∃ b, (b = d ∨ F.Above d b) ∧ n ∈ p.forest.memberFunctions b := by
    intro n
    rw [List.mem_flatMap]
    refine exists_congr fun b => and_congr_left fun _ => ?_
    rw [List.mem_cons, hmem]
  have hold : ∀ {b n}, b = d ∨ F.Above d b → n ∈ F.memberFunctions b →
      n ∈ p.forest.memberFunctions b := by
    intro b n hb hn
    obtain ⟨added, hmembers, _⟩ := h.memberFunctions hE (Forest.isSome_of_above hconcrete hb)
    rw [hmembers]
    exact List.mem_append_left _ hn
  obtain ⟨_, _, _, hplain⟩ := Forest.exists_of_mem_memberFunctions hm
  obtain ⟨x, _, hx, _⟩ := Forest.exists_of_isPlainFunction hplain
  have hsome : (F.declaration? m).isSome := Option.isSome_iff_exists.mpr ⟨x, hx⟩
  obtain ⟨y, hy, hbecomes, _⟩ := h.frames.declaration? m x hx
  have hkey : p.forest.callKey m = F.callKey m := h.frames.callKey_eq (m := m) hsome
  rw [Forest.lacks_iff, h.frames.isAbstract_eq (m := m) hsome, hkey]
  constructor
  · rintro ⟨habstract, ⟨y', hy', horigin, hover⟩, hkeys⟩
    obtain rfl := Option.some.inj (hy.symm.trans hy')
    rw [hbecomes.symbol] at hover
    have hdemand : F.IsDemand m x := ⟨hx, hbecomes.origin ▸ horigin, hplain, habstract⟩
    refine ⟨⟨hconcrete, ⟨b, hb, hm⟩, ⟨x, hdemand, ?_⟩, fun b' n hb' hn hcon => ?_⟩, fun a n ha hn hsame => ?_⟩
    · rintro ⟨b', n, hb', hn, ho⟩
      exact hover n (hpresent.mpr ⟨b', hb', hold hb' hn⟩)
        (h.overrides_of_lossless hE hs hL hdemand ho)
    · have hz := Forest.isSome_of_mem_memberFunctions hn
      have := hkeys n (hpresent.mpr ⟨b', hb', hold hb' hn⟩)
        ((h.frames.isAbstract_eq (m := n) hz).trans hcon)
      rwa [h.frames.callKey_eq (m := n) hz] at this
    · obtain ⟨a', n', ha', hdue, hsame'⟩ := Forest.exists_due hE hA (ha.whole hE) hn
      have ha'd : F.Above d a' := by
        rcases ha' with rfl | ha'
        · exact ha
        · exact ha.trans ha'
      obtain ⟨c, hc, hstands⟩ := hg.given a' n' (habove a' n' ha'd hdue)
      exact hkeys c (hpresent.mpr ⟨a', .inr ha'd, hc⟩) hstands.concrete
        (hstands.key.trans (hsame'.trans hsame))
  · intro hdue
    obtain ⟨x', hdemand, _⟩ := hdue.1.demand
    obtain rfl := Option.some.inj (hx.symm.trans hdemand.1)
    refine ⟨hdemand.2.2.2, ⟨y, hy, hbecomes.origin.trans hdemand.2.1, fun n hn => ?_⟩, fun n hn hcon => ?_⟩
    · rw [hbecomes.symbol]
      obtain ⟨b', hb', hn'⟩ := hpresent.mp hn
      exact h.not_overrides hE hg hD hd hdue hx hb' hn'
    · obtain ⟨b', hb', hn'⟩ := hpresent.mp hn
      exact h.callKey_ne hE hg hD hd hdue hb' hn' hcon

/-- **A class is given what is due to it.** -/
theorem Plain.unimplemented_perm (hnodup : ancestors.Nodup) :
    (p.forest.unimplemented d ancestors).Perm (F.dues d) := by
  classical
  have hlisted : p.forest.unimplemented d ancestors
      = (ancestors.flatMap F.memberFunctions).filter fun m => F.Due d m := by
    rw [Forest.unimplemented_eq, List.filter_flatMap, List.filter_flatMap]
    refine List.flatMap_congr fun b hb => ?_
    have hb := (hmem b).mp hb
    obtain ⟨added, hmembers, hnew⟩ := h.memberFunctions hE hb.isSome
    rw [hmembers, List.filter_append]
    have hadded : added.filter (p.forest.lacks ((d :: ancestors).flatMap p.forest.memberFunctions))
        = [] := by
      refine List.filter_eq_nil_iff.mpr fun n hn hlacks => ?_
      obtain ⟨_, ⟨y, hy, horigin, _⟩, _⟩ := Forest.lacks_iff.mp hlacks
      obtain ⟨_, _, hstands⟩ := hg.added b n hb.isSome
        (hmembers ▸ List.mem_append_right _ hn) (hnew n hn)
      obtain ⟨z, hz, horigin'⟩ := hstands.origin
      obtain rfl := Option.some.inj (hy.symm.trans hz)
      rw [horigin] at horigin'
      cases horigin'
    rw [hadded, List.append_nil]
    refine List.filter_congr fun m hm => ?_
    rw [Bool.eq_iff_iff, decide_eq_true_iff]
    exact h.lacks_iff hE hg hD hd hA hs hL habove hmem hconcrete hb hm
  rw [hlisted]
  unfold Forest.dues
  refine List.Perm.filter _ (List.Perm.flatMap_right _ ?_)
  refine (List.perm_ext_iff_of_nodup hnodup (F.nodup_declarationIds.filter _)).mpr fun b => ?_
  rw [hmem, List.mem_filter, decide_eq_true_iff, Forest.mem_declarationIds]
  exact ⟨fun hb => ⟨hb.isSome, hb⟩, fun hb => hb.2⟩

end

end

end Pass

end LinkRepair
