import LinkRepair.Proofs.Repair.Charges
import LinkRepair.Proofs.Repair.Implementations

/-!
# The classes above a class

A class that is visited loses the super types that mention something broken, and a class that others
inherit from by the super types that are left is fully linked itself, so it has nothing to lose.  From
then on the classes above a class are those that are above it in the forest at the start, where
broken super types do not count.

* `Forest.linkedBases`, `Forest.Above`   the classes above a class by linked super types;
* `Whole.linked`           a fully linked class has no other super types;
* `Acyclic.not_above`, `above_induction`   no class is above itself, and induction from above;
* `Pass.Trimmed`           a class that has no broken super types left;
* `Plain.mem_ancestors`    its ancestors are the classes above it;
* `Plain.memberFunctions`  a class has the functions that it had, and added ones after them.
-/

namespace LinkRepair

theorem TypeRef.mem_mentioned_of_head? {t : TypeRef} {s : SymbolId} (h : t.head? = some s) :
    s ∈ t.mentioned := by
  cases t with
  | named c as n =>
    obtain rfl := Option.some.inj h
    rw [TypeRef.mentioned]
    exact List.mem_cons_self
  | marker => cases h

namespace Forest

/-- the classes directly above a class, by super types that mention nothing broken -/
def linkedBases (F : Forest) (d : DeclarationId) : List DeclarationId :=
  match F.class? d with
  | none => []
  | some c => ((c.superTypes.filter F.isLinked).filterMap TypeRef.head?).filterMap F.classOf?

/-- the second class is above the first one, on any number of levels -/
def Above (F : Forest) : DeclarationId → DeclarationId → Prop :=
  Relation.TransGen fun a b => b ∈ F.linkedBases a

/-- a declaration whose symbol is fully linked -/
def Whole (F : Forest) (d : DeclarationId) : Prop :=
  ∃ x, F.declaration? d = some x ∧ F.plainVerdict x.symbol = none

section
variable {F : Forest} {a b d : DeclarationId} {c : ClassInfo} {x : Declaration} {s : SymbolId}
  {t : TypeRef}

theorem isLinked_iff : F.isLinked t = true ↔ ∀ s ∈ t.mentioned, F.plainVerdict s = none := by
  rw [isLinked, Option.isNone_iff_eq_none, List.findSome?_eq_none_iff]

theorem mem_linkedBases : b ∈ F.linkedBases a ↔ ∃ c t s, F.class? a = some c ∧ t ∈ c.superTypes
    ∧ F.isLinked t = true ∧ t.head? = some s ∧ F.classOf? s = some b := by
  unfold linkedBases
  cases F.class? a with
  | none => simp
  | some c =>
    simp only [List.mem_filterMap, List.mem_filter]
    constructor
    · rintro ⟨s, ⟨t, ⟨ht, hlinked⟩, hs⟩, hb⟩
      exact ⟨c, t, s, rfl, ht, hlinked, hs, hb⟩
    · rintro ⟨_, t, s, hc, ht, hlinked, hs, hb⟩
      obtain rfl := Option.some.inj hc
      exact ⟨s, ⟨t, ⟨ht, hlinked⟩, hs⟩, hb⟩

theorem isSome_of_mem_linkedBases (h : b ∈ F.linkedBases a) : (F.declaration? b).isSome := by
  obtain ⟨c, t, s, hc, ht, _, hs, hb⟩ := mem_linkedBases.mp h
  exact isSome_of_mem_bases (mem_bases.mpr ⟨c, t, s, hc, ht, hs, hb⟩)

theorem Above.isSome (h : F.Above a b) : (F.declaration? b).isSome := by
  obtain ⟨_, _, hb⟩ := Relation.TransGen.tail'_iff.mp h
  exact isSome_of_mem_linkedBases hb

variable (hE : F.Entire)
include hE

/-- a linked super type leads to a class that is fully linked -/
theorem whole_of_mem_linkedBases (h : b ∈ F.linkedBases a) : F.Whole b := by
  obtain ⟨_, t, s, _, _, hlinked, hs, hb⟩ := mem_linkedBases.mp h
  obtain ⟨y, hy, rfl⟩ := hE.owners s b (classOf?_eq_some.mp hb).2.1
  exact ⟨y, hy, isLinked_iff.mp hlinked _ (TypeRef.mem_mentioned_of_head? hs)⟩

theorem Above.whole (h : F.Above a b) : F.Whole b := by
  obtain ⟨_, _, hb⟩ := Relation.TransGen.tail'_iff.mp h
  exact whole_of_mem_linkedBases hE hb

/-- what is above a class, the class depends on -/
theorem dependsOn_of_mem_linkedBases (h : b ∈ F.linkedBases a) {y : Declaration}
    (hx : F.declaration? a = some x) (hy : F.declaration? b = some y) :
    F.DependsOn x.symbol y.symbol := by
  obtain ⟨c, t, s, hc, ht, _, hs, hb⟩ := mem_linkedBases.mp h
  obtain ⟨y', hy', rfl⟩ := hE.owners s b (classOf?_eq_some.mp hb).2.1
  obtain rfl := Option.some.inj (hy.symm.trans hy')
  obtain ⟨x', hx', hxc⟩ := class?_eq hc
  obtain rfl := Option.some.inj (hx.symm.trans hx')
  exact .superType (definition?_of_owner? (hE.owned a x hx) hx) hxc ht
    (TypeRef.mem_mentioned_of_head? hs)

theorem Above.dependsOn (h : F.Above a b) {y : Declaration} (hx : F.declaration? a = some x)
    (hy : F.declaration? b = some y) : Relation.TransGen F.DependsOn x.symbol y.symbol := by
  induction h generalizing y with
  | single h => exact .single (dependsOn_of_mem_linkedBases hE h hx hy)
  | @tail b' b h hb ih =>
    obtain ⟨z, hz⟩ := Option.isSome_iff_exists.mp (Above.isSome h)
    exact (ih hz).tail (dependsOn_of_mem_linkedBases hE hb hz hy)

variable (hA : F.Acyclic)
include hA

/-- **No class is above itself.** -/
theorem Acyclic.not_above : ¬ F.Above a a := by
  intro h
  obtain ⟨x, hx⟩ := Option.isSome_iff_exists.mp h.isSome
  exact hA _ (h.dependsOn hE hx hx)

theorem Acyclic.grounded (hx : F.declaration? a = some x) : F.Grounded x.symbol :=
  (hA.founds hE.needsKnown).grounded _ (hE.symbols a x hx)

/-- all that a fully linked class rests on is fully linked -/
theorem standing_of_whole (hx : F.declaration? a = some x) (hc : x.class? = some c)
    (h : F.plainVerdict x.symbol = none) : F.standing x.symbol = .rests (F.classNeeds a c) true
      ∧ ∀ s ∈ F.classNeeds a c, F.plainVerdict s = none := by
  rw [(Acyclic.grounded hE hA hx).plainVerdict_eq, judge_eq] at h
  have hstanding := standing_of_owner? (hE.owned a x hx) hx
  rw [hstanding] at h ⊢
  unfold standingOf at h ⊢
  split at h
  · cases h
  · rename_i horigin
    rw [if_neg horigin]
    rw [class?_eq_some.mp hc] at h ⊢
    dsimp only at h ⊢
    split at h
    · cases h
    · rename_i henclosing
      rw [if_neg henclosing]
      refine ⟨rfl, ?_⟩
      rwa [Standing.verdict, Option.map_eq_none_iff, List.findSome?_eq_none_iff] at h

/-- **A fully linked class has linked super types only.** -/
theorem Whole.linked (h : F.Whole a) (hc : F.class? a = some c) (ht : t ∈ c.superTypes) :
    F.isLinked t = true := by
  obtain ⟨x, hx, hwhole⟩ := h
  obtain ⟨x', hx', hxc⟩ := class?_eq hc
  obtain rfl := Option.some.inj (hx.symm.trans hx')
  refine isLinked_iff.mpr fun s hs => (standing_of_whole hE hA hx hxc hwhole).2 s ?_
  exact List.mem_append_left _ (List.mem_flatMap.mpr ⟨t, ht, hs⟩)

/-- the recursion is less deep above a fully linked class -/
theorem shallow_of_above (ha : F.Whole a) (h : F.Above a b) {levels : Nat} {y : Declaration}
    (hx : F.declaration? a = some x) (hy : F.declaration? b = some y)
    (hs : F.Shallow (levels + 1) x.symbol) : F.Shallow levels y.symbol := by
  have hneeds : ∀ {a b x y}, F.Whole a → b ∈ F.linkedBases a → F.declaration? a = some x →
      F.declaration? b = some y → F.Needs x.symbol y.symbol := by
    intro a b x y ha h hx hy
    obtain ⟨c, t, s, hc, ht, _, hs, hb⟩ := mem_linkedBases.mp h
    obtain ⟨y', hy', rfl⟩ := hE.owners s b (classOf?_eq_some.mp hb).2.1
    obtain rfl := Option.some.inj (hy.symm.trans hy')
    obtain ⟨x', hx', hwhole⟩ := ha
    obtain rfl := Option.some.inj (hx.symm.trans hx')
    obtain ⟨x', hx', hxc⟩ := class?_eq hc
    obtain rfl := Option.some.inj (hx.symm.trans hx')
    unfold Needs
    rw [(standing_of_whole hE hA hx hxc hwhole).1]
    exact List.mem_append_left _ (List.mem_flatMap.mpr ⟨t, ht, TypeRef.mem_mentioned_of_head? hs⟩)
  induction h generalizing y with
  | single h => exact hs _ (hneeds ha h hx hy)
  | @tail b' b h hb ih =>
    obtain ⟨z, hz⟩ := Option.isSome_iff_exists.mp (Above.isSome h)
    have hz' := ih hz
    cases levels with
    | zero => exact hz'.elim
    | succ levels => exact Shallow.succ (hz' _ (hneeds (Above.whole hE h) hb hz hy))

/-- **Induction from above**: what holds of a fully linked class when it holds of the classes above
it, holds of all of them. -/
theorem above_induction {P : DeclarationId → Prop}
    (h : ∀ a, F.Whole a → (∀ b, F.Above a b → P b) → P a) (ha : F.Whole a) : P a := by
  have hlevels : ∀ (levels : Nat) {a x}, F.Whole a → F.declaration? a = some x →
      F.Shallow levels x.symbol → P a := by
    intro levels
    induction levels with
    | zero => exact fun _ _ hs => hs.elim
    | succ levels ih =>
      intro a x ha hx hs
      refine h a ha fun b hb => ?_
      obtain ⟨y, hy⟩ := Option.isSome_iff_exists.mp hb.isSome
      exact ih (hb.whole hE) hy (shallow_of_above hE hA ha hb hx hy hs)
  obtain ⟨x, hx, _⟩ := id ha
  obtain ⟨levels, hs⟩ := Acyclic.grounded hE hA hx
  exact hlevels levels ha hx hs

end

end Forest

namespace Pass

/-- a class that has linked super types only -/
def Trimmed (F : Forest) (p : Pass) (d : DeclarationId) : Prop :=
  ∀ c, p.forest.class? d = some c → ∀ t ∈ c.superTypes, F.isLinked t = true

section
variable {I : Intrinsics} {F : Forest} {p q : Pass} {a b d m : DeclarationId} {s : SymbolId}

/-! ## super types under repair -/

/-- what is trimmed stays so -/
theorem Trimmed.frames {T K : DeclarationId → Prop} (h : p.Trimmed F d) (hf : Frames I T K p q)
    (hd : (p.forest.declaration? d).isSome) : q.Trimmed F d := fun c hc t ht => by
  obtain ⟨c₀, _, hc₀, hsub, _⟩ := hf.class?_before hd hc
  exact h c₀ hc₀ t (hsub.subset ht)

variable (h : p.Plain I F) (hE : F.Entire)
include h hE

theorem Plain.classOf?_eq (hs : F.Knows s) : p.forest.classOf? s = F.classOf? s := by
  unfold Forest.classOf?
  rw [h.isMissing_eq hE hs, h.frames.owner?_eq hs]
  split
  · rfl
  · show (F.owner? s).filter _ = _
    cases ho : F.owner? s with
    | none => rfl
    | some b =>
      obtain ⟨x, hx, _⟩ := hE.owners s b ho
      rw [Option.filter_some, Option.filter_some,
        h.frames.any_isClass (d := b) (Option.isSome_iff_exists.mpr ⟨x, hx⟩)]
      rfl

/-- a linked super type is never dropped -/
theorem Plain.mem_superTypes {c c₀ : ClassInfo} (hc₀ : F.class? d = some c₀)
    (hc : p.forest.class? d = some c) {t : TypeRef} (ht : t ∈ c₀.superTypes)
    (hlinked : F.isLinked t = true) : t ∈ c.superTypes := by
  obtain ⟨x, hx, hxc⟩ := Forest.class?_eq hc₀
  obtain ⟨c', _, hc', _, hdrop, _⟩ := h.frames.class?_before (d := d)
    (Option.isSome_iff_exists.mpr ⟨x, hx⟩) hc
  obtain rfl := Option.some.inj (hc₀.symm.trans hc')
  refine (hdrop t ht).resolve_right ?_
  rintro ⟨k, s, hs, hk⟩
  have hknown : F.Knows s := hE.typed d x hx t (by
    rw [Forest.class?_eq_some.mp hxc]
    exact ht) s (t.mentioned_subset_blamed hs)
  have hbroken := h.memo s _ hknown hk
  rw [Forest.isLinked_iff.mp hlinked s hs] at hbroken
  cases hbroken

theorem Plain.knows_head {c : ClassInfo} (hd : (F.declaration? d).isSome)
    (hc : p.forest.class? d = some c) {t : TypeRef} (ht : t ∈ c.superTypes) (hs : t.head? = some s) :
    F.Knows s := by
  obtain ⟨x, hx⟩ := Option.isSome_iff_exists.mp hd
  obtain ⟨y, hy, hyc⟩ := Forest.class?_eq hc
  refine h.knows_types hE hx hy t ?_ s
    (t.mentioned_subset_blamed (TypeRef.mem_mentioned_of_head? hs))
  rw [Forest.class?_eq_some.mp hyc]
  exact ht

/-- **A trimmed class has the bases that its linked super types lead to.** -/
theorem Plain.mem_bases (hd : (F.declaration? d).isSome) (htrim : p.Trimmed F d) :
    b ∈ p.forest.bases d ↔ b ∈ F.linkedBases d := by
  rw [Forest.mem_bases, Forest.mem_linkedBases]
  constructor
  · rintro ⟨c, t, s, hc, ht, hs, hb⟩
    obtain ⟨c₀, _, hc₀, hsub, _⟩ := h.frames.class?_before (d := d) hd hc
    exact ⟨c₀, t, s, hc₀, hsub.subset ht, htrim c hc t ht, hs,
      (h.classOf?_eq hE (h.knows_head hE hd hc ht hs)).symm.trans hb⟩
  · rintro ⟨c₀, t, s, hc₀, ht, hlinked, hs, hb⟩
    obtain ⟨c, hc⟩ := Option.isSome_iff_exists.mp
      (h.frames.isSome_class? (d := d) (Option.isSome_iff_exists.mpr ⟨c₀, hc₀⟩))
    have ht' := h.mem_superTypes hE hc₀ hc ht hlinked
    exact ⟨c, t, s, hc, ht', hs, (h.classOf?_eq hE (h.knows_head hE hd hc ht' hs)).trans hb⟩

variable (hA : F.Acyclic)
include hA

/-- a fully linked class is trimmed at every stage -/
theorem Plain.trimmed (ha : F.Whole a) : p.Trimmed F a := by
  have hstart : (start F).Trimmed F a := fun c hc t ht => ha.linked hE hA hc ht
  obtain ⟨x, hx, _⟩ := ha
  exact hstart.frames h.frames (Option.isSome_iff_exists.mpr ⟨x, hx⟩)

/-- **The ancestors of a trimmed class are the classes above it.** -/
theorem Plain.mem_ancestors (hd : (F.declaration? d).isSome) (htrim : p.Trimmed F d) :
    b ∈ p.forest.ancestors d ↔ F.Above d b := by
  have htrimmed : ∀ {a}, a = d ∨ F.Above d a → (F.declaration? a).isSome ∧ p.Trimmed F a := by
    rintro a (rfl | ha)
    · exact ⟨hd, htrim⟩
    · exact ⟨ha.isSome, h.trimmed hE hA (ha.whole hE)⟩
  rw [Forest.mem_ancestors]
  constructor
  · rintro ⟨hb, hne⟩
    refine Or.resolve_left ?_ hne
    clear hne
    induction hb with
    | refl => exact .inl rfl
    | @tail b' b _ hb ih =>
      obtain ⟨hstored, htrim'⟩ := htrimmed ih
      have hb := (h.mem_bases hE hstored htrim').mp hb
      rcases ih with rfl | ih
      · exact .inr (.single hb)
      · exact .inr (ih.tail hb)
  · intro hb
    refine ⟨?_, ?_⟩
    · clear htrimmed
      induction hb with
      | single hb => exact .single ((h.mem_bases hE hd htrim).mpr hb)
      | tail hb' hb ih =>
        exact ih.tail ((h.mem_bases hE (Forest.Above.isSome hb')
          (h.trimmed hE hA (Forest.Above.whole hE hb'))).mpr hb)
    · rintro rfl
      exact Forest.Acyclic.not_above hE hA hb

end

/-! ## members under repair -/

section
variable {I : Intrinsics} {F : Forest} {p q : Pass} {a b d m : DeclarationId} {s : SymbolId}
  {T K : DeclarationId → Prop}

/-- no edit changes what can be told of a function without its type, its body and what it overrides -/
theorem Frames.map_function? {β : Type} (h : Frames I T K p q) (hm : (p.forest.declaration? m).isSome)
    (k : FunctionInfo → β)
    (hk : ∀ f type overridden body,
      k { f with returnType := type, overridden := overridden, body := body } = k f) :
    (q.forest.function? m).map k = (p.forest.function? m).map k := by
  obtain ⟨x, y, hx, hy, hb⟩ := h.exists_becomes hm
  have hcontent := hb.content
  simp only [Forest.function?, hx, hy, Option.bind_some, Declaration.function?]
  generalize x.content = content at hcontent
  generalize y.content = content' at hcontent
  cases hcontent with
  | ofFunction => exact congrArg some (hk _ _ _ _)
  | _ => rfl

theorem Frames.isPlainFunction_eq (h : Frames I T K p q)
    (hknown : ∀ x, p.forest.declaration? m = some x → p.forest.Knows x.symbol)
    (hm : (p.forest.declaration? m).isSome) :
    q.forest.isPlainFunction m = p.forest.isPlainFunction m := by
  obtain ⟨x, y, hx, hy, hb⟩ := h.exists_becomes hm
  obtain ⟨z, hz⟩ := Option.isSome_iff_exists.mp (hknown x hx)
  unfold Forest.isPlainFunction
  rw [hx, hy]
  dsimp only
  rw [hb.symbol, h.symbol? _ z hz, hz]
  have hcontent := hb.content
  unfold Declaration.function?
  generalize x.content = content at hcontent
  generalize y.content = content' at hcontent
  cases hcontent <;> rfl

theorem Frames.isAbstract_eq (h : Frames I T K p q) (hm : (p.forest.declaration? m).isSome) :
    q.forest.isAbstract m = p.forest.isAbstract m := by
  obtain ⟨x, y, hx, hy, hb⟩ := h.exists_becomes hm
  unfold Forest.isAbstract
  rw [hx, hy]
  have hcontent := hb.content
  unfold Declaration.modality?
  simp only [Option.bind_some]
  generalize x.content = content at hcontent
  generalize y.content = content' at hcontent
  cases hcontent <;> rfl

theorem Frames.callKey_eq (h : Frames I T K p q) (hm : (p.forest.declaration? m).isSome) :
    q.forest.callKey m = p.forest.callKey m := by
  obtain ⟨x, y, hx, hy, hb⟩ := h.exists_becomes hm
  have hname : q.forest.nameOf m = p.forest.nameOf m := by
    simp only [Forest.nameOf, hx, hy]
    exact hb.name
  have hkey : ∀ G : Forest, G.callKey m
      = (G.nameOf m, ((G.function? m).map fun f => f.valueParameters.length).getD 0) := fun G => by
    rw [Forest.callKey]
    cases G.function? m <;> rfl
  rw [hkey, hkey, hname, h.map_function? hm _ fun _ _ _ _ => rfl]

theorem Frames.overriddenBy_sublist (h : Frames I T K p q) (hm : (p.forest.declaration? m).isSome) :
    (q.forest.overriddenBy m).Sublist (p.forest.overriddenBy m) := by
  obtain ⟨x, y, hx, hy, hb⟩ := h.exists_becomes hm
  unfold Forest.overriddenBy
  rw [hx, hy]
  exact hb.overridden

theorem Frames.isConcrete_eq (h : Frames I T K p q) (hd : (p.forest.declaration? d).isSome) :
    q.forest.isConcrete d = p.forest.isConcrete d := by
  obtain ⟨x, y, hx, hy, hb⟩ := h.exists_becomes hd
  unfold Forest.isConcrete
  rw [hx, hy]
  dsimp only
  rw [hb.origin]
  have hcontent := hb.content
  unfold Declaration.class?
  generalize x.content = content at hcontent
  generalize y.content = content' at hcontent
  cases hcontent <;> rfl

/-- what is no class stays none -/
theorem Frames.class?_none (h : Frames I T K p q) (hd : (p.forest.declaration? d).isSome)
    (hc : p.forest.class? d = none) : q.forest.class? d = none := by
  obtain ⟨x, y, hx, hy, hb⟩ := h.exists_becomes hd
  rw [Forest.class?, hx, Option.bind_some] at hc
  rw [Forest.class?, hy, Option.bind_some]
  have := hb.isClass
  rw [Declaration.isClass, Declaration.isClass, hc] at this
  exact Option.isNone_iff_eq_none.mp (Option.isSome_eq_false_iff.mp this)

/-- a class with new members has those of them that are functions after the functions that it had -/
theorem Frames.memberFunctions (h : Frames I T K p q) (hC : p.forest.MembersKnown)
    (hknown : ∀ m x, p.forest.declaration? m = some x → p.forest.Knows x.symbol) {c c' : ClassInfo}
    {added : List DeclarationId} (hc : p.forest.class? d = some c) (hc' : q.forest.class? d = some c')
    (hmembers : c'.members = c.members ++ added) :
    q.forest.memberFunctions d = p.forest.memberFunctions d ++ added.filter q.forest.isPlainFunction := by
  unfold Forest.memberFunctions
  rw [hc, hc']
  dsimp only
  rw [hmembers, List.filter_append]
  congr 1
  obtain ⟨x, hx, hxc⟩ := Forest.class?_eq hc
  exact List.filter_congr fun m hm => h.isPlainFunction_eq (hknown m) (hC d x c hx hxc m hm)

/-- **A class has the functions that it had, and added ones after them.** -/
theorem Plain.memberFunctions (h : p.Plain I F) (hE : F.Entire) (hd : (F.declaration? d).isSome) :
    ∃ added, p.forest.memberFunctions d = F.memberFunctions d ++ added
      ∧ ∀ b ∈ added, F.declaration? b = none := by
  cases hc : F.class? d with
  | none =>
    have hnone := h.frames.class?_none (d := d) hd hc
    unfold Forest.memberFunctions
    rw [hc, hnone]
    exact ⟨[], rfl, fun _ hb => absurd hb List.not_mem_nil⟩
  | some c₀ =>
    obtain ⟨c, hc'⟩ := Option.isSome_iff_exists.mp
      (h.frames.isSome_class? (d := d) (Option.isSome_iff_exists.mpr ⟨c₀, hc⟩))
    obtain ⟨c₁, added, hc₁, _, _, hmembers, hnew⟩ := h.frames.class?_before (d := d) hd hc'
    exact ⟨_, h.frames.memberFunctions (Forest.ChildrenKnown.membersKnown hE.children) hE.symbols hc₁ hc'
      hmembers, fun b hb => hnew b (List.mem_filter.mp hb).1⟩

end

end Pass

end LinkRepair
