import LinkRepair.Proofs.Repair.Coverage
import LinkRepair.Unlinked

/-!
# What a visit leaves linked

A visit of a declaration drops or marks whatever it mentions that is missing, and so it does for the
parameters and type parameters in its slots.  No later step brings a missing symbol back.

* `Forest.LinkedTypes`, `Forest.Linked`   nothing missing is mentioned;
* `Linked.frames`                         it stays so;
* `each_establishes`                      what is done for one thing after another is done for all;
* `linked_visit_function`, `linked_visit_class`   what the visits of these leave behind;
* `linked_of_visits`                      whatever is visited is linked when the sweep is over.
-/

namespace LinkRepair

namespace Forest

/-- no missing symbol among some symbols -/
def NoneMissing (F : Forest) (l : List SymbolId) : Prop := ∀ s ∈ l, F.isMissing s = false

/-- no missing symbol is mentioned in some types -/
def LinkedTypes (F : Forest) (types : List TypeRef) : Prop :=
  F.NoneMissing (types.flatMap TypeRef.mentioned)

/-- no missing symbol is mentioned in the content of a declaration -/
def Linked (F : Forest) (d : DeclarationId) : Prop :=
  ∀ x, F.declaration? d = some x → F.NoneMissing x.content.mentioned

section
variable {F : Forest} {m : Memo} {s : SymbolId}

/-- what is missing is tainted -/
theorem tainted_of_isMissing (h : F.isMissing s = true) : F.Tainted m s :=
  Spoiled.tainted (.inl (broken_iff.mpr ⟨_, standing_of_isMissing h⟩))

theorem isMissing_of_not_tainted (h : ¬ F.Tainted m s) : F.isMissing s = false := by
  cases hs : F.isMissing s with
  | false => rfl
  | true => exact absurd (tainted_of_isMissing hs) h

theorem NoneMissing.subset {l l' : List SymbolId} (h : F.NoneMissing l) (hl : l' ⊆ l) :
    F.NoneMissing l' := fun s hs => h s (hl hs)

theorem noneMissing_append {l l' : List SymbolId} :
    F.NoneMissing (l ++ l') ↔ F.NoneMissing l ∧ F.NoneMissing l' := by
  unfold NoneMissing
  simp only [List.mem_append, or_imp, forall_and]

theorem noneMissing_flatMap {α : Type} {l : List α} {f : α → List SymbolId} :
    F.NoneMissing (l.flatMap f) ↔ ∀ a ∈ l, F.NoneMissing (f a) :=
  List.forall_mem_flatMap

/-- what a class mentions is not tainted when the class is not -/
theorem not_tainted_superTypes {d : DeclarationId} {x : Declaration} {c : ClassInfo}
    (hx : F.declaration? d = some x) (ho : F.owner? x.symbol = some d) (hc : x.class? = some c)
    (h : ¬ F.Tainted m x.symbol) : ∀ s ∈ c.superTypes.flatMap TypeRef.mentioned, ¬ F.Tainted m s := by
  intro s hs ht
  have hbroken : ¬ F.Broken x.symbol := fun hb => h (Spoiled.tainted (.inl hb))
  refine h (ht.step ?_)
  rw [standing_class_of_not_broken hbroken ho hx hc]
  exact mem_classNeeds.mpr (.inl (List.mem_flatMap.mp hs))

end

end Forest

/-- an edit mentions nothing else -/
theorem Content.Becomes.mentioned {I : Intrinsics} {F : Forest} {m : Memo} {s : SymbolId}
    {c c' : Content} (h : c.Becomes I F m s c') : c'.mentioned ⊆ c.mentioned := by
  have hmarker : ∀ t u, u ∉ (I.markerType t).mentioned := fun t u => by
    rw [Intrinsics.markerType, TypeRef.mentioned_marker]
    exact List.not_mem_nil
  have hbroken : ∀ (p : ParameterInfo) t,
      (Content.ofParameter (p.broken (I.markerType t))).mentioned = [] := fun p t => by
    have := p.mentioned_broken I t
    rwa [ParameterInfo.types, List.flatMap_cons] at this
  cases h with
  | @ofClass c superTypes added ht _ _ =>
    intro u hu
    obtain ⟨t, htm, hu⟩ := List.mem_flatMap.mp hu
    exact List.mem_flatMap.mpr ⟨t, ht.subset htm, hu⟩
  | @ofFunction f type overridden body ht ho _ =>
    rcases ht with rfl | ⟨k, _, rfl⟩
    · exact List.append_subset.mpr ⟨List.subset_append_left _ _,
        List.Subset.trans ho.subset (List.subset_append_right _ _)⟩
    · intro u hu
      rcases List.mem_append.mp hu with hu | hu
      · exact absurd hu (hmarker k.symbol u)
      · exact List.mem_append_right _ (ho.subset hu)
  | ofProperty ho => exact ho.subset
  | ofField h =>
    rcases h with rfl | ⟨k, _, rfl⟩
    · exact List.Subset.refl _
    · exact fun u hu => absurd hu (hmarker k.symbol u)
  | ofVariable h =>
    rcases h with rfl | ⟨k, _, rfl⟩
    · exact List.Subset.refl _
    · exact fun u hu => absurd hu (hmarker k.symbol u)
  | @ofParameter p _ h =>
    rcases h with rfl | ⟨k, _, rfl⟩
    · exact List.Subset.refl _
    · exact fun u hu => absurd (hbroken p k.symbol ▸ hu) List.not_mem_nil
  | ofTypeParameter h =>
    rcases h with rfl | ⟨k, _, rfl⟩
    · exact List.Subset.refl _
    · intro u hu
      obtain ⟨t, ht, hu⟩ := List.mem_flatMap.mp hu
      rw [List.mem_singleton.mp ht] at hu
      exact absurd hu (hmarker k.symbol u)
  | _ => exact List.Subset.refl _

/-- a field or a variable mentions what its type does -/
theorem Declaration.Becomes.mentioned_value {I : Intrinsics} {F : Forest} {m : Memo}
    {x y : Declaration} (h : x.Becomes I F m y) (hv : x.valueType?.isSome) (hp : x.parameter? = none) :
    y.content.mentioned = y.valueType?.toList.flatMap TypeRef.mentioned := by
  have hc := h.content
  unfold Declaration.valueType? at hv ⊢
  unfold Declaration.parameter? at hp
  generalize x.content = c at hc hv hp
  generalize y.content = c' at hc ⊢
  cases hc with
  | ofField | ofVariable => simp [Content.mentioned]
  | ofParameter => cases hp
  | _ => cases hv

namespace Pass

section
variable {cx : Context} {I : Intrinsics} {T K : DeclarationId → Prop} {c : Scope} {S : Prop}
  {F : Forest} {roots : List Root} {p q : Pass} {d a : DeclarationId} {x : Declaration}

theorem Frames.noneMissing (h : Frames I T K p q) {l : List SymbolId}
    (hl : p.forest.NoneMissing l) : q.forest.NoneMissing l :=
  fun s hs => h.isMissing_eq_false (hl s hs)

/-- **What is linked stays linked.** -/
theorem Frames.linked (h : Frames I T K p q) (hd : (p.forest.declaration? d).isSome)
    (hl : p.forest.Linked d) : q.forest.Linked d := by
  intro y hy
  obtain ⟨x, hx⟩ := Option.isSome_iff_exists.mp hd
  have hb := h.becomes hx hy
  exact h.noneMissing ((hl x hx).subset hb.content.mentioned)

theorem Clean.linkedTypes {types : List TypeRef} (h : p.Clean types) : p.forest.LinkedTypes types :=
  fun s hs => by
    obtain ⟨t, ht, hs⟩ := List.mem_flatMap.mp hs
    exact Forest.isMissing_of_not_tainted (h t ht s hs)

/-- what is done for one thing after another, and is kept, is done for all -/
theorem each_establishes {α : Type} {f : Pass → α → Verdict × Pass} {P : α → Pass → Prop}
    {Q : Pass → Prop} : ∀ {l : List α} {p : Pass},
      (∀ q, ∀ a ∈ l, Q q → Q (f q a).2 ∧ P a (f q a).2
        ∧ ∀ b, P b q → P b (f q a).2) → Q p →
      Q (each f p l).2 ∧ (∀ a ∈ l, P a (each f p l).2) ∧ ∀ b, P b p → P b (each f p l).2 := by
  intro l
  induction l with
  | nil => exact fun _ hp => ⟨hp, fun a ha => absurd ha List.not_mem_nil, fun _ h => h⟩
  | cons a l ih =>
    intro p h hp
    obtain ⟨hQ, hP, hkeep⟩ := h p a List.mem_cons_self hp
    obtain ⟨hQ', hP', hkeep'⟩ := ih (fun q b hb => h q b (List.mem_cons_of_mem _ hb)) hQ
    refine ⟨hQ', fun b hb => ?_, fun b hb => hkeep' b (hkeep b hb)⟩
    rcases List.mem_cons.mp hb with rfl | hb
    · exact hkeep' b hP
    · exact hP' b hb

/-! ## parts of a signature -/

theorem linked_of_parameter (ha : p.forest.HasParameter a)
    (h : p.forest.LinkedTypes (p.forest.typesOf d (.parameter a))) : p.forest.Linked a := by
  obtain ⟨x, info, hx, hc⟩ := ha
  intro y hy
  obtain rfl := Option.some.inj (hx.symm.trans hy)
  rw [hc]
  simpa [Forest.LinkedTypes, Forest.typesOf, Forest.parameter?, hx, Declaration.parameter?, hc,
    ParameterInfo.types, Content.mentioned] using h

theorem linked_of_typeParameter (ha : p.forest.HasTypeParameter a)
    (h : p.forest.LinkedTypes (p.forest.typesOf d (.typeParameter a))) : p.forest.Linked a := by
  obtain ⟨x, info, hx, hc⟩ := ha
  intro y hy
  obtain rfl := Option.some.inj (hx.symm.trans hy)
  rw [hc]
  simpa [Forest.LinkedTypes, Forest.typesOf, Forest.bounds_eq, hx, Declaration.typeParameter?, hc,
    Content.mentioned] using h

theorem linked_of_returnType {f : FunctionInfo} (hx : p.forest.declaration? d = some x)
    (hc : x.content = .ofFunction f) (h : p.forest.LinkedTypes (p.forest.typesOf d .returnType))
    (ho : p.forest.NoneMissing f.overridden) : p.forest.Linked d := by
  intro y hy
  obtain rfl := Option.some.inj (hx.symm.trans hy)
  rw [hc]
  refine Forest.noneMissing_append.mpr ⟨?_, ho⟩
  simpa [Forest.LinkedTypes, Forest.typesOf, Forest.function?, hx, Declaration.function?, hc] using h

/-! ## signatures -/

variable (cx) in
/-- one part of a signature is linked when it was fixed, and the others stay so -/
theorem linked_fixPart {type : TypeRef} {part : SignaturePart} (hp : p.Sane)
    (h : Ready d type p part) : Chain cx Scope.everything p (fixPart cx d type p part).2
      ∧ (fixPart cx d type p part).2.forest.LinkedTypes
        ((fixPart cx d type p part).2.forest.typesOf d part)
      ∧ ∀ other, p.forest.LinkedTypes (p.forest.typesOf d other) →
        (fixPart cx d type p part).2.forest.LinkedTypes
          ((fixPart cx d type p part).2.forest.typesOf d other) := by
  obtain ⟨hchain, hsettled⟩ := settled_fixPart hp h
  refine ⟨hchain, hsettled.clean.linkedTypes, fun other hother => ?_⟩
  by_cases e : part = other
  · exact e ▸ hsettled.clean.linkedTypes
  · rw [typesOf_fixPart e]
    exact hchain.frames.noneMissing hother

/-- what fixing a part establishes, and fixing the others keeps, holds of all parts of a repaired
signature, however often a parameter is listed -/
theorem fixSignature_establishes {P : SignaturePart → Pass → Prop} {f : FunctionInfo}
    (hd : p.forest.function? d = some f)
    (h : ∀ q part, Chain cx Scope.everything p q → part ∈ f.signature →
      (part = .returnType → q.forest.function? d = some f) →
      Chain cx Scope.everything q (fixPart cx d f.returnType q part).2
        ∧ P part (fixPart cx d f.returnType q part).2
        ∧ ∀ other, P other q → P other (fixPart cx d f.returnType q part).2) :
    ∀ part ∈ f.signature, P part (p.fixSignature cx d).2 := by
  have hfix : p.fixSignature cx d = each (fixPart cx d f.returnType) p f.signature := by
    simp only [fixSignature, hd]
  have hstep := fun q part (hq : Chain cx Scope.everything p q) hpart hf =>
    (h q part hq hpart hf).imp_left hq.trans
  rw [hfix]
  rw [FunctionInfo.signature_eq] at hstep ⊢
  rw [each_append, each_cons]
  -- the return type is the one that the function has when its turn comes
  obtain ⟨⟨h₁, hf₁⟩, hl₁, _⟩ := each_establishes (f := fixPart cx d f.returnType) (P := P)
    (Q := fun q => Chain cx Scope.everything p q ∧ q.forest.function? d = some f)
    (l := (f.extensionReceiver.toList ++ f.valueParameters).map SignaturePart.parameter) (p := p)
    (fun q part hpart hq => by
      obtain ⟨hchain, hdone⟩ := hstep q part hq.1 (List.mem_append_left _ hpart) fun _ => hq.2
      obtain ⟨a, _, rfl⟩ := List.mem_map.mp hpart
      exact ⟨⟨hchain, ((chain_fixParameter (c := Scope.everything) cx q trivial).2 d).trans hq.2⟩,
        hdone⟩) ⟨.refl, hd⟩
  obtain ⟨h₂, hl₂, hkeep₂⟩ := hstep _ .returnType h₁ (List.mem_append_right _ List.mem_cons_self)
    fun _ => hf₁
  obtain ⟨_, hl₃, hkeep₃⟩ := each_establishes (f := fixPart cx d f.returnType) (P := P)
    (Q := Chain cx Scope.everything p)
    (l := f.typeParameters.map SignaturePart.typeParameter
      ++ f.dispatchReceiver.toList.map SignaturePart.parameter)
    (fun q part hpart hq => hstep q part hq
      (List.mem_append_right _ (List.mem_cons_of_mem _ hpart)) fun e => by
        rw [e] at hpart
        simp at hpart) h₂
  intro part hpart
  rcases List.mem_append.mp hpart with hpart | hpart
  · exact hkeep₃ part (hkeep₂ part (hl₁ part hpart))
  · rcases List.mem_cons.mp hpart with rfl | hpart
    · exact hkeep₃ _ hl₂
    · exact hl₃ part hpart

variable (cx) in
/-- **A repaired signature mentions nothing that is missing.** -/
theorem linked_fixSignature (hp : p.Sane) {f : FunctionInfo} (hd : p.forest.function? d = some f)
    (ht : ∀ a, .typeParameter a ∈ f.signature →
      p.forest.HasTypeParameter a ∧ p.forest.symbolOwner? a = some a) :
    ∀ part ∈ f.signature, (p.fixSignature cx d).2.forest.LinkedTypes
      ((p.fixSignature cx d).2.forest.typesOf d part) := by
  refine fixSignature_establishes
    (P := fun part q => q.forest.LinkedTypes (q.forest.typesOf d part)) hd fun q part hq hpart hf => ?_
  have hready : Ready d f.returnType q part := by
    cases part with
    | parameter => trivial
    | returnType => simp [Ready, Forest.typesOf, hf rfl]
    | typeParameter a =>
      exact ⟨hq.frames.keeps.typeParameter a (ht a hpart).1, hq.frames.symbolOwner? (ht a hpart).2⟩
  exact linked_fixPart cx (hq.sane hp).1 hready

/-- a slot of a function is a part of its signature -/
theorem mem_signature_of_mem_slots {f : FunctionInfo} (ha : a ∈ (Content.ofFunction f).slots) :
    a ∈ f.typeParameters ∧ .typeParameter a ∈ f.signature
      ∨ a ∈ f.parameters ∧ .parameter a ∈ f.signature := by
  rcases List.mem_append.mp ha with ha | ha
  · exact .inl ⟨ha, FunctionInfo.typeParameter_mem_signature.mpr ha⟩
  · exact .inr ⟨ha, FunctionInfo.parameter_mem_signature.mpr ha⟩

/-- nothing that is missing is still overridden -/
theorem declaration?_filterOverridden (hx : p.forest.declaration? d = some x) :
    (p.filterOverridden d).forest.declaration? d
        = some (x.withOverridden (x.overridden.filter p.forest.isOverridable))
      ∧ p.forest.NoneMissing (x.overridden.filter p.forest.isOverridable) := by
  constructor
  · show (p.forest.updateDeclaration d _).declaration? d = _
    rw [Forest.declaration?_updateDeclaration, if_pos rfl, hx]
    rfl
  · intro s hs
    have hover := List.of_mem_filter hs
    unfold Forest.isOverridable at hover
    simpa using (Bool.and_eq_true_iff.mp hover).1

variable (cx) in
/-- once its signature is repaired, a function may be given a new body -/
theorem chain_fixSignature_enterDeclaration {f : FunctionInfo}
    (hx : p.forest.declaration? d = some x) (hc : x.content = .ofFunction f) :
    Chain cx Scope.everything ((p.filterOverridden d).fixSignature cx d).2
      (enterDeclaration cx p (.declaration d)).1 := by
  have hfix : Chain cx Scope.everything p ((p.filterOverridden d).fixSignature cx d).2 :=
    .trans (chain_filterOverridden trivial) (chain_fixSignature fun _ _ _ _ => trivial)
  rw [enterDeclaration_function cx hx hc]
  split
  · exact .refl
  · exact .single (.raise _ trivial (hfix.frames.hasRoutine
      ⟨x, hx, by simp [Declaration.isRoutine, Declaration.function?, hc]⟩))

variable (cx) in
/-- **The visit of a function leaves it linked**, and so it does for all that is in its slots. -/
theorem linked_visit_function (hp : p.Sane) {f : FunctionInfo}
    (hx : p.forest.declaration? d = some x) (hc : x.content = .ofFunction f)
    (hfits : p.forest.Fits x.content)
    (ho : ∀ a ∈ x.content.slots, p.forest.symbolOwner? a = some a) :
    (enterDeclaration cx p (.declaration d)).1.forest.Linked d
      ∧ ∀ a ∈ x.content.slots, (enterDeclaration cx p (.declaration d)).1.forest.Linked a := by
  rw [hc] at hfits ho ⊢
  have hfilter : Chain cx Scope.everything p (p.filterOverridden d) := chain_filterOverridden trivial
  have hsane := (hfilter.sane hp).1
  obtain ⟨hy, hoverridden⟩ := declaration?_filterOverridden hx
  generalize hyx : x.withOverridden (x.overridden.filter p.forest.isOverridable) = y at hy
  have hxo : x.overridden = f.overridden := by simp [Declaration.overridden, hc]
  rw [hxo] at hyx hoverridden
  have hyc : y.content = .ofFunction { f with overridden := f.overridden.filter p.forest.isOverridable } := by
    rw [← hyx]
    simp [Declaration.withOverridden, hc]
  have hd : (p.filterOverridden d).forest.function? d
      = some { f with overridden := f.overridden.filter p.forest.isOverridable } :=
    Option.bind_eq_some_iff.mpr ⟨y, hy, Forest.function?_eq_some.mpr hyc⟩
  have hlinked := linked_fixSignature cx hsane hd fun a ha => by
    have ha' : a ∈ f.typeParameters := FunctionInfo.typeParameter_mem_signature.mp ha
    exact ⟨hfilter.frames.keeps.typeParameter a (hfits.1 a ha'),
      hfilter.frames.symbolOwner? (ho a (List.mem_append_left _ ha'))⟩
  have hfix : Chain cx Scope.everything (p.filterOverridden d)
      ((p.filterOverridden d).fixSignature cx d).2 := chain_fixSignature fun _ _ _ _ => trivial
  generalize hr : ((p.filterOverridden d).fixSignature cx d).2 = r at hlinked hfix
  have hboth := Chain.frames (hfilter.trans hfix)
  obtain ⟨z, hz, hb, _⟩ := hfix.frames.declaration? d y hy
  have hcontent := hb.content
  rw [hyc] at hcontent
  generalize hzc : z.content = content at hcontent
  -- what the signature and the filter leave is linked, before a problem is raised
  have hown : r.forest.Linked d := by
    cases hcontent with
    | ofFunction _ hover =>
      exact linked_of_returnType hz hzc (hlinked .returnType (by simp [FunctionInfo.signature]))
        ((hboth.noneMissing hoverridden).subset hover.subset)
  have hkeeps := hboth.keeps
  have hslots : ∀ a ∈ (Content.ofFunction f).slots,
      r.forest.Linked a ∧ (r.forest.declaration? a).isSome := by
    intro a ha
    have hthere : (r.forest.declaration? a).isSome := by
      rcases (hfits.keeps hkeeps).of_mem_slots ha with ⟨w, _, hw, _⟩ | ⟨w, _, hw, _⟩ <;>
        exact Option.isSome_iff_exists.mpr ⟨w, hw⟩
    refine ⟨?_, hthere⟩
    rcases mem_signature_of_mem_slots ha with ⟨hslot, hpart⟩ | ⟨hslot, hpart⟩
    · exact linked_of_typeParameter (hkeeps.typeParameter a (hfits.1 a hslot)) (hlinked _ hpart)
    · exact linked_of_parameter (hkeeps.parameter a (hfits.2 a hslot)) (hlinked _ hpart)
  have hlast := chain_fixSignature_enterDeclaration cx hx hc
  rw [hr] at hlast
  exact ⟨hlast.frames.linked (Option.isSome_iff_exists.mpr ⟨z, hz⟩) hown,
    fun a ha => hlast.frames.linked (hslots a ha).2 (hslots a ha).1⟩

/-! ## classes -/

variable (cx) in
/-- type parameters of a class are linked one after the other -/
theorem linked_fixTypeParameters (hp : p.Sane) {l : List DeclarationId}
    (ht : ∀ a ∈ l, p.forest.HasTypeParameter a ∧ p.forest.symbolOwner? a = some a) :
    Chain cx Scope.everything p (p.fixTypeParameters cx l).2
      ∧ ∀ a ∈ l, ((p.fixTypeParameters cx l).2.forest.declaration? a).isSome
        ∧ (p.fixTypeParameters cx l).2.forest.Linked a := by
  obtain ⟨hchain, hlinked, _⟩ := each_establishes (f := fixTypeParameter cx) (l := l) (p := p)
    (P := fun a q => (q.forest.declaration? a).isSome ∧ q.forest.Linked a)
    (Q := Chain cx Scope.everything p) (fun q a ha hq => by
      have hstep : Chain cx Scope.everything q (q.fixTypeParameter cx a).2 :=
        chain_fixTypeParameter trivial
      have hkind := hq.frames.keeps.typeParameter a (ht a ha).1
      have hsettled := settled_fixTypeParameter cx (hq.sane hp).1 a hkind
        (hq.frames.symbolOwner? (ht a ha).2)
      have hkind' := hstep.frames.keeps.typeParameter a hkind
      refine ⟨hq.trans hstep, ⟨?_, linked_of_typeParameter hkind' hsettled.clean.linkedTypes⟩,
        fun b hb => ⟨hstep.frames.isSome hb.1, hstep.frames.linked hb.1 hb.2⟩⟩
      obtain ⟨y, _, hy, _⟩ := hkind'
      exact Option.isSome_iff_exists.mpr ⟨y, hy⟩) .refl
  exact ⟨hchain, hlinked⟩

/-- the types that are kept mention nothing that is missing -/
theorem linkedTypes_linked : ∀ (ts : List TypeRef) {p : Pass}, p.memo.Sound p.forest →
    p.forest.LinkedTypes (p.linkedTypes ts).1 := by
  intro ts
  induction ts with
  | nil => exact fun _ s hs => absurd hs List.not_mem_nil
  | cons t ts ih =>
    intro p hp
    have hrest : p.forest.LinkedTypes ((p.ask t.mentioned).2.linkedTypes ts).1 :=
      ih ((Forest.asked_exploreFirst p.forest t.mentioned p.memo).sound hp)
    show p.forest.LinkedTypes (if (p.ask t.mentioned).1.isNone
      then t :: ((p.ask t.mentioned).2.linkedTypes ts).1 else ((p.ask t.mentioned).2.linkedTypes ts).1)
    split
    · rename_i hnone
      refine Forest.noneMissing_append.mpr ⟨fun s hs => ?_, hrest⟩
      exact Forest.isMissing_of_not_tainted
        ((Forest.exploreFirst_fst_eq_none_iff hp).mp (Option.isNone_iff_eq_none.mp hnone) s hs)
    · exact hrest

theorem linked_dropBrokenSuperTypes (cx : Context) (hp : p.Sane) {info : ClassInfo}
    (hd : p.forest.class? d = some info)
    (hs : ∀ x, p.forest.declaration? d = some x → (p.memo.find? x.symbol).isSome) :
    (p.dropBrokenSuperTypes d).forest.Linked d := by
  have hkept := linkedTypes_linked info.superTypes hp.sound
  obtain ⟨_, hf, _⟩ := linkedTypes_spec info.superTypes p
  have hdrop : Chain cx Scope.everything p (p.dropBrokenSuperTypes d) :=
    chain_dropBrokenSuperTypes trivial hs
  intro y hy
  refine hdrop.frames.noneMissing (hkept.subset ?_)
  obtain ⟨x, hx, hxc⟩ := Forest.class?_eq hd
  have hy' : ((p.linkedTypes info.superTypes).2.forest.updateDeclaration d
      (Declaration.mapClass fun c => { c with superTypes := (p.linkedTypes info.superTypes).1 })
      ).declaration? d = some y := by
    unfold dropBrokenSuperTypes at hy
    rw [hd] at hy
    exact hy
  rw [Forest.declaration?_updateDeclaration, if_pos rfl, hf, hx, Option.map_some] at hy'
  obtain rfl := Option.some.inj hy'
  rw [Declaration.mapClass, Forest.class?_eq_some.mp hxc]
  exact List.Subset.refl _

/-- a class that is not tainted mentions nothing that is missing -/
theorem linked_of_not_tainted {info : ClassInfo} (hd : p.forest.class? d = some info)
    (ho : p.forest.symbolOwner? d = some d)
    (h : ∀ x, p.forest.declaration? d = some x → ¬ p.forest.Tainted p.memo x.symbol) :
    p.forest.Linked d := by
  intro x hx s hs
  obtain ⟨y, hy, hyc⟩ := Forest.class?_eq hd
  obtain rfl := Option.some.inj (hx.symm.trans hy)
  rw [Forest.class?_eq_some.mp hyc] at hs
  have howner : p.forest.owner? x.symbol = some d := by
    simpa [Forest.symbolOwner?, hx] using ho
  exact Forest.isMissing_of_not_tainted (Forest.not_tainted_superTypes hx howner hyc (h x hx) s hs)

variable (cx) in
/-- **The visit of a class leaves it linked**, and so it does for its type parameters. -/
theorem linked_visit_class (hp : p.Sane) {info : ClassInfo}
    (hx : p.forest.declaration? d = some x) (hc : x.content = .ofClass info)
    (hfits : p.forest.Fits x.content) (hd : p.forest.symbolOwner? d = some d)
    (ho : ∀ a ∈ x.content.slots, p.forest.symbolOwner? a = some a) :
    (enterDeclaration cx p (.declaration d)).1.forest.Linked d
      ∧ ∀ a ∈ x.content.slots, (enterDeclaration cx p (.declaration d)).1.forest.Linked a := by
  rw [hc] at hfits ho ⊢
  rw [enterDeclaration_class hx hc]
  obtain ⟨hbounds, hslots⟩ := linked_fixTypeParameters cx hp fun a ha => ⟨hfits a ha, ho a ha⟩
  have hclass : (each (fixTypeParameter cx) p info.typeParameters).2.forest.class? d = some info :=
    (chain_each (c := Scope.everything) (P := fun q => q.forest.class? d = some info)
      (fun q a _ hq => ⟨chain_fixTypeParameter trivial, (fixTypeParameter_class cx q a d).2.trans hq⟩)
      (by simp [Forest.class?, hx, Forest.class?_eq_some.mpr hc])).2
  unfold repairClass
  generalize hb : p.fixTypeParameters cx info.typeParameters = bound at hbounds hslots
  rw [show each (fixTypeParameter cx) p info.typeParameters = bound from hb] at hclass
  have hask : Chain cx Scope.everything bound.2 (bound.2.ask [x.symbol]).2 := chain_ask [x.symbol]
  have hasked : (bound.2.ask [x.symbol]).2.forest.class? d = some info := by rw [ask_forest, hclass]
  have hsane := (hbounds.sane hp).1
  have hasane := (hask.sane hsane).1
  -- what is linked before the members are looked at is linked afterwards
  have hend : ∀ q, Chain cx Scope.everything bound.2 q → q.forest.Linked d →
      (q.implementMembers cx d).forest.Linked d
        ∧ ∀ a ∈ info.typeParameters, (q.implementMembers cx d).forest.Linked a := by
    intro q hq hlinked
    have hmembers : Chain cx Scope.everything q (q.implementMembers cx d) :=
      Chain.widen (c := q.fringe fun _ => True) (chain_implementWithin ⟨d, trivial, .refl⟩)
    have hthere : (q.forest.declaration? d).isSome :=
      (Chain.frames (hbounds.trans hq)).isSome (Option.isSome_iff_exists.mpr ⟨x, hx⟩)
    exact ⟨hmembers.frames.linked hthere hlinked, fun a ha =>
      (Chain.frames (hq.trans hmembers)).linked (hslots a ha).1 (hslots a ha).2⟩
  dsimp only
  cases hproblem : classProblem d x.symbol (bound.2.ask [x.symbol]).1 bound.1 with
  | none =>
    -- a class without a problem is not tainted
    have hnone : (bound.2.ask [x.symbol]).1 = none := by
      cases hv : (bound.2.ask [x.symbol]).1 with
      | none => rfl
      | some k =>
        rw [hv] at hproblem
        cases k <;> cases hproblem
    have hun := untainted_of_ask hsane hnone x.symbol (List.mem_singleton_self _)
    refine hend _ hask (linked_of_not_tainted hasked ?_ fun y hy => ?_)
    · rw [ask_forest]
      exact hbounds.frames.symbolOwner? hd
    · rw [ask_forest] at hy
      have hby := hbounds.frames.becomes hx hy
      rw [hby.symbol]
      exact hun
  | some problem =>
    have hsome : ((bound.2.ask [x.symbol]).2.forest.class? d).isSome :=
      Option.isSome_iff_exists.mpr ⟨info, hasked⟩
    have hraise : Chain cx Scope.everything (bound.2.ask [x.symbol]).2
        (((bound.2.ask [x.symbol]).2.initializerOf d).2.raiseIn cx problem
          ((bound.2.ask [x.symbol]).2.initializerOf d).1) :=
      chain_raiseInitializer trivial hsome (fun _ _ => trivial) fun _ _ => trivial
    obtain ⟨info', hinfo'⟩ := Option.isSome_iff_exists.mp (hraise.frames.isSome_class? hsome)
    have hknown := hraise.asked hsome (hbounds.asked_of_ask hx)
    exact hend _ ((hask.trans hraise).trans (chain_dropBrokenSuperTypes trivial hknown))
      (linked_dropBrokenSuperTypes cx (hraise.sane hasane).1 hinfo' hknown)

/-! ## visits -/

variable (cx) in
/-- **A visit leaves its declaration linked, unless it is a parameter or a type parameter**, and it
leaves those in its slots linked. -/
theorem linked_visit (hp : p.Sane) (hx : p.forest.declaration? d = some x)
    (hfits : p.forest.Fits x.content) (hd : p.forest.symbolOwner? d = some d)
    (ho : ∀ a ∈ x.content.slots, p.forest.symbolOwner? a = some a) :
    (¬ p.forest.HasParameter d → ¬ p.forest.HasTypeParameter d →
        (enterDeclaration cx p (.declaration d)).1.forest.Linked d)
      ∧ ∀ a ∈ x.content.slots, (enterDeclaration cx p (.declaration d)).1.forest.Linked a := by
  have hnothing : x.content.mentioned = [] → (enterDeclaration cx p (.declaration d)).1.forest = p.forest →
      (enterDeclaration cx p (.declaration d)).1.forest.Linked d := by
    intro hnil hf y hy
    rw [hf] at hy
    obtain rfl := Option.some.inj (hx.symm.trans hy)
    rw [hnil]
    exact fun s hs => absurd hs List.not_mem_nil
  have hvalue : x.valueType?.isSome → x.parameter? = none →
      (enterDeclaration cx p (.declaration d)).1.forest.Linked d := by
    intro hv hpar y hy
    have hnone : p.forest.parameter? d = none := by simp [Forest.parameter?, hx, hpar]
    have hlinked := (settled_fixValue cx hp hnone).2.clean.linkedTypes
    rw [← enterDeclaration_value hx hv hpar] at hlinked
    apply hlinked.subset
    have hb := (chain_visit cx p (.declaration d)).frames.becomes hx hy
    rw [Forest.valueTypes, hy, Option.bind_some, hb.mentioned_value hv hpar]
    exact List.Subset.refl _
  cases hc : x.content with
  | ofClass info =>
    obtain ⟨h, h'⟩ := linked_visit_class cx hp hx hc hfits hd ho
    exact ⟨fun _ _ => h, hc ▸ h'⟩
  | ofFunction f =>
    obtain ⟨h, h'⟩ := linked_visit_function cx hp hx hc hfits ho
    exact ⟨fun _ _ => h, hc ▸ h'⟩
  | ofProperty info =>
    refine ⟨fun _ _ => ?_, fun a ha => absurd ha List.not_mem_nil⟩
    obtain ⟨hy, hover⟩ := declaration?_filterOverridden hx
    have hfilter : Chain cx Scope.everything p (p.filterOverridden d) := chain_filterOverridden trivial
    have hown : (enterDeclaration cx p (.declaration d)).1 = p.filterOverridden d := by
      simp only [enterDeclaration, hx, hc, below]
    rw [hown]
    intro y hy'
    obtain rfl := Option.some.inj (hy.symm.trans hy')
    refine hfilter.frames.noneMissing (hover.subset ?_)
    simp [Declaration.withOverridden, Declaration.overridden, hc, Content.mentioned]
  | ofField f =>
    exact ⟨fun _ _ => hvalue (by simp [Declaration.valueType?, hc])
      (by simp [Declaration.parameter?, hc]), fun a ha => absurd ha List.not_mem_nil⟩
  | ofVariable v =>
    exact ⟨fun _ _ => hvalue (by simp [Declaration.valueType?, hc])
      (by simp [Declaration.parameter?, hc]), fun a ha => absurd ha List.not_mem_nil⟩
  | ofParameter info =>
    exact ⟨fun h _ => absurd ⟨x, info, hx, hc⟩ h, fun a ha => absurd ha List.not_mem_nil⟩
  | ofTypeParameter info =>
    exact ⟨fun _ h => absurd ⟨x, info, hx, hc⟩ h, fun a ha => absurd ha List.not_mem_nil⟩
  | ofEnumEntry | ofInitializer =>
    refine ⟨fun _ _ => hnothing (by rw [hc]; rfl) ?_, fun a ha => absurd ha List.not_mem_nil⟩
    simp only [enterDeclaration, hx, hc, below]

/-! ## the whole sweep -/

/-- a known declaration owns its symbol -/
theorem Grafted.symbolOwner? (h : p.Grafted I S F) (hF : F.Planted)
    (hroots : roots.Subperm F.fileRoots) (ha : F.Known roots (.declaration a))
    (hthere : (p.forest.declaration? a).isSome) : p.forest.symbolOwner? a = some a := by
  cases hx : F.declaration? a with
  | some x =>
    have hreached := Forest.reached_of_reaches hroots.subset (ha (Option.isSome_iff_exists.mpr ⟨x, hx⟩))
    exact h.frames.symbolOwner? (hF.owner a hreached)
  | none =>
    obtain ⟨y, hy⟩ := Option.isSome_iff_exists.mp hthere
    exact Option.bind_eq_some_iff.mpr ⟨y, hy, (h.frames.fresh a y hx hy).owner⟩

/-- the slots of a known declaration hold what they are for -/
theorem Grafted.fits (h : p.Grafted I S F) (hk : F.KindCorrect roots)
    (hd : F.Known roots (.declaration d)) (hx : p.forest.declaration? d = some x) :
    p.forest.Fits x.content := by
  cases hx₀ : F.declaration? d with
  | some x₀ =>
    have hb := h.frames.becomes hx₀ hx
    have hfits := hk.slots d x₀ (hd (Option.isSome_iff_exists.mpr ⟨x₀, hx₀⟩)) hx₀
    exact hb.content.fits (hfits.keeps h.frames.keeps)
  | none =>
    have hf := h.sprouts d x hx₀ hx
    unfold Forest.Fashioned at hf
    cases hc : x.content with
    | ofFunction f =>
      rw [hc] at hf
      exact hf.2.1
    | ofClass info =>
      rw [hc] at hf
      exact hf.elim
    | _ => trivial

/-- **What was visited is linked when the sweep is over**, and so is what is in its slots. -/
theorem linked_of_visits (hF : F.Planted) (hP : F.ParentsKnown) (hroots : roots.Subperm F.fileRoots)
    (hk : F.KindCorrect roots) (hv : (p, .declaration d) ∈ declarationVisits cx roots (.start F)) :
    ∃ x, p.forest.declaration? d = some x
      ∧ (¬ p.forest.HasParameter d → ¬ p.forest.HasTypeParameter d →
        (repairDeclarations cx roots (.start F)).forest.Linked d)
      ∧ ∀ a ∈ x.content.slots, (repairDeclarations cx roots (.start F)).forest.Linked a := by
  obtain ⟨⟨hg, hsane⟩, hknown⟩ := (grafted_visit cx hk.bequests hP).2 _ hv
  obtain ⟨pre, post, hvs⟩ := List.append_of_mem hv
  have hthere := isSome_of_visits hF hk.bequests hP hroots hvs
  obtain ⟨x, hx⟩ := Option.isSome_iff_exists.mp hthere
  have hfits := hg.fits hk hknown hx
  have hslot : ∀ a ∈ x.content.slots, (p.forest.declaration? a).isSome
      ∧ p.forest.symbolOwner? a = some a := by
    intro a ha
    have hsome : (p.forest.declaration? a).isSome := by
      rcases hfits.of_mem_slots ha with ⟨w, _, hw, _⟩ | ⟨w, _, hw, _⟩ <;>
        exact Option.isSome_iff_exists.mpr ⟨w, hw⟩
    exact ⟨hsome, hg.symbolOwner? hF hroots (hg.known_child hknown (Forest.child_of_slot hx rfl ha)) hsome⟩
  obtain ⟨hown, hslots⟩ := linked_visit cx hsane hx hfits
    (hg.symbolOwner? hF hroots hknown hthere) fun a ha => (hslot a ha).2
  have hframes := (chain_visit cx p (.declaration d)).frames
  have hafter := (chain_after hvs).frames
  exact ⟨x, hx, fun h h' => hafter.linked (hframes.isSome hthere) (hown h h'), fun a ha =>
    hafter.linked (hframes.isSome (hslot a ha).1) (hslots a ha)⟩

end

end Pass

end LinkRepair
