import LinkRepair.Proofs.Repair.Texts
import LinkRepair.Proofs.Repair.Views

/-!
# The same visit in two repairs

In an acyclic forest the answers to questions do not depend on when they are asked.  So a visit that
finds the same views of all that it edits makes the same edits, whatever was repaired before.

* `Pass.Alike`          two stages with the same views of some declarations;
* `Alike.fixSignature`, `Alike.fixValue`, `Alike.dropBrokenSuperTypes`   repairs of these have the same
                        outcome in both.
-/

namespace LinkRepair

theorem Declaration.mem_types_of_valueType? {x : Declaration} {t : TypeRef}
    (h : x.valueType? = some t) : t ∈ x.content.types := by
  obtain ⟨_, _, _, _, _, content⟩ := x
  cases content with
  | ofField | ofVariable | ofParameter => exact Option.some.inj h ▸ List.mem_cons_self
  | _ => cases h

section
variable {I : Intrinsics} {F : Forest} {m : Memo} {x y : Declaration} (h : x.Becomes I F m y)
include h

theorem Declaration.Becomes.overridden : y.overridden.Sublist x.overridden := by
  have hcontent := h.content
  unfold Declaration.overridden
  generalize x.content = content at hcontent
  generalize y.content = content' at hcontent
  cases hcontent with
  | ofFunction _ ho => exact ho
  | ofProperty ho => exact ho
  | _ => exact List.Sublist.refl _

theorem Declaration.Becomes.visibility? : y.visibility? = x.visibility? := by
  have hcontent := h.content
  unfold Declaration.visibility?
  generalize x.content = content at hcontent
  generalize y.content = content' at hcontent
  cases hcontent with
  | ofField hf => rcases hf with rfl | ⟨_, _, rfl⟩ <;> rfl
  | _ => rfl

end

namespace Forest

/-- a type that mentions nothing broken -/
def isLinked (F : Forest) (t : TypeRef) : Bool := (t.mentioned.findSome? F.plainVerdict).isNone

section
variable {F G H : Forest} {d : DeclarationId}

/-- what does not depend on members and bodies can be told from the view -/
theorem bind_view {β : Type} {v : Declaration → Option β} (hv : ∀ x, v (x.within F) = v x)
    (h : F.view G d = F.view H d) : (G.declaration? d).bind v = (H.declaration? d).bind v := by
  have hmap : ∀ G : Forest, (F.view G d).bind v = (G.declaration? d).bind v := fun G => by
    unfold view
    cases G.declaration? d with
    | none => rfl
    | some x => exact hv x
  rw [← hmap, ← hmap, h]

theorem parameter?_view (h : F.view G d = F.view H d) : G.parameter? d = H.parameter? d :=
  bind_view (Declaration.parameter?_within F) h

/-- a function with the same view has the same signature -/
theorem function?_view (h : F.view G d = F.view H d) :
    (G.function? d).map (fun f => (f.signature, f.returnType))
      = (H.function? d).map fun f => (f.signature, f.returnType) := by
  have := bind_view (v := fun x => x.function?.map fun f => (f.signature, f.returnType))
    (fun x => by rw [Declaration.function?_within, Option.map_map]; rfl) h
  unfold function?
  rwa [Option.map_bind, Option.map_bind]

/-- and a class the same super types -/
theorem class?_view (h : F.view G d = F.view H d) :
    (G.class? d).map ClassInfo.superTypes = (H.class? d).map ClassInfo.superTypes := by
  have := bind_view (v := fun x => x.class?.map ClassInfo.superTypes)
    (fun x => by rw [Declaration.class?_within, Option.map_map]; rfl) h
  unfold class?
  rwa [Option.map_bind, Option.map_bind]

end

end Forest

namespace Pass

/-! ## what is looked at -/

section
variable {I : Intrinsics} {F : Forest} {p : Pass} (h : p.Plain I F) (hE : F.Entire)
include h hE

/-- what a declaration overrides was there -/
theorem Plain.knows_overridden {d : DeclarationId} {x y : Declaration} (hx : F.declaration? d = some x)
    (hy : p.forest.declaration? d = some y) : ∀ s ∈ y.overridden, F.Knows s := fun s hs => by
  have hb := h.frames.becomes hx hy
  exact hE.overridden d x hx s (hb.overridden.subset hs)

/-- the declaration behind a symbol keeps its origin and its visibility -/
theorem Plain.definition?_cases {s : SymbolId} (hs : F.Knows s) :
    p.forest.definition? s = none ∧ F.definition? s = none
      ∨ ∃ x y, F.definition? s = some x ∧ p.forest.definition? s = some y ∧ y.origin = x.origin
        ∧ y.visibility? = x.visibility? := by
  have howner := h.frames.owner?_eq hs
  replace howner : p.forest.owner? s = F.owner? s := howner
  unfold Forest.definition?
  rw [howner]
  cases ho : F.owner? s with
  | none => exact .inl ⟨rfl, rfl⟩
  | some d =>
    obtain ⟨x, hx, _⟩ := hE.owners s d ho
    obtain ⟨y, hy, hb, _⟩ := h.frames.declaration? d x hx
    exact .inr ⟨x, y, hx, hy, hb.origin, hb.visibility?⟩

/-- whether a symbol is missing does not change -/
theorem Plain.isMissing_eq {s : SymbolId} (hs : F.Knows s) :
    p.forest.isMissing s = F.isMissing s := by
  unfold Forest.isMissing
  rcases h.definition?_cases hE hs with ⟨hp, hF⟩ | ⟨x, y, hF, hp, horigin, _⟩
  · rw [hp, hF]
  · rw [hp, hF]
    exact congrArg (· == Origin.missing) horigin

/-- nor does it whether it can be overridden -/
theorem Plain.isOverridable_eq {s : SymbolId} (hs : F.Knows s) :
    p.forest.isOverridable s = F.isOverridable s := by
  unfold Forest.isOverridable
  rw [h.isMissing_eq hE hs]
  rcases h.definition?_cases hE hs with ⟨hp, hF⟩ | ⟨x, y, hF, hp, _, hvisibility⟩
  · rw [hp, hF]
  · rw [hp, hF, Option.bind_some, Option.bind_some, hvisibility]

end

/-- the types that are kept are those that mention nothing broken -/
theorem Plain.linkedTypes {cx : Context} {F : Forest} (hE : F.Entire) (hA : F.Acyclic) :
    ∀ {ts : List TypeRef} {p : Pass}, p.Plain cx.intrinsics F →
      (∀ s ∈ ts.flatMap TypeRef.mentioned, F.Knows s) → (p.linkedTypes ts).1 = ts.filter F.isLinked := by
  intro ts
  induction ts with
  | nil => exact fun _ _ => rfl
  | cons t ts ih =>
    intro p h hts
    rw [List.flatMap_cons] at hts
    obtain ⟨h', hv⟩ := h.ask (hA.founds hE.needsKnown) t.mentioned
    have hrest := ih h' fun s hs => hts s (List.mem_append_right _ hs)
    have hfirst : (p.ask t.mentioned).1.isNone = F.isLinked t := by
      rw [hv fun s hs => hts s (List.mem_append_left _ hs)]
      rfl
    show (if _ then t :: _ else _) = _
    rw [hrest, hfirst, List.filter_cons]

/-- two stages of repairs of `F` with the same views of the declarations of `A` -/
structure Alike (I : Intrinsics) (F : Forest) (A : DeclarationId → Prop) (p q : Pass) : Prop where
  left : p.Plain I F
  right : q.Plain I F
  stored : ∀ a, A a → (F.declaration? a).isSome
  view : ∀ a, A a → F.view p.forest a = F.view q.forest a

/-- the same answer from both, which speaks of the forest, and two such stages after it -/
structure SameAnswer (I : Intrinsics) (F : Forest) (A : DeclarationId → Prop)
    (r r' : Verdict × Pass) : Prop where
  verdict : r.1 = r'.1
  known : ∀ k, r.1 = some k → F.KnowsCause k
  alike : Alike I F A r.2 r'.2

/-- two answers one after the other, of which the first counts -/
theorem SameAnswer.or {I : Intrinsics} {F : Forest} {A : DeclarationId → Prop}
    {r r' t t' : Verdict × Pass} (h : SameAnswer I F A r r') (h' : SameAnswer I F A t t') :
    SameAnswer I F A (r.1.or t.1, t.2) (r'.1.or t'.1, t'.2) where
  verdict := by rw [h.verdict, h'.verdict]
  known := fun k hk => by
    rcases Option.or_eq_some_iff.mp hk with hk | ⟨_, hk⟩
    · exact h.known k hk
    · exact h'.known k hk
  alike := h'.alike

namespace Alike

section
variable {cx : Context} {F : Forest} {A : DeclarationId → Prop} {p q p' q' : Pass} {c k : Scope}
  {l : List SymbolId} {a d : DeclarationId} {x y : Declaration} (hE : F.Entire) (hA : F.Acyclic)
  (h : Alike cx.intrinsics F A p q)
include h

/-- what a declaration of `A` speaks of is in the forest -/
theorem knows_types (hE : F.Entire) (ha : A a) (hx : p.forest.declaration? a = some x) :
    ∀ s ∈ x.content.types.flatMap TypeRef.mentioned, F.Knows s := by
  intro s hs
  obtain ⟨t, ht, hst⟩ := List.mem_flatMap.mp hs
  obtain ⟨z, hz⟩ := Option.isSome_iff_exists.mp (h.stored a ha)
  exact h.left.knows_types hE hz hx t ht s (t.mentioned_subset_blamed hst)

include hE hA

theorem chain (hp : Chain cx c p p') (hq : Chain cx k q q')
    (hv : ∀ a, A a → F.view p'.forest a = F.view q'.forest a) : Alike cx.intrinsics F A p' q' where
  left := h.left.chain (hA.founds hE.needsKnown) hE.parents hE.owners hp
  right := h.right.chain (hA.founds hE.needsKnown) hE.parents hE.owners hq
  stored := h.stored
  view := hv

/-! ## questions -/

/-- **Both get the same answers.** -/
theorem ask (hl : ∀ s ∈ l, F.Knows s) : SameAnswer cx.intrinsics F A (p.ask l) (q.ask l) := by
  have hF := hA.founds hE.needsKnown
  have hv := (h.left.ask hF l).2 hl
  refine ⟨hv.trans ((h.right.ask hF l).2 hl).symm, fun k hk => ?_,
    h.chain hE hA (c := .everything) (k := .everything) (chain_ask l) (chain_ask l) h.view⟩
  rw [hv] at hk
  obtain ⟨s, hs, hsk⟩ := List.exists_of_findSome?_eq_some hk
  exact Forest.knows_of_plainVerdict hE.needsKnown (hl s hs) hsk

/-- a question, and an edit if it finds a cause -/
theorem askThen (hl : ∀ s ∈ l, F.Knows s) {r r' : Verdict × Pass} {g : Cause → Forest → Forest}
    (hp : Chain cx c p r.2) (hq : Chain cx k q r'.2)
    (hnone : ∀ s, p.ask l = (none, s) → r = (none, s))
    (hsome : ∀ k s, p.ask l = (some k, s) → r = (some k, s.edit (g k)))
    (hnone' : ∀ s, q.ask l = (none, s) → r' = (none, s))
    (hsome' : ∀ k s, q.ask l = (some k, s) → r' = (some k, s.edit (g k)))
    (hg : ∀ k b, A b → F.view (g k p.forest) b = F.view (g k q.forest) b) :
    SameAnswer cx.intrinsics F A r r' := by
  have hp' := ask_forest p l
  have hq' := ask_forest q l
  obtain ⟨hv, hknown, _⟩ := h.ask hE hA hl
  generalize p.ask l = answer at hp' hv hknown hnone hsome
  generalize q.ask l = answer' at hq' hv hnone' hsome'
  obtain ⟨v, s⟩ := answer
  obtain ⟨v', s'⟩ := answer'
  obtain rfl : v = v' := hv
  replace hp' : s.forest = p.forest := hp'
  replace hq' : s'.forest = q.forest := hq'
  cases v with
  | none =>
    obtain rfl := hnone s rfl
    obtain rfl := hnone' s' rfl
    refine ⟨rfl, fun k hk => absurd hk (Option.some_ne_none k).symm, h.chain hE hA hp hq fun b hb => ?_⟩
    rw [hp', hq', h.view b hb]
  | some k =>
    obtain rfl := hsome k s rfl
    obtain rfl := hsome' k s' rfl
    refine ⟨rfl, hknown, h.chain hE hA hp hq fun b hb => ?_⟩
    show F.view (g k s.forest) b = F.view (g k s'.forest) b
    rw [hp', hq']
    exact hg k b hb

omit h hE hA in
theorem each {α : Type} {f f' : Pass → α → Verdict × Pass} : ∀ {l : List α} {p q : Pass},
    (∀ a ∈ l, ∀ p q, Alike cx.intrinsics F A p q → SameAnswer cx.intrinsics F A (f p a) (f' q a)) →
    Alike cx.intrinsics F A p q →
    SameAnswer cx.intrinsics F A (Pass.each f p l) (Pass.each f' q l) := by
  intro l
  induction l with
  | nil => exact fun _ h => ⟨rfl, fun k hk => absurd hk (Option.some_ne_none k).symm, h⟩
  | cons a l ih =>
    intro p q hf h
    have h₁ := hf a List.mem_cons_self p q h
    have h₂ := ih (fun b hb => hf b (List.mem_cons_of_mem _ hb)) h₁.alike
    rw [each_cons, each_cons]
    exact .or h₁ h₂

/-! ## signatures and values -/

omit hE hA in
/-- nothing is asked of what is not there -/
theorem nothing : SameAnswer cx.intrinsics F A (none, p) (none, q) :=
  ⟨rfl, fun k hk => absurd hk (Option.some_ne_none k).symm, h⟩

theorem fixParameter (ha : A a) :
    SameAnswer cx.intrinsics F A (p.fixParameter cx a) (q.fixParameter cx a) := by
  have hinfo := Forest.parameter?_view (h.view a ha)
  cases hi : p.forest.parameter? a with
  | none => simpa only [Pass.fixParameter, ← hinfo, hi] using h.nothing
  | some info =>
    obtain ⟨x, hx, hxi⟩ := Option.bind_eq_some_iff.mp hi
    have hknown := h.knows_types hE ha hx
    rw [Forest.parameter?_eq_some.mp hxi] at hknown
    replace hknown : ∀ s ∈ info.types.flatMap TypeRef.mentioned, F.Knows s := hknown
    rw [hi] at hinfo
    exact h.askThen hE hA (g := fun k G => G.updateDeclaration a <| Declaration.mapParameter fun q =>
        q.broken (cx.intrinsics.markerType k.symbol)) hknown
      (chain_fixParameter cx p (c := .everything) trivial).1
      (chain_fixParameter cx q (c := .everything) trivial).1
      (fun s hs => by simp only [Pass.fixParameter, hi, hs])
      (fun k s hs => by simp only [Pass.fixParameter, hi, hs])
      (fun s hs => by simp only [Pass.fixParameter, ← hinfo, hs])
      (fun k s hs => by simp only [Pass.fixParameter, ← hinfo, hs])
      fun k b hb => Forest.view_update (h.view b hb) fun x y _ _ hxy => by
        rw [Declaration.within_mapParameter, Declaration.within_mapParameter, hxy]

theorem fixReturnType {f g : FunctionInfo} (hf : p.forest.function? d = some f)
    (hg : q.forest.function? d = some g) (htype : g.returnType = f.returnType)
    (hknown : ∀ s ∈ f.returnType.mentioned, F.Knows s) :
    SameAnswer cx.intrinsics F A (p.fixReturnType cx d f.returnType)
      (q.fixReturnType cx d f.returnType) := by
  have hchain : Chain cx .everything q (q.fixReturnType cx d f.returnType).2 := by
    rw [← htype]
    exact chain_fixReturnType trivial hg
  exact h.askThen hE hA (g := fun k G => G.updateDeclaration d <| Declaration.mapFunction fun f =>
      { f with returnType := cx.intrinsics.markerType k.symbol }) hknown
    (chain_fixReturnType (c := .everything) trivial hf) hchain
    (fun s hs => by simp only [Pass.fixReturnType, hs])
    (fun k s hs => by simp only [Pass.fixReturnType, hs])
    (fun s hs => by simp only [Pass.fixReturnType, hs])
    (fun k s hs => by simp only [Pass.fixReturnType, hs])
    fun k b hb => Forest.view_update (h.view b hb) fun x y _ _ hxy => by
      rw [Declaration.within_returnType, Declaration.within_returnType, hxy]

theorem fixTypeParameter (ha : A a) :
    SameAnswer cx.intrinsics F A (p.fixTypeParameter cx a) (q.fixTypeParameter cx a) := by
  obtain ⟨z, x, hz, hx, hb⟩ := h.left.frames.exists_becomes (h.stored a ha)
  obtain ⟨y, hy, hxy⟩ := Forest.exists_of_view (h.view a ha) hx
  have hsymbol : x.symbol = y.symbol := by
    have : (x.within F).symbol = (y.within F).symbol := by rw [hxy]
    exact this
  have hknown : ∀ s ∈ [x.symbol], F.Knows s := fun s hs => by
    rw [List.mem_singleton.mp hs, hb.symbol]
    exact hE.symbols a z hz
  exact h.askThen hE hA (g := fun k G => G.updateDeclaration a <| Declaration.mapTypeParameter fun _ =>
      ⟨[cx.intrinsics.markerType k.symbol]⟩) hknown
    (chain_fixTypeParameter (c := .everything) trivial)
    (chain_fixTypeParameter (c := .everything) trivial)
    (fun s hs => by simp only [Pass.fixTypeParameter, hx, hs])
    (fun k s hs => by simp only [Pass.fixTypeParameter, hx, hs])
    (fun s hs => by simp only [Pass.fixTypeParameter, hy, ← hsymbol, hs])
    (fun k s hs => by simp only [Pass.fixTypeParameter, hy, ← hsymbol, hs])
    fun k b hb => Forest.view_update (h.view b hb) fun x y _ _ hxy => by
      rw [Declaration.within_mapTypeParameter, Declaration.within_mapTypeParameter, hxy]

theorem fixSignature (hd : A d)
    (hslots : ∀ f, p.forest.function? d = some f → ∀ a ∈ (Content.ofFunction f).slots, A a) :
    SameAnswer cx.intrinsics F A (p.fixSignature cx d) (q.fixSignature cx d) := by
  have hview := Forest.function?_view (h.view d hd)
  cases hf : p.forest.function? d with
  | none =>
    rw [hf] at hview
    have hg := Option.map_eq_none_iff.mp hview.symm
    simpa only [Pass.fixSignature, hf, hg] using h.nothing
  | some f =>
    rw [hf] at hview
    obtain ⟨g, hg, hfg⟩ := Option.map_eq_some_iff.mp hview.symm
    obtain ⟨hsignature, htype⟩ : g.signature = f.signature ∧ g.returnType = f.returnType :=
      ⟨congrArg Prod.fst hfg, congrArg Prod.snd hfg⟩
    obtain ⟨x, hx, hxf⟩ := Option.bind_eq_some_iff.mp hf
    have hknown := h.knows_types hE hd hx
    rw [Forest.function?_eq_some.mp hxf] at hknown
    replace hknown : ∀ s ∈ f.returnType.mentioned, F.Knows s := fun s hs =>
      hknown s (by simpa [Content.types] using hs)
    have hslots := hslots f hf
    simp only [Content.slots, FunctionInfo.parameters, List.mem_append] at hslots
    simp only [Pass.fixSignature, hf, hg, hsignature, htype]
    rw [FunctionInfo.signature_eq, each_append, each_append]
    -- the parts before the return type leave the function as it is
    have hfunction : ∀ {s : Pass} {k : FunctionInfo}, s.forest.function? d = some k →
        (Pass.each (fixPart cx d f.returnType) s
          ((f.extensionReceiver.toList ++ f.valueParameters).map .parameter)).2.forest.function? d
          = some k := fun hk =>
      (chain_each (c := .everything) (P := fun s => s.forest.function? d = some _)
        (fun s part hpart hs => by
          obtain ⟨a, _, rfl⟩ := List.mem_map.mp hpart
          obtain ⟨hc, hkept⟩ := chain_fixParameter cx s (c := .everything) (d := a) trivial
          exact ⟨hc, (hkept d).trans hs⟩) hk).2
    have h₁ : SameAnswer cx.intrinsics F A
        (Pass.each (fixPart cx d f.returnType) p
          ((f.extensionReceiver.toList ++ f.valueParameters).map .parameter))
        (Pass.each (fixPart cx d f.returnType) q
          ((f.extensionReceiver.toList ++ f.valueParameters).map .parameter)) := by
      refine each (fun part hpart s s' hs => ?_) h
      obtain ⟨a, ha, rfl⟩ := List.mem_map.mp hpart
      refine hs.fixParameter hE hA (hslots a ?_)
      rcases List.mem_append.mp ha with ha | ha
      · exact .inr (.inl (.inr ha))
      · exact .inr (.inr ha)
    refine .or h₁ ?_
    have hf₁ := hfunction hf
    have hg₁ := hfunction hg
    rw [each_cons, each_cons]
    refine .or (h₁.alike.fixReturnType hE hA hf₁ hg₁ htype hknown) (each (fun part hpart s s' hs => ?_)
      (h₁.alike.fixReturnType hE hA hf₁ hg₁ htype hknown).alike)
    rcases List.mem_append.mp hpart with hpart | hpart
    · obtain ⟨a, ha, rfl⟩ := List.mem_map.mp hpart
      exact hs.fixTypeParameter hE hA (hslots a (.inl ha))
    · obtain ⟨a, ha, rfl⟩ := List.mem_map.mp hpart
      exact hs.fixParameter hE hA (hslots a (.inr (.inl (.inl ha))))

theorem fixValue (hd : A d) :
    SameAnswer cx.intrinsics F A (p.fixValue cx d) (q.fixValue cx d) := by
  have htype := Forest.bind_view (Declaration.valueType?_within F) (h.view d hd)
  cases ht : (p.forest.declaration? d).bind Declaration.valueType? with
  | none => simpa only [Pass.fixValue, ← htype, ht] using h.nothing
  | some t =>
    obtain ⟨x, hx, hxt⟩ := Option.bind_eq_some_iff.mp ht
    have hknown : ∀ s ∈ t.mentioned, F.Knows s := fun s hs =>
      h.knows_types hE hd hx s (List.mem_flatMap.mpr ⟨t, Declaration.mem_types_of_valueType? hxt, hs⟩)
    rw [ht] at htype
    exact h.askThen hE hA (g := fun k G => G.updateDeclaration d <| Declaration.breakValue
        (cx.intrinsics.markerType k.symbol)) hknown
      (chain_fixValue (c := .everything) trivial) (chain_fixValue (c := .everything) trivial)
      (fun s hs => by simp only [Pass.fixValue, ht, hs])
      (fun k s hs => by simp only [Pass.fixValue, ht, hs])
      (fun s hs => by simp only [Pass.fixValue, ← htype, hs])
      (fun k s hs => by simp only [Pass.fixValue, ← htype, hs])
      fun k b hb => Forest.view_update (h.view b hb) fun x y _ _ hxy => by
        rw [Declaration.within_breakValue, Declaration.within_breakValue, hxy]

/-! ## overridden symbols and super types -/

theorem filterOverridden : Alike cx.intrinsics F A (p.filterOverridden d) (q.filterOverridden d) := by
  refine h.chain hE hA (c := .everything) (k := .everything) (chain_filterOverridden trivial)
    (chain_filterOverridden trivial) fun b hb => Forest.view_update (h.view b hb) fun x y hx hy hxy => ?_
  have hl : x.overridden = y.overridden := by
    rw [← Declaration.overridden_within F x, hxy, Declaration.overridden_within]
  obtain ⟨z, hz⟩ := Option.isSome_iff_exists.mp (h.stored b hb)
  rw [Declaration.within_withOverridden, Declaration.within_withOverridden, hxy, ← hl,
    List.filter_congr fun s hs => ?_]
  have hknown := h.left.knows_overridden hE hz hx s hs
  rw [h.left.isOverridable_eq hE hknown, h.right.isOverridable_eq hE hknown]

theorem dropBrokenSuperTypes (hd : A d)
    (hp : ∀ x, p.forest.declaration? d = some x → (p.memo.find? x.symbol).isSome)
    (hq : ∀ x, q.forest.declaration? d = some x → (q.memo.find? x.symbol).isSome) :
    Alike cx.intrinsics F A (p.dropBrokenSuperTypes d) (q.dropBrokenSuperTypes d) := by
  refine h.chain hE hA (c := .everything) (k := .everything) (chain_dropBrokenSuperTypes trivial hp)
    (chain_dropBrokenSuperTypes trivial hq) fun b hb => ?_
  have hclass := Forest.class?_view (h.view d hd)
  cases hc : p.forest.class? d with
  | none =>
    rw [hc] at hclass
    have hc' := Option.map_eq_none_iff.mp hclass.symm
    simpa only [Pass.dropBrokenSuperTypes, hc, hc'] using h.view b hb
  | some info =>
    rw [hc] at hclass
    obtain ⟨info', hc', htypes⟩ := Option.map_eq_some_iff.mp hclass.symm
    obtain ⟨x, hx, hxc⟩ := Option.bind_eq_some_iff.mp hc
    have hknown := h.knows_types hE hd hx
    rw [Forest.class?_eq_some.mp hxc] at hknown
    replace hknown : ∀ s ∈ info.superTypes.flatMap TypeRef.mentioned, F.Knows s := hknown
    simp only [Pass.dropBrokenSuperTypes, hc, hc']
    show F.view (Forest.updateDeclaration _ d _) b = F.view (Forest.updateDeclaration _ d _) b
    rw [(linkedTypes_spec _ p).2.1, (linkedTypes_spec _ q).2.1]
    refine Forest.view_update (h.view b hb) fun x y _ _ hxy => ?_
    rw [Declaration.within_superTypes, Declaration.within_superTypes, hxy, htypes,
      h.left.linkedTypes hE hA hknown, h.right.linkedTypes hE hA hknown]

end

end Alike

end Pass

end LinkRepair
