import LinkRepair.Proofs.Repair.Idle
import LinkRepair.Proofs.Repair.Order

/-!
# The problems of expressions without a memo

What an expression demands is asked after the first sweep.  In an acyclic forest the answers are those
of the recursion in the forest at the start, so the first demand that is not met can be told from the
views of the declarations alone.

* `Forest.Replies`        the answers of a memo are those of the recursion in `F`;
* `Forest.plainProblem`   what is wrong with a demand by that recursion;
* `Replies.firstProblem`  the first problem among some demands is the first of these;
* `Plain.knows_suspects`  the classifiers behind a symbol are in the forest;
* `plainProblem_alike`    forests that show the same views find the same problem.
-/

namespace LinkRepair

/-- the symbols of the forest are all that the demand names -/
def Demand.Within (F : Forest) (demand : Demand) : Prop := ∀ s ∈ demand.mentioned, F.Knows s

namespace Forest

/-- the answers that a memo for `G` gives are those of the recursion in `F` -/
structure Replies (F G : Forest) (m : Memo) : Prop where
  plain : m.Plain F F.Knows
  stands : F.StandsAs F.Knows G m

/-- what is wrong with a demand in `G`, by the recursion in `F` -/
def plainProblem (F G : Forest) (e : ExpressionId) : Demand → Option Problem
  | .type t => (t.mentioned.findSome? F.plainVerdict).map (.brokenReference e)
  | .symbol s =>
    if G.isMissing s then some (.missingReference e s)
    else (G.owner? s).bind fun d => (G.declaration? d).bind fun x =>
      ((G.suspects s d x).findSome? F.plainVerdict).map (accusation e d x)

/-- the classifiers that a demand asks about are in `F` -/
def AsksWithin (F G : Forest) : Demand → Prop
  | .type t => ∀ s ∈ t.mentioned, F.Knows s
  | .symbol s => ∀ d x, G.owner? s = some d → G.declaration? d = some x →
      ∀ u ∈ G.suspects s d x, F.Knows u

section
variable {F G : Forest} {m : Memo} {e : ExpressionId} (hF : F.Founds F.Knows)
include hF

theorem Replies.exploreFirst (h : F.Replies G m) (l : List SymbolId) :
    F.Replies G (G.exploreFirst m l).2
      ∧ ((∀ s ∈ l, F.Knows s) → (G.exploreFirst m l).1 = l.findSome? F.plainVerdict) := by
  obtain ⟨hm, hv⟩ := plain_exploreFirst hF.settles (l := l) h.plain h.stands
  exact ⟨⟨hm, h.stands.keptIn (asked_exploreFirst G l m).keptIn⟩, hv⟩

theorem Replies.demandProblem (h : F.Replies G m) (demand : Demand) :
    F.Replies G (G.demandProblem e m demand).2
      ∧ (F.AsksWithin G demand → (G.demandProblem e m demand).1 = F.plainProblem G e demand) := by
  cases demand with
  | type t =>
    obtain ⟨hm, hv⟩ := h.exploreFirst hF t.mentioned
    exact ⟨hm, fun hknown => congrArg (Option.map _) (hv hknown)⟩
  | symbol s =>
    unfold Forest.demandProblem symbolProblem plainProblem
    dsimp only
    split
    · exact ⟨h, fun _ => rfl⟩
    · cases ho : G.owner? s with
      | none => exact ⟨h, fun _ => rfl⟩
      | some d =>
        dsimp only [Option.bind_some]
        cases hx : G.declaration? d with
        | none => exact ⟨h, fun _ => rfl⟩
        | some x =>
          obtain ⟨hm, hv⟩ := h.exploreFirst hF (G.suspects s d x)
          exact ⟨hm, fun hknown => congrArg (Option.map _) (hv (hknown d x ho hx))⟩

/-- **The first problem among some demands** is the first by the recursion. -/
theorem Replies.firstProblem : ∀ {demands : List Demand} {m : Memo}, F.Replies G m →
    F.Replies G (G.firstProblem e m demands).2
      ∧ ((∀ demand ∈ demands, F.AsksWithin G demand) →
        (G.firstProblem e m demands).1 = demands.findSome? (F.plainProblem G e)) := by
  intro demands
  induction demands with
  | nil => exact fun h => ⟨h, fun _ => rfl⟩
  | cons demand rest ih =>
    intro m h
    obtain ⟨hm, hv⟩ := h.demandProblem hF (e := e) demand
    unfold Forest.firstProblem
    generalize G.demandProblem e m demand = answer at hm hv
    obtain ⟨_ | problem, m'⟩ := answer
    · refine ⟨(ih hm).1, fun hknown => ?_⟩
      rw [List.findSome?_cons, ← hv (hknown _ List.mem_cons_self)]
      exact (ih hm).2 fun d hd => hknown d (List.mem_cons_of_mem _ hd)
    · refine ⟨hm, fun hknown => ?_⟩
      rw [List.findSome?_cons, ← hv (hknown _ List.mem_cons_self)]

end

/-! ## what a problem speaks of -/

section
variable {F G : Forest} {e : ExpressionId} {demand : Demand} {problem : Problem}

theorem knowsCause_of_findSome? (hN : F.NeedsKnown) {l : List SymbolId} (hl : ∀ s ∈ l, F.Knows s)
    {k : Cause} (h : l.findSome? F.plainVerdict = some k) : F.KnowsCause k := by
  obtain ⟨s, hs, hsk⟩ := List.exists_of_findSome?_eq_some h
  exact knows_of_plainVerdict hN (hl s hs) hsk

/-- **A problem with an expression speaks of what was there.** -/
theorem about_plainProblem (hN : F.NeedsKnown) (hdemand : demand.Within F) (hasks : F.AsksWithin G demand)
    (howner : ∀ s d, demand = .symbol s → G.owner? s = some d → F.KnowsDeclaration d)
    (h : F.plainProblem G e demand = some problem) : problem.About F e := by
  cases demand with
  | type t =>
    obtain ⟨k, hk, rfl⟩ := Option.map_eq_some_iff.mp h
    exact .brokenReference (knowsCause_of_findSome? hN hasks hk)
  | symbol s =>
    unfold plainProblem at h
    dsimp only at h
    split at h
    · obtain rfl := Option.some.inj h
      exact .missingReference (hdemand s (List.mem_singleton_self s))
    · obtain ⟨d, ho, h⟩ := Option.bind_eq_some_iff.mp h
      obtain ⟨x, hx, h⟩ := Option.bind_eq_some_iff.mp h
      obtain ⟨k, hk, rfl⟩ := Option.map_eq_some_iff.mp h
      have hcause := knowsCause_of_findSome? hN (hasks d x ho hx) hk
      unfold accusation
      split
      · exact .brokenReference hcause
      · exact .brokenReference hcause
      · exact .brokenReference hcause
      · exact .brokenTarget (howner s d rfl ho) hcause

end

end Forest

namespace Pass

section
variable {I : Intrinsics} {F : Forest} {p q : Pass} {d a : DeclarationId} {s : SymbolId}
  {x y : Declaration}

/-! ## the classifiers behind a symbol -/

/-- the owner of a symbol of the forest is in the forest -/
theorem Plain.owner (h : p.Plain I F) (hE : F.Entire) (hs : F.Knows s) (ho : p.forest.owner? s = some d) :
    ∃ z, F.declaration? d = some z ∧ z.symbol = s :=
  hE.owners s d ((h.frames.owner?_eq hs).symm.trans ho)

theorem Plain.knows_valueBlamed (h : p.Plain I F) (hE : F.Entire) (ha : (F.declaration? a).isSome) :
    ∀ u ∈ p.forest.valueBlamed a, F.Knows u := by
  intro u hu
  rw [Forest.valueBlamed_eq] at hu
  obtain ⟨t, ht, hut⟩ := List.mem_flatMap.mp hu
  obtain ⟨y, hy, hyt⟩ := Option.bind_eq_some_iff.mp (Option.mem_toList.mp ht)
  obtain ⟨z, hz⟩ := Option.isSome_iff_exists.mp ha
  exact h.knows_types hE hz hy t (Declaration.mem_types_of_valueType? hyt) u hut

/-- what is in a slot of a function that was there was there -/
theorem Plain.stores_slot (h : p.Plain I F) (hE : F.Entire) (ha : (F.declaration? a).isSome)
    {f : FunctionInfo} (hf : p.forest.function? a = some f) {b : DeclarationId}
    (hb : .parameter b ∈ f.signature ∨ .typeParameter b ∈ f.signature) : (F.declaration? b).isSome := by
  obtain ⟨z, hz⟩ := Option.isSome_iff_exists.mp ha
  obtain ⟨y, hy, hyf⟩ := Option.bind_eq_some_iff.mp hf
  have hbecomes := h.frames.becomes hz hy
  have hcontent := hbecomes.content
  rw [Forest.function?_eq_some.mp hyf] at hcontent
  generalize hzc : z.content = content at hcontent
  cases hcontent with
  | @ofFunction f₀ =>
    exact hE.children (.declaration a) (.declaration b)
      (Forest.child_of_content hz hzc (f₀.mem_children_of_mem_signature hb))

theorem Plain.knows_signatureBlamed (h : p.Plain I F) (hE : F.Entire) (ha : (F.declaration? a).isSome) :
    ∀ u ∈ p.forest.signatureBlamed a, F.Knows u := by
  intro u hu
  rw [Forest.signatureBlamed_eq] at hu
  obtain ⟨t, ht, hut⟩ := List.mem_flatMap.mp hu
  obtain ⟨f, hf, ht⟩ := List.mem_flatMap.mp ht
  replace hf := Option.mem_toList.mp hf
  obtain ⟨part, hpart, ht⟩ := List.mem_flatMap.mp ht
  -- the types of whatever the part stands for are those of something that was there
  have hknown : ∀ {b : DeclarationId} {y : Declaration}, (F.declaration? b).isSome →
      p.forest.declaration? b = some y → t ∈ y.content.types → F.Knows u := fun hb hy hty => by
    obtain ⟨z, hz⟩ := Option.isSome_iff_exists.mp hb
    exact h.knows_types hE hz hy t hty u hut
  cases part with
  | parameter b =>
    obtain ⟨info, hinfo, ht⟩ := List.mem_flatMap.mp ht
    obtain ⟨y, hy, hyi⟩ := Option.bind_eq_some_iff.mp (Option.mem_toList.mp hinfo)
    refine hknown (h.stores_slot hE ha hf (.inl hpart)) hy ?_
    rwa [Forest.parameter?_eq_some.mp hyi]
  | returnType =>
    obtain ⟨g, hg, rfl⟩ := List.mem_map.mp ht
    obtain ⟨y, hy, hyg⟩ := Option.bind_eq_some_iff.mp (Option.mem_toList.mp hg)
    refine hknown ha hy ?_
    rw [Forest.function?_eq_some.mp hyg]
    exact List.mem_singleton_self _
  | typeParameter b =>
    replace ht : t ∈ p.forest.bounds b := ht
    rw [Forest.bounds_eq] at ht
    obtain ⟨info, hinfo, ht⟩ := List.mem_flatMap.mp ht
    obtain ⟨y, hy, hyi⟩ := Option.bind_eq_some_iff.mp (Option.mem_toList.mp hinfo)
    refine hknown (h.stores_slot hE ha hf (.inr hpart)) hy ?_
    unfold Declaration.typeParameter? at hyi
    split at hyi
    · rename_i content hcontent
      cases hyi
      rw [hcontent]
      exact ht
    · cases hyi

/-- the class that answers for an enum entry is the one that did at the start -/
theorem Plain.entryClassSymbol?_eq (h : p.Plain I F) (hE : F.Entire) {z : Declaration}
    (hz : F.declaration? d = some z) {entry : EnumEntryInfo} (hc : z.content = .ofEnumEntry entry) :
    p.forest.entryClassSymbol? d entry = F.entryClassSymbol? d entry :=
  h.frames.entryClassSymbol?_eq hE.parents hz (hE.children (.declaration d)) hc

/-- **The classifiers behind a symbol of the forest are in the forest.** -/
theorem Plain.knows_suspects (h : p.Plain I F) (hE : F.Entire) (hs : F.Knows s)
    (ho : p.forest.owner? s = some d) (hx : p.forest.declaration? d = some x) :
    ∀ u ∈ p.forest.suspects s d x, F.Knows u := by
  obtain ⟨z, hz, rfl⟩ := h.owner hE hs ho
  have hb := h.frames.becomes hz hx
  have hd : (F.declaration? d).isSome := Option.isSome_iff_exists.mpr ⟨z, hz⟩
  have hcontent := hb.content
  unfold Forest.suspects
  generalize x.content = c at hcontent
  generalize hzc : z.content = c₀ at hcontent
  have hchild : ∀ a, .declaration a ∈ c₀.children → (F.declaration? a).isSome := fun a ha =>
    hE.children (.declaration d) (.declaration a) (Forest.child_of_content hz hzc ha)
  intro u hu
  cases hcontent with
  | ofClass | ofTypeParameter => exact List.mem_singleton.mp hu ▸ hs
  | ofEnumEntry =>
    replace hu := Option.mem_toList.mp hu
    rw [h.entryClassSymbol?_eq hE hz hzc] at hu
    obtain ⟨y, hy, rfl⟩ := Option.map_eq_some_iff.mp hu
    obtain ⟨b, _, hb⟩ := Option.bind_eq_some_iff.mp hy
    exact hE.symbols b y hb
  | ofFunction => exact h.knows_signatureBlamed hE hd u hu
  | @ofProperty info =>
    have hpart : ∀ {a}, a ∈ info.field.toList ++ info.getter.toList ++ info.setter.toList →
        (F.declaration? a).isSome := fun ha => hchild _ (List.mem_map_of_mem ha)
    rcases List.mem_append.mp hu with hu | hu
    · rcases List.mem_append.mp hu with hu | hu
      · obtain ⟨a, ha, hu⟩ := List.mem_flatMap.mp hu
        exact h.knows_valueBlamed hE
          (hpart (List.mem_append_left _ (List.mem_append_left _ ha))) u hu
      · obtain ⟨a, ha, hu⟩ := List.mem_flatMap.mp hu
        exact h.knows_signatureBlamed hE
          (hpart (List.mem_append_left _ (List.mem_append_right _ ha))) u hu
    · obtain ⟨a, ha, hu⟩ := List.mem_flatMap.mp hu
      exact h.knows_signatureBlamed hE (hpart (List.mem_append_right _ ha)) u hu
  | ofField | ofVariable | ofParameter => exact h.knows_valueBlamed hE hd u hu
  | ofInitializer => cases hu

/-- an expression of the forest asks about classifiers of the forest -/
theorem Plain.asksWithin (h : p.Plain I F) (hE : F.Entire) {demand : Demand} (hd : demand.Within F) :
    F.AsksWithin p.forest demand := by
  cases demand with
  | type t => exact hd
  | symbol s => exact fun d x ho hx => h.knows_suspects hE (hd s (List.mem_singleton_self s)) ho hx

/-! ## the same views -/

variable (h : Alike I F (fun a => (F.declaration? a).isSome) p q) (hE : F.Entire)
include h

theorem Alike.valueBlamed_eq (ha : (F.declaration? a).isSome) :
    p.forest.valueBlamed a = q.forest.valueBlamed a := by
  unfold Forest.valueBlamed
  rw [Forest.bind_view (Declaration.valueType?_within F) (h.view a ha)]

include hE

theorem Alike.signatureBlamed_eq (ha : (F.declaration? a).isSome) :
    p.forest.signatureBlamed a = q.forest.signatureBlamed a := by
  have hview := Forest.function?_view (h.view a ha)
  unfold Forest.signatureBlamed
  cases hf : p.forest.function? a with
  | none =>
    rw [hf] at hview
    rw [Option.map_eq_none_iff.mp hview.symm]
  | some f =>
    rw [hf] at hview
    obtain ⟨g, hg, hfg⟩ := Option.map_eq_some_iff.mp hview.symm
    rw [hg]
    have hsignature : g.signature = f.signature := congrArg Prod.fst hfg
    have htype : g.returnType = f.returnType := congrArg Prod.snd hfg
    dsimp only
    rw [hsignature]
    refine congrArg (List.flatMap TypeRef.blamed) (List.flatMap_congr fun part hpart => ?_)
    cases part with
    | parameter b =>
      have hb := h.left.stores_slot hE ha hf (.inl hpart)
      simp only [Forest.partTypes, Forest.parameter?_view (h.view b hb)]
    | returnType => simp only [Forest.partTypes, htype]
    | typeParameter b =>
      have hb := h.left.stores_slot hE ha hf (.inr hpart)
      simp only [Forest.partTypes, Forest.bounds,
        Forest.bind_view (Declaration.typeParameter?_within F) (h.view b hb)]

/-- **The classifiers behind a symbol can be told from the views.** -/
theorem Alike.suspects_eq (hs : F.Knows s) (ho : p.forest.owner? s = some d)
    (hx : p.forest.declaration? d = some x) (hy : q.forest.declaration? d = some y) :
    p.forest.suspects s d x = q.forest.suspects s d y
      ∧ ∀ e, Forest.accusation e d x = Forest.accusation e d y := by
  obtain ⟨z, hz, rfl⟩ := h.left.owner hE hs ho
  have hb := h.left.frames.becomes hz hx
  have hb' := h.right.frames.becomes hz hy
  have hd : (F.declaration? d).isSome := Option.isSome_iff_exists.mpr ⟨z, hz⟩
  have hcontent := hb.content
  have hcontent' := hb'.content
  unfold Forest.suspects Forest.accusation
  generalize x.content = c at hcontent
  generalize y.content = c' at hcontent'
  generalize hzc : z.content = c₀ at hcontent hcontent'
  have hchild : ∀ a, .declaration a ∈ c₀.children → (F.declaration? a).isSome := fun a ha =>
    hE.children (.declaration d) (.declaration a) (Forest.child_of_content hz hzc ha)
  cases hcontent with
  | ofClass =>
    cases hcontent' with
    | ofClass => exact ⟨rfl, fun _ => rfl⟩
  | ofTypeParameter =>
    cases hcontent' with
    | ofTypeParameter => exact ⟨rfl, fun _ => rfl⟩
  | ofEnumEntry =>
    cases hcontent' with
    | ofEnumEntry =>
      refine ⟨?_, fun _ => rfl⟩
      dsimp only
      rw [h.left.entryClassSymbol?_eq hE hz hzc, h.right.entryClassSymbol?_eq hE hz hzc]
  | ofFunction =>
    cases hcontent' with
    | ofFunction => exact ⟨h.signatureBlamed_eq hE hd, fun _ => rfl⟩
  | @ofProperty info =>
    cases hcontent' with
    | ofProperty =>
      have hpart : ∀ {a}, a ∈ info.field.toList ++ info.getter.toList ++ info.setter.toList →
          (F.declaration? a).isSome := fun ha => hchild _ (List.mem_map_of_mem ha)
      refine ⟨?_, fun _ => rfl⟩
      dsimp only
      congr 1
      · congr 1
        · exact List.flatMap_congr fun a ha => h.valueBlamed_eq
            (hpart (List.mem_append_left _ (List.mem_append_left _ ha)))
        · exact List.flatMap_congr fun a ha => h.signatureBlamed_eq hE
            (hpart (List.mem_append_left _ (List.mem_append_right _ ha)))
      · exact List.flatMap_congr fun a ha => h.signatureBlamed_eq hE
          (hpart (List.mem_append_right _ ha))
  | ofField =>
    cases hcontent' with
    | ofField => exact ⟨h.valueBlamed_eq hd, fun _ => rfl⟩
  | ofVariable =>
    cases hcontent' with
    | ofVariable => exact ⟨h.valueBlamed_eq hd, fun _ => rfl⟩
  | ofParameter =>
    cases hcontent' with
    | ofParameter => exact ⟨h.valueBlamed_eq hd, fun _ => rfl⟩
  | ofInitializer =>
    cases hcontent' with
    | ofInitializer => exact ⟨rfl, fun _ => rfl⟩

/-- **Forests that show the same views find the same problem.** -/
theorem Alike.plainProblem_eq {e : ExpressionId} {demand : Demand} (hd : demand.Within F) :
    F.plainProblem p.forest e demand = F.plainProblem q.forest e demand := by
  cases demand with
  | type t => rfl
  | symbol s =>
    have hs := hd s (List.mem_singleton_self s)
    have howner : p.forest.owner? s = q.forest.owner? s :=
      (h.left.frames.owner?_eq hs).trans (h.right.frames.owner?_eq hs).symm
    have hmissing : p.forest.isMissing s = q.forest.isMissing s :=
      (h.left.isMissing_eq hE hs).trans (h.right.isMissing_eq hE hs).symm
    unfold Forest.plainProblem
    dsimp only
    rw [hmissing]
    split
    · rfl
    · cases ho : p.forest.owner? s with
      | none =>
        rw [← howner, ho]
        rfl
      | some d =>
        obtain ⟨z, hz, _⟩ := h.left.owner hE hs ho
        obtain ⟨x, hx, _⟩ := h.left.frames.declaration? d z hz
        obtain ⟨y, hy, _⟩ := h.right.frames.declaration? d z hz
        obtain ⟨hsuspects, haccusation⟩ := h.suspects_eq hE hs ho hx hy
        rw [← howner, ho, Option.bind_some, Option.bind_some, hx, hy, Option.bind_some,
          Option.bind_some, hsuspects, haccusation e]

end

end Pass

end LinkRepair
