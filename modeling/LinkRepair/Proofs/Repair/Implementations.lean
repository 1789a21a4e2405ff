import LinkRepair.Proofs.Forest.Reach
import LinkRepair.Proofs.Repair.Inheritance
import LinkRepair.Proofs.Walk.Unbounded

/-!
# Implemented members

The search for overridden symbols has a bound and loses nothing by it, so it can be told by what it looks
for, as the search for the classes above a class can.

* `Forest.Overrides`               a function overrides a symbol, on any number of steps;
* `Forest.mem_overrideClosure`     what one of the functions overrides is found, and nothing else;
* `Forest.Implemented`             a function has an implementation in a class or above it;
* `Forest.unimplemented_eq_nil`    a class is given nothing that has one.
-/

namespace LinkRepair

namespace Forest

section
variable {F : Forest} {d : DeclarationId}

/-! ## what is overridden -/

/-- the owner of one symbol overrides the other -/
def OverridesNext (F : Forest) (s t : SymbolId) : Prop := ∃ d, F.owner? s = some d ∧ t ∈ F.overriddenBy d

/-- a function overrides a symbol, on any number of steps -/
def Overrides (F : Forest) (m : DeclarationId) (t : SymbolId) : Prop :=
  ∃ s ∈ F.overriddenBy m, Relation.ReflTransGen F.OverridesNext s t

/-- the visits that meet their symbol for the first time -/
def firstMeetings (vs : List (List SymbolId × SymbolId)) : List (List SymbolId × SymbolId) :=
  vs.filter fun v => decide (v.2 ∉ v.1)

theorem mem_pushed_meetOverridden {v : List SymbolId × SymbolId} {t : SymbolId} :
    t ∈ pushed F.meetOverridden v ↔ v.2 ∉ v.1 ∧ F.OverridesNext v.2 t := by
  unfold pushed meetOverridden OverridesNext
  by_cases hv : v.2 ∈ v.1
  · simp [hv]
  · rw [if_neg hv]
    cases ho : F.owner? v.2 <;> simp [hv]

/-- what has been met is what was visited, each symbol once for the first time -/
theorem met_run {tops met : List SymbolId} {vs : List (List SymbolId × SymbolId)}
    (h : Run F.meetOverridden tops [] vs met) :
    met = ((firstMeetings vs).map Prod.snd).reverse ∧ met.Nodup ∧ ∀ v ∈ vs, v.2 ∈ met := by
  induction h with
  | start => exact ⟨rfl, List.nodup_nil, fun v hv => absurd hv List.not_mem_nil⟩
  | @visit vs met s _ _ ih =>
    obtain ⟨hmet, hnodup, hvs⟩ := ih
    unfold meetOverridden firstMeetings at *
    by_cases hs : s ∈ met
    · rw [if_pos hs]
      refine ⟨by simpa [hs] using hmet, hnodup, fun v hv => ?_⟩
      rcases List.mem_append.mp hv with hv | hv
      · exact hvs v hv
      · rwa [List.mem_singleton.mp hv]
    · rw [if_neg hs]
      refine ⟨by simpa [hs] using hmet, List.nodup_cons.mpr ⟨hs, hnodup⟩, fun v hv => ?_⟩
      rcases List.mem_append.mp hv with hv | hv
      · exact List.mem_cons_of_mem _ (hvs v hv)
      · rw [List.mem_singleton.mp hv]
        exact List.mem_cons_self

/-- the walk goes on below symbols that it has not met, and those are bound -/
theorem cutAll_meetOverridden (tops : List SymbolId) :
    cutAll F.meetOverridden (F.symbols.size + 1) [] tops = [] := by
  refine cutAll_of_seen id id F.symbolIds (fun met s => ?_)
    (fun met s hon => ?_) ?_ _ _
  · unfold meetOverridden
    split
    · exact List.Subset.refl _
    · exact List.subset_cons_self _ _
  · obtain ⟨u, hu⟩ := List.exists_mem_of_ne_nil _ hon
    obtain ⟨hnew, d, ho, _⟩ := mem_pushed_meetOverridden.mp (show u ∈ pushed F.meetOverridden (met, s) from hu)
    refine ⟨hnew, ?_, mem_symbolIds.mpr (isSome_symbol?_of_owner? ho)⟩
    unfold meetOverridden
    rw [if_neg hnew]
    exact List.mem_cons_self
  · simp [symbolIds]

theorem run_overrideClosure (functions : List DeclarationId) :
    Run F.meetOverridden (functions.flatMap F.overriddenBy) []
      (visitsAll F.meetOverridden (F.symbols.size + 1) [] (functions.flatMap F.overriddenBy))
      (F.overrideClosure functions) :=
  run_walkAll (F.symbols.size + 1) _ .start (List.Subset.refl _)

/-- **What one of the functions overrides is found.** -/
theorem mem_overrideClosure {functions : List DeclarationId} {m : DeclarationId} {t : SymbolId}
    (hm : m ∈ functions) (h : F.Overrides m t) : t ∈ F.overrideClosure functions := by
  have hrun := F.run_overrideClosure functions
  have hperm := @visitsAll_perm _ _ F.meetOverridden (F.symbols.size + 1) []
    (functions.flatMap F.overriddenBy)
  rw [cutAll_meetOverridden, List.append_nil] at hperm
  generalize visitsAll F.meetOverridden (F.symbols.size + 1) []
    (functions.flatMap F.overriddenBy) = vs at hrun hperm
  obtain ⟨hmet, _, hvs⟩ := met_run hrun
  have hvisited : ∀ {s}, s ∈ functions.flatMap F.overriddenBy ++ vs.flatMap (pushed F.meetOverridden) →
      s ∈ F.overrideClosure functions := fun hs => by
    obtain ⟨v, hv, rfl⟩ := List.mem_map.mp (hperm.mem_iff.mpr hs)
    exact hvs v hv
  obtain ⟨s, hs, h⟩ := h
  induction h with
  | refl => exact hvisited (List.mem_append_left _ (List.mem_flatMap.mpr ⟨m, hm, hs⟩))
  | tail _ hnext ih =>
    -- the first visit of a symbol leads on to all that its owner overrides
    rw [hmet, List.mem_reverse] at ih
    obtain ⟨v, hv, rfl⟩ := List.mem_map.mp ih
    obtain ⟨hv, hnew⟩ := List.mem_filter.mp hv
    exact hvisited (List.mem_append_right _ (List.mem_flatMap.mpr
      ⟨v, hv, mem_pushed_meetOverridden.mpr ⟨of_decide_eq_true hnew, hnext⟩⟩))

/-- **Nothing else is found.** -/
theorem overrides_of_mem_overrideClosure {functions : List DeclarationId} {t : SymbolId}
    (h : t ∈ F.overrideClosure functions) : ∃ m ∈ functions, F.Overrides m t := by
  have hrun := F.run_overrideClosure functions
  generalize visitsAll F.meetOverridden (F.symbols.size + 1) []
    (functions.flatMap F.overriddenBy) = vs at hrun
  generalize F.overrideClosure functions = met at hrun h
  have hreached : ∀ v ∈ vs, ∃ s ∈ functions.flatMap F.overriddenBy,
      Relation.ReflTransGen F.OverridesNext s v.2 := by
    clear h
    induction hrun with
    | start => exact fun _ hv => absurd hv List.not_mem_nil
    | visit n _ hn ih =>
      intro v hv
      rcases List.mem_append.mp hv with hv | hv
      · exact ih v hv
      · rw [List.mem_singleton.mp hv]
        rcases hn with hn | ⟨u, hu, hn⟩
        · exact ⟨n, hn, .refl⟩
        · obtain ⟨s, hs, hsu⟩ := ih u hu
          exact ⟨s, hs, hsu.tail (mem_pushed_meetOverridden.mp hn).2⟩
  rw [(met_run hrun).1, List.mem_reverse] at h
  obtain ⟨v, hv, rfl⟩ := List.mem_map.mp h
  obtain ⟨s, hs, hst⟩ := hreached v (List.mem_filter.mp hv).1
  obtain ⟨m, hm, hsm⟩ := List.mem_flatMap.mp hs
  exact ⟨m, hm, s, hsm, hst⟩

/-! ## what is implemented -/

/-- a function of the class `d` or of a class above it overrides the function `m`, or has its name and
number of parameters and is not abstract -/
def Implemented (F : Forest) (d m : DeclarationId) (x : Declaration) : Prop :=
  ∃ b n, F.Inherits d b ∧ n ∈ F.memberFunctions b
    ∧ (F.Overrides n x.symbol ∨ F.isAbstract n = false ∧ F.callKey n = F.callKey m)

/-- **A class is given nothing that is implemented.** -/
theorem unimplemented_eq_nil (h : ∀ b m x, F.Inherits d b → b ≠ d → m ∈ F.memberFunctions b →
      F.isAbstract m = true → F.declaration? m = some x → x.origin = .defined →
      F.Implemented d m x) :
    F.unimplemented d (F.ancestors d) = [] := by
  unfold unimplemented
  refine List.filter_eq_nil_iff.mpr fun m hm hkept => ?_
  obtain ⟨b, hb, hm⟩ := List.mem_flatMap.mp hm
  obtain ⟨hinherits, hne⟩ := mem_ancestors.mp hb
  simp only [Bool.and_eq_true, Bool.not_eq_true', List.contains_eq_mem, decide_eq_false_iff_not]
    at hkept
  obtain ⟨⟨habstract, hdeclared⟩, hkey⟩ := hkept
  cases hx : F.declaration? m with
  | none => simp [hx] at hdeclared
  | some x =>
    simp only [hx, Option.any_some, Bool.and_eq_true, beq_iff_eq, Bool.not_eq_true',
      decide_eq_false_iff_not] at hdeclared
    obtain ⟨b', n, hb', hn, himplements⟩ := h b m x hinherits hne hm habstract hx hdeclared.1
    have hpresent : n ∈ (d :: F.ancestors d).flatMap F.memberFunctions := by
      refine List.mem_flatMap.mpr ⟨b', ?_, hn⟩
      by_cases e : b' = d
      · exact e ▸ List.mem_cons_self
      · exact List.mem_cons_of_mem _ (mem_ancestors.mpr ⟨hb', e⟩)
    rcases himplements with hoverrides | ⟨hconcrete, hsame⟩
    · exact hdeclared.2 (mem_overrideClosure hpresent hoverrides)
    · refine hkey (List.mem_map.mpr ⟨n, List.mem_filter.mpr ⟨hpresent, ?_⟩, hsame⟩)
      rw [hconcrete]
      rfl

end

end Forest

end LinkRepair
