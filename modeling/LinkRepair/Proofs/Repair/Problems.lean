import LinkRepair.Proofs.Repair.Intrinsics

/-!
# The problems of expressions

Whether an expression has a problem depends on what it demands, on the declarations, and on what is
tainted; not on what was asked before, and not on other expressions.

* `Forest.Unmet`                          a demand that is not met;
* `expressionProblem_fst_eq_none_iff`     an expression has no problem when all its demands are met;
* `expressionProblem_expressions`         other expressions do not matter;
* `Intrinsics.Ready.not_unmet_callWith`   a linkage error makes no demand that is not met.
-/

namespace LinkRepair

namespace Forest

/-! ## demands -/

/-- one of the classifiers is tainted -/
def SomeTainted (F : Forest) (m : Memo) (l : List SymbolId) : Prop := ∃ s ∈ l, F.Tainted m s

def Unmet (F : Forest) (m : Memo) : Demand → Prop
  | .type t => F.SomeTainted m t.mentioned
  | .symbol s => F.isMissing s = true ∨ ∃ d x, F.owner? s = some d ∧ F.declaration? d = some x
      ∧ F.SomeTainted m (F.suspects s d x)

section
variable {F : Forest} {m m' : Memo} {e : ExpressionId}

theorem exploreFirst_fst_eq_none (h : m.Sound F) {l : List SymbolId} :
    (F.exploreFirst m l).1 = none ↔ ¬ F.SomeTainted m l := by
  rw [exploreFirst_fst_eq_none_iff h]
  simp [SomeTainted]

theorem asProblem_fst {accuse : Cause → Problem} {answer : Verdict × Memo} :
    (asProblem accuse answer).1 = none ↔ answer.1 = none := by
  simp [asProblem]

theorem symbolProblem_spec (h : m.Sound F) (s : SymbolId) :
    ((F.symbolProblem e m s).1 = none ↔ ¬ F.Unmet m (.symbol s))
      ∧ F.Asked m (F.symbolProblem e m s).2 := by
  unfold symbolProblem Unmet
  by_cases hm : F.isMissing s = true
  · simp [hm, Asked.refl]
  · rw [if_neg hm]
    cases ho : F.owner? s with
    | none => simp [hm, ho, Asked.refl]
    | some d =>
      dsimp only
      cases hx : F.declaration? d with
      | none => simp [hm, ho, hx, Asked.refl]
      | some x =>
        dsimp only
        refine ⟨?_, asked_exploreFirst F _ m⟩
        rw [asProblem_fst, exploreFirst_fst_eq_none h]
        simp [hm, ho, hx]

theorem demandProblem_spec (h : m.Sound F) (demand : Demand) :
    ((F.demandProblem e m demand).1 = none ↔ ¬ F.Unmet m demand)
      ∧ F.Asked m (F.demandProblem e m demand).2 := by
  cases demand with
  | type t => exact ⟨asProblem_fst.trans (exploreFirst_fst_eq_none h), asked_exploreFirst F _ m⟩
  | symbol s => exact symbolProblem_spec h s

theorem Asked.unmet_iff (ha : F.Asked m m') (h : m.Sound F) {demand : Demand} :
    F.Unmet m' demand ↔ F.Unmet m demand := by
  cases demand <;> simp only [Unmet, SomeTainted, ha.tainted_iff h]

/-- a list of demands has no problem when each of them is met -/
theorem firstProblem_spec (e : ExpressionId) : ∀ (demands : List Demand) {m : Memo}, m.Sound F →
    ((F.firstProblem e m demands).1 = none ↔ ∀ d ∈ demands, ¬ F.Unmet m d)
      ∧ F.Asked m (F.firstProblem e m demands).2 := by
  intro demands
  induction demands with
  | nil => intro m _; exact ⟨by simp [firstProblem], .refl⟩
  | cons demand rest ih =>
    intro m h
    obtain ⟨hnone, hasked⟩ := demandProblem_spec (e := e) h demand
    unfold firstProblem
    generalize F.demandProblem e m demand = answer at hnone hasked
    obtain ⟨_ | problem, m'⟩ := answer
    · obtain ⟨hrest, hasked'⟩ := ih (hasked.sound h)
      refine ⟨?_, hasked.trans hasked'⟩
      simp only [hrest, hasked.unmet_iff h, List.forall_mem_cons, hnone.mp rfl, true_and,
        not_false_eq_true]
    · refine ⟨?_, hasked⟩
      have : F.Unmet m demand := by
        by_contra hmet
        exact absurd (hnone.mpr hmet) (Option.some_ne_none _)
      simp [this]

/-- **An expression has no problem when all its demands are met.** -/
theorem expressionProblem_fst_eq_none_iff (h : m.Sound F) :
    (F.expressionProblem m e).1 = none
      ↔ ∀ x, F.expression? e = some x → ∀ d ∈ x.demands, ¬ F.Unmet m d := by
  unfold expressionProblem
  cases F.expression? e with
  | none => simp
  | some x =>
    rw [(firstProblem_spec e x.demands h).1]
    simp

end

/-! ## other expressions -/

section
variable (F : Forest) (es : Array Expression)

theorem standing_expressions : ({ F with expressions := es } : Forest).standing = F.standing := rfl

theorem exploreWithin_expressions (bound : Nat) :
    ({ F with expressions := es } : Forest).exploreWithin bound = F.exploreWithin bound := by
  induction bound with
  | zero => rfl
  | succ bound ih =>
    funext path memo s
    simp only [exploreWithin, ih, standing_expressions]

theorem explore_expressions : ({ F with expressions := es } : Forest).explore = F.explore := by
  funext memo s
  simp only [explore, exploreWithin_expressions]

theorem exploreFirst_expressions :
    ({ F with expressions := es } : Forest).exploreFirst = F.exploreFirst := by
  funext memo l
  induction l generalizing memo with
  | nil => rfl
  | cons s rest ih => simp only [exploreFirst, explore_expressions, ih]

theorem demandProblem_expressions (e : ExpressionId) (memo : Memo) (demand : Demand) :
    ({ F with expressions := es } : Forest).demandProblem e memo demand
      = F.demandProblem e memo demand := by
  cases demand with
  | type t => simp only [demandProblem, exploreType, exploreFirst_expressions]
  | symbol s =>
    simp only [demandProblem, symbolProblem, exploreFirst_expressions]
    rfl

theorem firstProblem_expressions (e : ExpressionId) :
    ({ F with expressions := es } : Forest).firstProblem e = F.firstProblem e := by
  funext memo demands
  induction demands generalizing memo with
  | nil => rfl
  | cons demand rest ih => simp only [firstProblem, demandProblem_expressions, ih]

variable {F}

theorem asked_expressions {m m' : Memo} (h : ({ F with expressions := es } : Forest).Asked m m') :
    F.Asked m m' := by
  induction h with
  | refl => exact .refl
  | symbol _ s ih =>
    rw [explore_expressions]
    exact .symbol ih s
  | type _ t ih =>
    unfold exploreType
    rw [exploreFirst_expressions]
    exact .type ih t

variable {es}

/-- **Other expressions do not matter** to what an expression demands. -/
theorem expressionProblem_expressions {e : ExpressionId} {x : Expression} {m : Memo}
    (h : es[e.index]? = some x) :
    ({ F with expressions := es } : Forest).expressionProblem m e = F.firstProblem e m x.demands := by
  unfold expressionProblem
  rw [show ({ F with expressions := es } : Forest).expression? e = some x from h,
    firstProblem_expressions]

end

end Forest

/-! ## the class of an entry -/

/-- the class that answers for an enum entry stays the same -/
theorem Pass.Frames.entryClassSymbol?_eq {I : Intrinsics} {T K : DeclarationId → Prop} {p q : Pass}
    (h : Pass.Frames I T K p q) (hP : p.forest.ParentsKnown) {d : DeclarationId} {x : Declaration}
    (hx : p.forest.declaration? d = some x)
    (hbelow : ∀ n, p.forest.Child (.declaration d) n → p.forest.Stores n) {entry : EnumEntryInfo}
    (hc : x.content = .ofEnumEntry entry) :
    q.forest.entryClassSymbol? d entry = p.forest.entryClassSymbol? d entry := by
  unfold Forest.entryClassSymbol?
  rw [h.parentDeclaration? hx]
  cases hb : entry.class?.or (p.forest.parentDeclaration? d) with
  | none => rfl
  | some b =>
    have hstored : (p.forest.declaration? b).isSome := by
      rcases Option.or_eq_some_iff.mp hb with hb | ⟨_, hb⟩
      · exact hbelow (.declaration b) (Forest.child_of_content hx hc (by simp [Content.children, hb]))
      · exact hP d x b hx (by simpa [Forest.parentDeclaration?, hx] using hb)
    obtain ⟨w, y, hw, hy, hbecomes⟩ := h.exists_becomes hstored
    rw [Option.bind_some, Option.bind_some, hy, hw, Option.map_some, Option.map_some, hbecomes.symbol]

/-! ## what is inserted -/

section
variable {I : Intrinsics} {p : Pass}

theorem not_someTainted_simple {s : SymbolId} (h : ¬ p.forest.Tainted p.memo s) :
    ¬ p.forest.SomeTainted p.memo (TypeRef.simple s).mentioned := by
  rintro ⟨t, ht, htaint⟩
  rw [TypeRef.mentioned_simple, List.mem_singleton] at ht
  exact h (ht ▸ htaint)

/-- the call of a linkage error demands nothing that is not met -/
theorem Intrinsics.Ready.not_unmet_callWith (h : I.Ready p) (span : Span)
    (argument : ExpressionId) :
    ∀ d ∈ (I.callWith span argument).demands, ¬ p.forest.Unmet p.memo d := by
  intro demand hd
  have hcases : demand = .type I.nothingType ∨ demand = .symbol I.linkageError := by
    simp only [Expression.demands, Intrinsics.callWith, Operation.demands, Access.typeDemands,
      Access.types, Option.toList_none, List.filterMap_nil, List.map_nil, List.nil_append,
      List.cons_append, List.mem_cons, List.not_mem_nil, or_false] at hd
    rcases hd with h | h | h
    · exact .inl h
    · exact .inr h
    · exact .inl h
  rcases hcases with rfl | rfl
  · exact not_someTainted_simple h.nothing
  · obtain ⟨d, x, f, ho, hx, horigin, hf, hblamed⟩ := h.linkageError
    rintro (hm | ⟨d', x', ho', hx', s, hs, htaint⟩)
    · simp [Forest.isMissing, Forest.definition?, ho, hx, horigin] at hm
    · obtain rfl := Option.some.inj (ho.symm.trans ho')
      obtain rfl := Option.some.inj (hx.symm.trans hx')
      simp only [Forest.suspects, hf] at hs
      exact hblamed s hs htaint

/-- nor does its argument -/
theorem Intrinsics.Ready.not_unmet_messageArgument (h : I.Ready p) (span : Span)
    (message : String) :
    ∀ d ∈ (I.messageArgument span message).demands, ¬ p.forest.Unmet p.memo d := by
  intro demand hd
  have : demand = .type I.stringType := by
    simpa [Expression.demands, Intrinsics.messageArgument, Operation.demands] using hd
  rw [this]
  exact not_someTainted_simple h.string

end

end LinkRepair
