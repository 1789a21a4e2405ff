import LinkRepair.Proofs.Repair.Problems
import LinkRepair.Forest.WellFormed
import LinkRepair.Proofs.Walk.Visits

/-!
# The sweep over expressions

The second sweep goes down from the roots to the outermost expressions with a problem, and puts a
call that raises a linkage error in the place of each.  Whether an expression has a problem was
settled before the sweep started, so the way that it takes was settled too.

* `Pass.rewritten`       the expressions that a pass has replaced, in the order in which it did;
* `Pass.Faulty`          an expression with a problem;
* `Pass.Outermost`       one that is reached without passing through another;
* `Pass.Rewrites p q`    the invariant: `q` differs from `p` by replaced expressions, which are
                         outermost ones, and by the arguments of the calls in their places;
* `repair_outermost`     all outermost ones are replaced, and no problem is left.
-/

namespace LinkRepair

def Node.expression? : Node → Option ExpressionId
  | .declaration _ => none
  | .expression e => some e

namespace Pass

def rewritten (p : Pass) : List ExpressionId := p.repairs.filterMap fun r => r.node.expression?

/-- an expression in which a problem is found -/
def Faulty (p : Pass) : Node → Prop
  | .declaration _ => False
  | .expression e => (p.forest.expressionProblem p.memo e).1 ≠ none

/-- the way on from a node; a faulty expression leads nowhere -/
def Open (p : Pass) (a n : Node) : Prop := ¬ p.Faulty a ∧ p.forest.Child a n

/-- reached from the roots with no faulty expression on the way -/
def Admits (p : Pass) (roots : List Root) (n : Node) : Prop :=
  ∃ d ∈ p.forest.tops roots, Relation.ReflTransGen p.Open (.declaration d) n

def Outermost (p : Pass) (roots : List Root) (e : ExpressionId) : Prop :=
  p.Faulty (.expression e) ∧ p.Admits roots (.expression e)

theorem summary_expressions (p : Pass) : p.summary.expressions = p.rewritten.length := by
  show p.repairs.countP Repair.isExpression = _
  unfold rewritten
  induction p.repairs with
  | nil => rfl
  | cons r l ih =>
    obtain ⟨n, problem, report⟩ := r
    cases n <;> simp [Repair.isExpression, Repair.isDeclaration, Node.expression?, ih]

structure Rewrites (I : Intrinsics) (roots : List Root) (p q : Pass) : Prop where
  forest : q.forest = { p.forest with expressions := q.forest.expressions }
  asked : p.forest.Asked p.memo q.memo
  size : p.forest.expressions.size ≤ q.forest.expressions.size
  nodup : q.rewritten.Nodup
  outermost : ∀ e ∈ q.rewritten, p.Outermost roots e
  kept : ∀ e x, p.forest.expression? e = some x → e ∉ q.rewritten → q.forest.expression? e = some x
  call : ∀ e ∈ q.rewritten, ∃ span a, q.forest.expression? e = some (I.callWith span a)
    ∧ p.forest.expression? a = none
  argument : ∀ e x, p.forest.expression? e = none → q.forest.expression? e = some x →
    ∃ span message, x = I.messageArgument span message

theorem Rewrites.refl {I : Intrinsics} {roots : List Root} {p : Pass} (h : p.rewritten = []) :
    Rewrites I roots p p where
  forest := rfl
  asked := .refl
  size := Nat.le_refl _
  nodup := h ▸ List.nodup_nil
  outermost := fun e he => absurd he (h ▸ List.not_mem_nil)
  kept := fun _ _ hx _ => hx
  call := fun e he => absurd he (h ▸ List.not_mem_nil)
  argument := by
    intro e x h h'
    rw [h] at h'
    cases h'

section
variable {cx : Context} {roots : List Root} {p q : Pass} {m : Memo} {e : ExpressionId}

theorem Faulty.isSome (h : p.Faulty (.expression e)) : (p.forest.expression? e).isSome := by
  cases hx : p.forest.expression? e with
  | none => exact absurd (by simp [Forest.expressionProblem, hx]) h
  | some x => rfl

/-! ## what a node is like during the sweep -/

theorem Rewrites.expressionProblem (h : Rewrites cx.intrinsics roots p q)
    (hs : p.memo.Sound p.forest) (hm : p.forest.Asked p.memo m) :
    ((q.forest.expressionProblem m e).1 = none
      ↔ ∀ x, q.forest.expression? e = some x → ∀ d ∈ x.demands, ¬ p.forest.Unmet p.memo d)
      ∧ p.forest.Asked p.memo (q.forest.expressionProblem m e).2 := by
  cases hx : q.forest.expression? e with
  | none => simp [Forest.expressionProblem, hx, hm]
  | some x =>
    have he : q.forest.expressionProblem m e = p.forest.firstProblem e m x.demands := by
      have hx' : q.forest.expressions[e.index]? = some x := hx
      rw [h.forest]
      exact Forest.expressionProblem_expressions hx'
    obtain ⟨hnone, hasked⟩ := Forest.firstProblem_spec e x.demands (hm.sound hs)
    rw [he]
    refine ⟨?_, hm.trans hasked⟩
    rw [hnone]
    simp [hm.unmet_iff hs]

/-- a problem is found just in the faulty expressions that were not replaced -/
theorem Rewrites.expressionProblem_iff (h : Rewrites cx.intrinsics roots p q)
    (hr : cx.intrinsics.Ready p) (hs : p.memo.Sound p.forest) (hm : p.forest.Asked p.memo m) :
    (q.forest.expressionProblem m e).1 = none
      ↔ (p.Faulty (.expression e) → e ∈ q.rewritten) := by
  rw [(h.expressionProblem hs hm).1]
  by_cases hmem : e ∈ q.rewritten
  · obtain ⟨span, a, hx, _⟩ := h.call e hmem
    refine ⟨fun _ _ => hmem, fun _ x hx' => ?_⟩
    obtain rfl := Option.some.inj (hx.symm.trans hx')
    exact hr.not_unmet_callWith span a
  · cases hx : p.forest.expression? e with
    | none =>
      refine ⟨fun _ hf => ?_, fun _ x hx' => ?_⟩
      · have := hf.isSome
        rw [hx] at this
        cases this
      · obtain ⟨span, message, rfl⟩ := h.argument e x hx hx'
        exact hr.not_unmet_messageArgument span message
    | some x =>
      have hfaulty : ¬ p.Faulty (.expression e) ↔ ∀ d ∈ x.demands, ¬ p.forest.Unmet p.memo d := by
        show ¬ ((p.forest.expressionProblem p.memo e).1 ≠ none) ↔ _
        rw [ne_eq, not_not, Forest.expressionProblem_fst_eq_none_iff hs]
        simp [hx]
      rw [h.kept e x hx hmem]
      simp only [Option.some.injEq, forall_eq', ← hfaulty, hmem, imp_false]

theorem Rewrites.isMissing (h : Rewrites cx.intrinsics roots p q) (s : SymbolId) :
    q.forest.isMissing s = p.forest.isMissing s := by
  rw [h.forest]
  rfl

theorem Rewrites.declaration? (h : Rewrites cx.intrinsics roots p q) (d : DeclarationId) :
    q.forest.declaration? d = p.forest.declaration? d := by
  rw [h.forest]
  rfl

theorem Rewrites.children_declaration (h : Rewrites cx.intrinsics roots p q) (d : DeclarationId) :
    q.forest.children (.declaration d) = p.forest.children (.declaration d) := by
  rw [h.forest]
  rfl

/-- below a node are those that were below it before, unless it was replaced or is new -/
theorem Rewrites.children_expression (h : Rewrites cx.intrinsics roots p q) :
    (e ∉ q.rewritten ∧ q.forest.children (.expression e) = p.forest.children (.expression e))
      ∨ ∀ n ∈ q.forest.children (.expression e), ∃ a, n = .expression a
        ∧ p.forest.expression? a = none := by
  by_cases hmem : e ∈ q.rewritten
  · obtain ⟨span, a, hx, ha⟩ := h.call e hmem
    refine .inr fun n hn => ⟨a, ?_, ha⟩
    rw [Forest.children_expression hx] at hn
    simpa [Intrinsics.callWith, Operation.children, Operation.operands, Access.operands] using hn
  · cases hx : p.forest.expression? e with
    | some x =>
      exact .inl ⟨hmem, by
        rw [Forest.children_expression hx, Forest.children_expression (h.kept e x hx hmem)]⟩
    | none =>
      refine .inr fun n hn => ?_
      cases hx' : q.forest.expression? e with
      | none => simp [Forest.children, hx'] at hn
      | some x =>
        obtain ⟨span, message, rfl⟩ := h.argument e x hx hx'
        rw [Forest.children_expression hx'] at hn
        simp [Intrinsics.messageArgument, Operation.children, Operation.operands] at hn

/-! ## one visit -/

/-- the sweep comes to nodes that it is led to, and to the arguments of the calls that it inserts -/
def Visitable (p : Pass) (roots : List Root) (n : Node) : Prop :=
  p.Admits roots n ∨ ∃ e, n = .expression e ∧ p.forest.expression? e = none

theorem rewritten_replaceExpression (file : Option FileId) (problem : Problem) :
    (q.replaceExpression cx file e problem).rewritten = q.rewritten ++ [e] := by
  simp [rewritten, replaceExpression, complain, Node.expression?]

variable (cx q e) in
/-- the argument of the call comes first, and then the call takes the place of the expression -/
theorem exists_forest_replaceExpression (file : Option FileId) (problem : Problem) :
    ∃ span, (q.replaceExpression cx file e problem).forest
      = (q.forest.addExpression (cx.intrinsics.messageArgument span
          (q.forest.problemText problem))).2.updateExpression e
        fun _ => cx.intrinsics.callWith span ⟨q.forest.expressions.size⟩ := ⟨_, rfl⟩

theorem expression?_replaceExpression {span : Span} {message : String} {G : Forest}
    (hG : G = (q.forest.addExpression (cx.intrinsics.messageArgument span message)).2.updateExpression e
      fun _ => cx.intrinsics.callWith span ⟨q.forest.expressions.size⟩)
    (he : (q.forest.expression? e).isSome) (a : ExpressionId) : G.expression? a
      = if e = a then some (cx.intrinsics.callWith span ⟨q.forest.expressions.size⟩)
        else if a = ⟨q.forest.expressions.size⟩ then
          some (cx.intrinsics.messageArgument span message)
        else q.forest.expression? a := by
  obtain ⟨x, hx⟩ := Option.isSome_iff_exists.mp he
  rw [hG, Forest.expression?_updateExpression]
  split
  · rename_i ea
    obtain rfl := ea
    rw [Forest.expression?_addExpression_of_some hx]
    rfl
  · exact Forest.expression?_addExpression _ _ _

theorem Rewrites.replaceExpression (h : Rewrites cx.intrinsics roots p q)
    (ho : p.Outermost roots e) (hmem : e ∉ q.rewritten) (file : Option FileId)
    (problem : Problem) :
    Rewrites cx.intrinsics roots p (q.replaceExpression cx file e problem) := by
  obtain ⟨x, hx⟩ := Option.isSome_iff_exists.mp ho.1.isSome
  have hq := h.kept e x hx hmem
  obtain ⟨span, hforest⟩ := exists_forest_replaceExpression cx q e file problem
  have hlook := expression?_replaceExpression hforest (Option.isSome_iff_exists.mpr ⟨x, hq⟩)
  generalize q.forest.problemText problem = message at hforest hlook
  have hnew : ∀ a y, q.forest.expression? a = some y → a ≠ ⟨q.forest.expressions.size⟩ := by
    rintro a y hy rfl
    simp [Forest.expression?] at hy
  have hnone : p.forest.expression? ⟨q.forest.expressions.size⟩ = none := by
    simpa [Forest.expression?] using h.size
  refine ⟨?_, h.asked, ?_, ?_, ?_, ?_, ?_, ?_⟩
  · rw [hforest]
    conv_lhs => rw [h.forest]
    rfl
  · rw [hforest]
    simp only [Forest.updateExpression, Forest.addExpression, Array.size_modify, Array.size_push]
    exact Nat.le_succ_of_le h.size
  · rw [rewritten_replaceExpression]
    exact List.nodup_append.mpr ⟨h.nodup, by simp, fun a ha b hb => by
      rw [List.mem_singleton.mp hb]
      rintro rfl
      exact hmem ha⟩
  · intro a ha
    rw [rewritten_replaceExpression] at ha
    rcases List.mem_append.mp ha with ha | ha
    · exact h.outermost a ha
    · rw [List.mem_singleton.mp ha]
      exact ho
  · intro a y hy ha
    rw [rewritten_replaceExpression, List.mem_append, not_or, List.mem_singleton] at ha
    have hay := h.kept a y hy ha.1
    rw [hlook, if_neg (Ne.symm ha.2), if_neg (hnew a y hay), hay]
  · intro a ha
    rw [hlook]
    rw [rewritten_replaceExpression] at ha
    rcases List.mem_append.mp ha with ha | ha
    · obtain ⟨span', b, hb, hbnone⟩ := h.call a ha
      refine ⟨span', b, ?_, hbnone⟩
      rw [if_neg (by rintro rfl; exact hmem ha), if_neg (hnew a _ hb), hb]
    · rw [if_pos (List.mem_singleton.mp ha).symm]
      exact ⟨span, _, rfl, hnone⟩
  · intro a y ha hy
    rw [hlook, if_neg (by rintro rfl; rw [hx] at ha; cases ha)] at hy
    split at hy
    · exact ⟨span, _, (Option.some.inj hy).symm⟩
    · exact h.argument a y ha hy

theorem Rewrites.withMemo (h : Rewrites cx.intrinsics roots p q) (hm : p.forest.Asked p.memo m) :
    Rewrites cx.intrinsics roots p { q with memo := m } :=
  ⟨h.forest, hm, h.size, h.nodup, h.outermost, h.kept, h.call, h.argument⟩

/-- what is found faulty during the sweep is outermost, and was not replaced yet -/
theorem Rewrites.outermost_of_problem (h : Rewrites cx.intrinsics roots p q)
    (hr : cx.intrinsics.Ready p) (hs : p.memo.Sound p.forest) (hn : p.Visitable roots (.expression e))
    (hproblem : (q.forest.expressionProblem q.memo e).1 ≠ none) :
    p.Outermost roots e ∧ e ∉ q.rewritten := by
  have hfaulty : p.Faulty (.expression e) ∧ e ∉ q.rewritten := by
    by_contra hcon
    refine hproblem ((h.expressionProblem_iff hr hs h.asked).mpr fun hf => ?_)
    by_contra hmem
    exact hcon ⟨hf, hmem⟩
  refine ⟨⟨hfaulty.1, ?_⟩, hfaulty.2⟩
  rcases hn with hn | ⟨e', he', hnone⟩
  · exact hn
  · obtain rfl := Node.expression.inj he'
    have := hfaulty.1.isSome
    rw [hnone] at this
    cases this

/-- **One visit.**  A faulty expression is replaced, and from other nodes the sweep goes on. -/
theorem Rewrites.enterExpression (h : Rewrites cx.intrinsics roots p q)
    (hr : cx.intrinsics.Ready p) (hs : p.memo.Sound p.forest) (file : Option FileId) {n : Node}
    (hn : p.Visitable roots n) :
    Rewrites cx.intrinsics roots p (Pass.enterExpression cx file q n).1
      ∧ (∀ b ∈ (Pass.enterExpression cx file q n).2, p.Visitable roots b)
      ∧ (∀ b, p.Open n b → b ∈ (Pass.enterExpression cx file q n).2)
      ∧ ∀ e, n = .expression e → p.Faulty n →
        e ∈ (Pass.enterExpression cx file q n).1.rewritten := by
  cases n with
  | declaration d =>
    refine ⟨h, fun b hb => ?_, fun b hb => ?_, fun e he => by cases he⟩
    · replace hb : b ∈ q.forest.children (.declaration d) := hb
      rw [h.children_declaration] at hb
      rcases hn with ⟨a, ha, hreach⟩ | ⟨e, he, _⟩
      · exact .inl ⟨a, ha, hreach.tail ⟨fun hf => hf, hb⟩⟩
      · cases he
    · show b ∈ q.forest.children (.declaration d)
      rw [h.children_declaration]
      exact hb.2
  | expression e =>
    obtain ⟨_, hasked⟩ := h.expressionProblem (e := e) hs h.asked
    have hiff := h.expressionProblem_iff (e := e) hr hs h.asked
    have houtermost := h.outermost_of_problem hr hs hn
    unfold Pass.enterExpression
    dsimp only
    generalize q.forest.expressionProblem q.memo e = found at hasked hiff houtermost
    obtain ⟨_ | problem, m'⟩ := found
    · have hfaulty := hiff.mp rfl
      have hdown := h.children_expression (e := e)
      refine ⟨h.withMemo hasked, fun b hb => ?_, fun b hb => ?_, ?_⟩
      · replace hb : b ∈ q.forest.children (.expression e) := hb
        rcases hdown with ⟨hmem, hch⟩ | hnew
        · rw [hch] at hb
          rcases hn with ⟨a, ha, hreach⟩ | ⟨e', he', hnone⟩
          · exact .inl ⟨a, ha, hreach.tail ⟨fun hf => hmem (hfaulty hf), hb⟩⟩
          · obtain rfl := Node.expression.inj he'
            simp [Forest.children, hnone] at hb
        · exact .inr (hnew b hb)
      · show b ∈ q.forest.children (.expression e)
        obtain ⟨hnf, hb⟩ := hb
        rcases hdown with ⟨_, hch⟩ | hnew
        · rwa [hch]
        · obtain ⟨x, hx⟩ := Option.isSome_iff_exists.mp hb.stores
          by_cases hmem : e ∈ q.rewritten
          · exact absurd (h.outermost e hmem).1 hnf
          · rw [Forest.children_expression (h.kept e x hx hmem), ← Forest.children_expression hx]
            exact hb
      · rintro e' he' hf
        obtain rfl := Node.expression.inj he'
        exact hfaulty hf
    · obtain ⟨ho, hmem⟩ := houtermost (Option.some_ne_none _)
      refine ⟨(h.withMemo hasked).replaceExpression ho hmem file problem,
        fun b hb => absurd hb List.not_mem_nil, fun b hb => absurd ho.1 hb.1, ?_⟩
      rintro e' he' _
      obtain rfl := Node.expression.inj he'
      dsimp only
      rw [rewritten_replaceExpression]
      exact List.mem_append_right _ (List.mem_singleton_self e)

/-! ## the whole sweep -/

/-- what was replaced stays in the account -/
theorem rewritten_subset_enterExpression (file : Option FileId) (n : Node) :
    q.rewritten ⊆ (Pass.enterExpression cx file q n).1.rewritten := by
  unfold Pass.enterExpression
  cases n with
  | declaration d => exact fun _ h => h
  | expression e =>
    dsimp only
    split
    · exact fun _ h => h
    · intro a ha
      rw [rewritten_replaceExpression]
      exact List.mem_append_left _ ha

theorem Open.stores {a n : Node} (h : p.Open a n) : a ∈ p.forest.stored :=
  Forest.mem_stored.mpr h.2.stores

theorem Rewrites.nodeCount_le (h : Rewrites cx.intrinsics roots p q) :
    p.forest.nodeCount ≤ q.forest.nodeCount := by
  have hd : q.forest.declarations.size = p.forest.declarations.size := by rw [h.forest]
  unfold Forest.nodeCount
  rw [hd]
  exact Nat.add_le_add_left h.size _

theorem Rewrites.rootDeclarations (h : Rewrites cx.intrinsics roots p q) (root : Root) :
    q.forest.rootDeclarations root = p.forest.rootDeclarations root := by
  rw [h.forest]
  rfl

/-- **The sweep below one root** replaces the outermost faulty expressions there. -/
theorem Rewrites.sweepExpressions (h : Rewrites cx.intrinsics roots p q)
    (hr : cx.intrinsics.Ready p) (hs : p.memo.Sound p.forest) {root : Root} (hroot : root ∈ roots) :
    Rewrites cx.intrinsics roots p (q.sweepExpressions cx root)
      ∧ q.rewritten ⊆ (q.sweepExpressions cx root).rewritten
      ∧ ∀ e, p.Outermost [root] e → e ∈ (q.sweepExpressions cx root).rewritten := by
  unfold Pass.sweepExpressions
  generalize Pass.rootFile q.forest root = file
  generalize hdepth : sweepDepth q.forest = depth
  generalize htops : (q.forest.rootDeclarations root).map Node.declaration = tops
  have hrun : Run (Pass.enterExpression cx file) tops q
      (visitsAll (Pass.enterExpression cx file) depth q tops) _ :=
    run_walkAll depth tops .start (List.Subset.refl tops)
  have hvisit : ∀ n ∈ tops, p.Visitable roots n := by
    intro n hn
    rw [← htops, h.rootDeclarations] at hn
    obtain ⟨d, hd, rfl⟩ := List.mem_map.mp hn
    exact .inl ⟨d, List.mem_flatMap.mpr ⟨root, hroot, hd⟩, .refl⟩
  obtain ⟨hend, _, hvs⟩ := hrun.invariant (P := Rewrites cx.intrinsics roots p)
    (N := fun _ => p.Visitable roots) (fun s n hP hN =>
      ⟨(hP.enterExpression hr hs file hN).1, (hP.enterExpression hr hs file hN).2.1⟩)
    (fun _ _ _ _ _ hN => hN) h hvisit
  obtain ⟨hsub, hafter⟩ := hrun.relates (R := fun s t => s.rewritten ⊆ t.rewritten)
    (fun _ _ h => h) (fun h h' => List.Subset.trans h h') fun v _ => rewritten_subset_enterExpression file v.2
  refine ⟨hend, hsub, fun e he => ?_⟩
  obtain ⟨hfaulty, d, hd, hreach⟩ := he
  obtain ⟨k, hk, _, hbelow⟩ := exists_below_length p.forest.stored (fun _ _ => Open.stores) hreach
  rw [Forest.length_stored] at hk
  have hd' : Node.declaration d ∈ tops := by
    rw [← htops, h.rootDeclarations]
    refine List.mem_map.mpr ⟨d, ?_, rfl⟩
    simpa [Forest.tops] using hd
  have hlt : k < depth := by
    have h₁ := nodeCount_add_four_le_sweepDepth q.forest
    have h₂ := h.nodeCount_le
    omega
  have hmem := mem_visitsAll_of_below (fun v hv b hb =>
    ((hvs v hv).1.enterExpression hr hs file (hvs v hv).2).2.2.1 b hb) hd' hbelow hlt
  obtain ⟨v, hv, hve⟩ := List.mem_map.mp hmem
  exact (hafter v hv).2
    (((hvs v hv).1.enterExpression hr hs file (hvs v hv).2).2.2.2 e hve (hve ▸ hfaulty))

theorem Rewrites.repairExpressions (hr : cx.intrinsics.Ready p) (hs : p.memo.Sound p.forest) :
    ∀ {rest : List Root} {q : Pass}, Rewrites cx.intrinsics roots p q → rest ⊆ roots →
      Rewrites cx.intrinsics roots p (LinkRepair.repairExpressions cx rest q)
        ∧ q.rewritten ⊆ (LinkRepair.repairExpressions cx rest q).rewritten
        ∧ ∀ e, p.Outermost rest e → e ∈ (LinkRepair.repairExpressions cx rest q).rewritten := by
  intro rest
  induction rest with
  | nil =>
    intro q h _
    refine ⟨h, fun _ h => h, ?_⟩
    rintro e ⟨_, d, hd, _⟩
    exact absurd hd List.not_mem_nil
  | cons root rest ih =>
    intro q h hsub
    obtain ⟨h₁, hsub₁, hout₁⟩ := h.sweepExpressions hr hs (hsub List.mem_cons_self)
    obtain ⟨h₂, hsub₂, hout₂⟩ := ih h₁ fun r hr => hsub (List.mem_cons_of_mem _ hr)
    refine ⟨h₂, fun a ha => hsub₂ (hsub₁ ha), ?_⟩
    rintro e ⟨hf, d, hd, hreach⟩
    rw [Forest.tops, List.flatMap_cons] at hd
    rcases List.mem_append.mp hd with hd | hd
    · exact hsub₂ (hout₁ e ⟨hf, d, by simpa [Forest.tops] using hd, hreach⟩)
    · exact hout₂ e ⟨hf, d, hd, hreach⟩

/-- what is reached in the end was let in, or is the argument of an inserted call -/
theorem Rewrites.visitable (h : Rewrites cx.intrinsics roots p q)
    (hall : ∀ e, p.Outermost roots e → e ∈ q.rewritten) {n : Node}
    (hn : q.forest.Reaches roots n) : p.Visitable roots n := by
  obtain ⟨d, hd, hreach⟩ := hn
  induction hreach with
  | refl =>
    refine .inl ⟨d, ?_, .refl⟩
    rw [show p.forest.tops roots = q.forest.tops roots by rw [h.forest]; rfl]
    exact hd
  | @tail a b _ hb ih =>
    cases a with
    | declaration a =>
      rcases ih with ⟨t, ht, hta⟩ | ⟨e, he, _⟩
      · unfold Forest.Child at hb
        rw [h.children_declaration] at hb
        exact .inl ⟨t, ht, hta.tail ⟨fun hf => hf, hb⟩⟩
      · cases he
    | expression e =>
      rcases h.children_expression (e := e) with ⟨hmem, hch⟩ | hnew
      · unfold Forest.Child at hb
        rw [hch] at hb
        rcases ih with ⟨t, ht, hta⟩ | ⟨e', he', hnone⟩
        · exact .inl ⟨t, ht, hta.tail ⟨fun hf => hmem (hall e ⟨hf, t, ht, hta⟩), hb⟩⟩
        · obtain rfl := Node.expression.inj he'
          simp [Forest.children, hnone] at hb
      · exact .inr (hnew b hb)

end

/-! ## both sweeps -/

/-- the first sweep replaces no expression -/
theorem rewritten_repairDeclarations (cx : Context) (roots : List Root) (F : Forest) :
    (repairDeclarations cx roots (.start F)).rewritten = [] := by
  obtain ⟨l, hl, hnode⟩ := (chain_repairDeclarations cx roots (.start F)).frames.repairs
  unfold rewritten
  rw [hl]
  apply List.filterMap_eq_nil_iff.mpr
  intro r hr
  obtain ⟨d, hd, _⟩ := hnode r (by simpa [Pass.start] using hr)
  rw [hd]
  rfl

section
variable {cx : Context} {F : Forest} (hI : cx.intrinsics.Intact F) (hF : F.ParentsKnown)
  (roots : List Root)
include hI hF

/-- the second sweep of a repair, and all that it comes to -/
theorem rewrites_and_reaches_repair :
    Rewrites cx.intrinsics roots (repairDeclarations cx roots (.start F)) (repair cx roots F)
      ∧ ∀ e, (repairDeclarations cx roots (.start F)).Outermost roots e →
        e ∈ (repair cx roots F).rewritten := by
  have hchain := chain_repairDeclarations cx roots (.start F)
  have hsane := (hchain.sane (sane_start hF)).1
  have hstart : Rewrites cx.intrinsics roots (repairDeclarations cx roots (.start F))
      (repairDeclarations cx roots (.start F)) := .refl (rewritten_repairDeclarations cx roots F)
  obtain ⟨hq, _, hall⟩ := hstart.repairExpressions (hI.ready hF hchain) hsane.sound
    (List.Subset.refl roots)
  exact ⟨hq, hall⟩

theorem rewrites_repair :
    Rewrites cx.intrinsics roots (repairDeclarations cx roots (.start F)) (repair cx roots F) :=
  (rewrites_and_reaches_repair hI hF roots).1

/-- just the outermost faulty expressions are replaced -/
theorem mem_rewritten_repair (e : ExpressionId) :
    e ∈ (repair cx roots F).rewritten ↔ (repairDeclarations cx roots (.start F)).Outermost roots e :=
  ⟨(rewrites_repair hI hF roots).outermost e, (rewrites_and_reaches_repair hI hF roots).2 e⟩

/-- no problem is found in an expression that is still reached -/
theorem expressionProblem_repair {m : Memo}
    (hm : (repair cx roots F).forest.Asked (repair cx roots F).memo m) {e : ExpressionId}
    (he : (repair cx roots F).forest.Reaches roots (.expression e)) :
    ((repair cx roots F).forest.expressionProblem m e).1 = none := by
  obtain ⟨hq, hall⟩ := rewrites_and_reaches_repair hI hF roots
  have hchain := chain_repairDeclarations cx roots (.start F)
  have hready := hI.ready hF hchain
  have hsane := (hchain.sane (sane_start hF)).1
  -- the sweep edits expressions only, so its questions are questions about the forest before it
  have hm' : (repairDeclarations cx roots (.start F)).forest.Asked
      (repairDeclarations cx roots (.start F)).memo m := by
    refine hq.asked.trans (Forest.asked_expressions (repair cx roots F).forest.expressions ?_)
    rw [← hq.forest]
    exact hm
  apply (hq.expressionProblem_iff hready hsane.sound hm').mpr
  intro hf
  rcases hq.visitable hall he with hn | ⟨e', he', hnone⟩
  · exact hall e ⟨hf, hn⟩
  · obtain rfl := Node.expression.inj he'
    have := hf.isSome
    rw [hnone] at this
    cases this

end

/-- **The second sweep replaces just the outermost faulty expressions**, each once, by calls that
raise a linkage error, and leaves the others as they are.  Afterwards no problem is found in any
expression that is still reached, those calls and their arguments included. -/
theorem repair_outermost {cx : Context} {F : Forest} (hI : cx.intrinsics.Intact F)
    (hF : F.ParentsKnown) (roots : List Root) :
    let p := repairDeclarations cx roots (.start F)
    let q := repair cx roots F
    (∀ e, e ∈ q.rewritten ↔ p.Outermost roots e)
      ∧ q.rewritten.Nodup ∧ q.summary.expressions = q.rewritten.length
      ∧ (∀ e x, p.forest.expression? e = some x → q.forest.expression? e = some x
        ∨ e ∈ q.rewritten ∧ ∃ y, q.forest.expression? e = some y ∧ y.isLinkageError = true
          ∧ cx.intrinsics.isLinkageErrorCall y = true)
      ∧ ∀ m, q.forest.Asked q.memo m → ∀ e, q.forest.Reaches roots (.expression e) →
        (q.forest.expressionProblem m e).1 = none := by
  intro p q
  have hq : Rewrites cx.intrinsics roots p q := rewrites_repair hI hF roots
  refine ⟨mem_rewritten_repair hI hF roots, hq.nodup, summary_expressions _, fun e x hx => ?_,
    fun _ hm _ he => expressionProblem_repair hI hF roots hm he⟩
  by_cases hmem : e ∈ q.rewritten
  · obtain ⟨span, a, hy, _⟩ := hq.call e hmem
    exact .inr ⟨hmem, _, hy, rfl, cx.intrinsics.isLinkageErrorCall_callWith span a⟩
  · exact .inl (hq.kept e x hx hmem)

end Pass

/-! ## an expression below two others -/

namespace Forest

/-- the body of `host` is a broken block, which holds the class `A`; its abstract function `m` has the
class `X` in the place of a parameter, and the function `g` in there is a broken constant.  The class
`C` extends `A`, so it is given a copy of `m`, below which `g` is met a second time. -/
def twoWays : Forest :=
  let base := (named "lib").installIntrinsics
  let unit := base.1.unitType
  let file := base.2.newFile "pkg" "a.kt" ""
  let gone := file.2.newMissingSymbol "pkg" .classLike "Gone"
  let broken := TypeRef.simple gone.1
  let host := gone.2.newFunction "pkg" (.file file.1) "host" unit
  let a := host.2.newClass "pkg" (.declaration host.1) "A" .interface
  let m := a.2.newFunction "pkg" (.declaration a.1) "m" unit
  let x := m.2.newClass "pkg" (.declaration m.1) "X" .plain
  let g := x.2.newFunction "pkg" (.declaration x.1) "g" unit
  let inner := g.2.newExpression (.constant .null) broken
  let outer := (inner.2.setBody g.1 [.expression inner.1]).newExpression
    (.block [.declaration a.1] none) broken
  let c := (outer.2.setBody host.1 [.expression outer.1]).newClass "pkg" (.file file.1) "C" .plain
  (c.2.addSuperType c.1 ((c.2.typeOf a.1).getD unit)).updateDeclaration m.1 <| Declaration.mapFunction fun f =>
    { f with modality := .abstract, body := none, valueParameters := [x.1] }

/-- the context of a repair of `twoWays` -/
def twoWaysContext : Context := ⟨(named "lib").installIntrinsics.1, .warning⟩

theorem intact_twoWays : twoWaysContext.intrinsics.Intact twoWays :=
  (intact_installIntrinsics _).mono ⟨_, rfl⟩ ⟨_, rfl⟩

end Forest

namespace Pass

open Forest in
/-- both broken expressions of `twoWays` are outermost, and both are replaced -/
theorem repair_outermost_twoWays :
    twoWaysContext.intrinsics.Intact twoWays ∧ twoWays.ParentsKnown
      ∧ (repair twoWaysContext [.file ⟨1⟩] twoWays).rewritten = [⟨1⟩, ⟨0⟩]
      ∧ (repairDeclarations twoWaysContext [.file ⟨1⟩] (.start twoWays)).Outermost [.file ⟨1⟩] ⟨0⟩ := by
  have hP : twoWays.ParentsKnown := by decide +kernel
  have hr : (repair twoWaysContext [.file ⟨1⟩] twoWays).rewritten = [⟨1⟩, ⟨0⟩] := by decide +kernel
  refine ⟨intact_twoWays, hP, hr, ?_⟩
  exact ((repair_outermost intact_twoWays hP [.file ⟨1⟩]).1 ⟨0⟩).mp (by rw [hr]; decide)

open Forest in
/-- the constant is replaced although it is also below the block, which is broken itself -/
theorem rewritten_twoWays_below_faulty :
    let p := repairDeclarations twoWaysContext [.file ⟨1⟩] (.start twoWays)
    let q := repair twoWaysContext [.file ⟨1⟩] twoWays
    twoWays.defects = [] ∧ twoWaysContext.intrinsics.Intact twoWays
      ∧ p.forest.Reaches [.file ⟨1⟩] (.expression ⟨0⟩)
      ∧ ¬ (⟨0⟩ ∈ q.rewritten ↔ p.Faulty (.expression ⟨0⟩)
        ∧ ∀ a, Relation.TransGen p.forest.Child (.expression a) (.expression ⟨0⟩) →
          ¬ p.Faulty (.expression a)) := by
  intro p q
  have hchild : ∀ a b, b ∈ p.forest.children a → p.forest.Child a b := fun _ _ h => h
  -- the way down from the block to the constant
  have hway : Relation.TransGen p.forest.Child (.expression ⟨1⟩) (.expression ⟨0⟩) :=
    .head (hchild _ (.declaration ⟨7⟩) (by decide +kernel)) <|
    .head (hchild _ (.declaration ⟨8⟩) (by decide +kernel)) <|
    .head (hchild _ (.declaration ⟨9⟩) (by decide +kernel)) <|
    .head (hchild _ (.declaration ⟨10⟩) (by decide +kernel)) <|
    .single (hchild _ _ (by decide +kernel))
  have hfaulty : p.Faulty (.expression ⟨1⟩) := by
    show (p.forest.expressionProblem p.memo ⟨1⟩).1 ≠ none
    decide +kernel
  refine ⟨by decide +kernel, intact_twoWays, ⟨⟨6⟩, by decide +kernel, ?_⟩, fun h => ?_⟩
  · exact .head (hchild _ (.expression ⟨1⟩) (by decide +kernel)) hway.to_reflTransGen
  · exact (h.mp (by decide +kernel)).2 ⟨1⟩ hway hfaulty

end Pass

end LinkRepair
