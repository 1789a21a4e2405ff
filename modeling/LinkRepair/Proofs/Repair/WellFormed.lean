import LinkRepair.Proofs.Repair.Offshoots
import LinkRepair.Proofs.Repair.Visits

/-!
# A repair keeps forests well-formed

Every step of the first sweep and every visit of the second one makes new branches: what it puts into the
forest hangs in one place.  So a forest that is well-formed stays so.

* `Step.branches`             every step of the first sweep makes new branches;
* `branches_enterExpression`  and so does every visit of the second one;
* `repair_defects_eq_nil`     a forest without defects has none when it is repaired.
-/

namespace LinkRepair

/-- an edit of a signature lists nothing anew -/
theorem Declaration.Amends.children {I : Intrinsics} {F : Forest} {m : Memo}
    {x y : Declaration} (h : x.Amends I F m y) : y.content.children.Sublist x.content.children := by
  obtain ⟨_, _, _, _, _, content⟩ := x
  cases h <;> cases content <;> first | exact List.Sublist.refl _ | exact List.nil_sublist _

namespace Pass

section
variable {cx : Context} {c : Scope} {F : Forest} {roots : List Root} {p q : Pass}

theorem Frames.retains {I : Intrinsics} {T K : DeclarationId → Prop} (h : Frames I T K p q) :
    p.forest.Retains q.forest where
  files := h.files
  stores := fun n hn => by
    cases n with
    | declaration d => exact h.isSome hn
    | expression e =>
      obtain ⟨x, hx⟩ := Option.isSome_iff_exists.mp hn
      exact Option.isSome_iff_exists.mpr ⟨x, h.expression? e x hx⟩
  parentLink? := fun d hd => by
    obtain ⟨x, y, hx, hy, hb⟩ := h.exists_becomes hd
    simp [Forest.parentLink?, hx, hy, hb.parent]
  symbolOwner? := fun d hd => by
    obtain ⟨x, hx, ho⟩ := Option.bind_eq_some_iff.mp hd
    obtain ⟨y, hy, hb, _⟩ := h.declaration? d x hx
    exact Option.bind_eq_some_iff.mpr ⟨y, hy, h.owner? (hb.symbol ▸ ho)⟩
  fresh := fun d hd hd' => by
    obtain ⟨y, hy⟩ := Option.isSome_iff_exists.mp hd'
    exact Option.bind_eq_some_iff.mpr ⟨y, hy, (h.fresh d y hd hy).owner⟩

/-! ## the first sweep -/

/-- what raises a problem is given a call, which lists its argument -/
theorem exists_called (cx : Context) (p : Pass) (problem : Problem) (d : DeclarationId) : ∃ H : Forest,
    (p.raiseIn cx problem d).forest = H.updateDeclaration d
        (Declaration.withBody [.expression ⟨p.forest.expressions.size + 1⟩])
      ∧ H.expressions.size = p.forest.expressions.size + 2
      ∧ ∀ a, H.children a = if a = .expression ⟨p.forest.expressions.size + 1⟩ then
          [.expression ⟨p.forest.expressions.size⟩] else p.forest.children a := by
  obtain ⟨span, message, e⟩ := Forest.raiseIn_forest cx p problem d
  have hargument := Forest.children_addExpression_messageArgument (F := p.forest) cx.intrinsics span message
  have hsize : (p.forest.addExpression (cx.intrinsics.messageArgument span message)).2.expressions.size
      = p.forest.expressions.size + 1 := by simp [Forest.addExpression]
  rw [hsize] at e
  refine ⟨_, e, by simp [Forest.addExpression], fun a => ?_⟩
  rw [Forest.children_addExpression, Forest.children_callWith, hsize, hargument]

/-- a call hangs below the declaration that raises it, and its argument below the call -/
theorem branches_raiseIn {d : DeclarationId} {problem : Problem} (hC : p.forest.ChildrenKnown)
    (hr : p.forest.Retains (p.raiseIn cx problem d).forest) :
    p.forest.Branches (p.raiseIn cx problem d).forest := by
  obtain ⟨H, e, hsize, hcall⟩ := exists_called cx p problem d
  rw [e] at hr ⊢
  obtain ⟨kept, l, hkept, hl, hd⟩ := H.exists_children_withBody d ⟨p.forest.expressions.size + 1⟩
  rw [hcall, if_neg (by simp)] at hkept
  have hnew : ∀ i, p.forest.expressions.size ≤ i → i < p.forest.expressions.size + 2 → ∀ a,
      p.forest.NewBelow (H.updateDeclaration d (Declaration.withBody
        [.expression ⟨p.forest.expressions.size + 1⟩])) a (.expression ⟨i⟩) := fun i hge hlt a =>
    ⟨Forest.not_stores_expression hge, Forest.expression?_isSome.mpr (hsize ▸ hlt),
      fun e he => by cases he⟩
  refine hC.branches_of_two hr (u := .declaration d) (l := l)
    (v := .expression ⟨p.forest.expressions.size + 1⟩) (k := [.expression ⟨p.forest.expressions.size⟩])
    (fun a => ?_) (by rcases hl with rfl | rfl <;> simp) (List.nodup_singleton _) (fun n hn hmem => ?_)
    (fun n hn => ?_) fun n hn => ?_
  · by_cases ha : a = .declaration d
    · subst ha
      exact ⟨kept, hkept, by rw [hd, if_pos rfl]⟩
    · rw [if_neg ha, Forest.children_updateDeclaration_of_ne ha, hcall]
      split
      · exact ⟨[], List.nil_sublist _, rfl⟩
      · exact ⟨_, List.Sublist.refl _, (List.append_nil _).symm⟩
  · rw [List.mem_singleton.mp hmem] at hn
    rcases hl with rfl | rfl <;> simp at hn
  · rcases hl with rfl | rfl
    · exact absurd hn List.not_mem_nil
    · rw [List.mem_singleton.mp hn]
      exact hnew _ (Nat.le_succ _) (Nat.lt_succ_self _) _
  · rw [List.mem_singleton.mp hn]
    exact hnew _ (Nat.le_refl _) (by omega) _

/-- **Every step makes new branches.** -/
theorem Step.branches (h : Step cx c p q) (hC : p.forest.ChildrenKnown)
    (hm : ∀ m f, p.forest.Offers c.heirs m → p.forest.function? m = some f →
      p.forest.Bears True f) : p.forest.Branches q.forest := by
  have hr := h.frames.retains
  cases h with
  | ask => exact hC.branches_refl
  | examine => exact hC.branches_refl
  | @amend d g _ hg =>
    refine hC.branches_of_sublist hr fun a => ?_
    show ((p.forest.updateDeclaration d g).children a).Sublist _
    by_cases ha : a = .declaration d
    · subst ha
      cases hx : p.forest.declaration? d with
      | none =>
        rw [Forest.children_eq_nil (F := p.forest.updateDeclaration d g)]
        · exact List.nil_sublist _
        · rw [Forest.declaration?_updateDeclaration, if_pos rfl, hx]
          rfl
      | some x =>
        rw [Forest.children_updateDeclaration hx, Forest.children_declaration hx]
        exact (hg x hx).children
    · rw [Forest.children_updateDeclaration_of_ne ha]
  | initializer => exact Forest.branches_newInitializer hC hr
  | raise => exact branches_raiseIn hC hr
  | member _ ho =>
    refine Forest.branches_copyMember hC hr fun f hf => ?_
    obtain ⟨ht, hp⟩ := hm _ f ho hf
    exact ⟨fun t hmem => by
      obtain ⟨x, info, hx, hinfo, _⟩ := ht t hmem
      exact ⟨x, info, hx, hinfo⟩, hp⟩

theorem Grafted.branches (h : p.Grafted cx.intrinsics True F) (hF : F.Bequests True roots)
    (hheirs : ∀ r, c.heirs r → F.Known roots (.declaration r)) (hc : Chain cx c p q)
    (hC : p.forest.ChildrenKnown) : p.forest.Branches q.forest := by
  induction hc with
  | refl => exact hC.branches_refl
  | tail hc hs ih =>
    have hg := h.chain hF hheirs hc
    exact ih.trans (hs.branches ih.childrenKnown fun m f hm hf => hg.bears_of_offers hF hheirs hm hf)

variable (cx) in
/-- **The first sweep makes new branches**, wherever it goes, up to every visit and to the end. -/
theorem branches_visit (hF : F.Bequests True roots) (hC : F.ChildrenKnown) :
    F.Branches (repairDeclarations cx roots (.start F)).forest
      ∧ ∀ v ∈ declarationVisits cx roots (.start F), F.Branches v.1.forest := by
  have hstep : ∀ p n, (p.Grafted cx.intrinsics True F ∧ F.Branches p.forest) → F.Known roots n →
      ((Pass.enterDeclaration cx p n).1.Grafted cx.intrinsics True F
        ∧ F.Branches (Pass.enterDeclaration cx p n).1.forest)
      ∧ ∀ m ∈ (Pass.enterDeclaration cx p n).2, F.Known roots m := by
    intro p n hp hn
    have hg := hp.1.enterDeclaration hF hn
    refine ⟨⟨hg, hp.2.trans (hp.1.branches hF (fun r hr => ?_) (chain_enterDeclaration n)
      hp.2.childrenKnown)⟩, fun m hm => hg.known_child hn (mem_pushed_enterDeclaration (v := (p, n)) hm)⟩
    rw [← show n = .declaration r from hr]
    exact hn
  obtain ⟨hend, _, hvs⟩ := (run_sweep cx F roots).invariant
    (P := fun p => p.Grafted cx.intrinsics True F ∧ F.Branches p.forest) (N := fun _ => F.Known roots)
    hstep (fun _ _ _ _ _ hm => hm) ⟨grafted_start F, hC.branches_refl⟩
    fun n => Forest.known_of_mem_topNodes
  exact ⟨hend.2, fun v hv => (hvs v hv).1.2⟩

/-! ## the second sweep -/

/-- more expressions, or others -/
theorem retains_expressions {es : Array Expression} (h : F.expressions.size ≤ es.size) :
    F.Retains { F with expressions := es } where
  files := rfl
  stores := fun n hn => by
    cases n with
    | declaration d => exact hn
    | expression e =>
      exact Forest.expression?_isSome.mpr (Nat.lt_of_lt_of_le (Forest.expression?_isSome.mp hn) h)
  parentLink? := fun _ _ => rfl
  symbolOwner? := fun _ hd => hd
  fresh := fun d hd hd' => by
    rw [show ({ F with expressions := es } : Forest).declaration? d = F.declaration? d from rfl, hd] at hd'
    cases hd'

theorem exists_call_replaceExpression (cx : Context) (p : Pass) (file : Option FileId) (e : ExpressionId)
    (problem : Problem) : ∃ span message, (p.replaceExpression cx file e problem).forest
      = (p.forest.addExpression (cx.intrinsics.messageArgument span message)).2.updateExpression e
        fun _ => cx.intrinsics.callWith span ⟨p.forest.expressions.size⟩ := ⟨_, _, rfl⟩

/-- where an expression is replaced, no other node lists anything new -/
theorem children_replaceExpression (file : Option FileId) {e : ExpressionId} (problem : Problem) {a : Node}
    (ha : a ≠ .expression e) :
    (p.replaceExpression cx file e problem).forest.children a = p.forest.children a := by
  obtain ⟨span, message, hforest⟩ := exists_call_replaceExpression cx p file e problem
  rw [hforest, ← Forest.children_addExpression_messageArgument (F := p.forest) cx.intrinsics span message]
  cases a with
  | declaration d => rfl
  | expression b =>
    unfold Forest.children
    simp only [Forest.expression?_updateExpression, if_neg fun h : e = b => ha (by rw [h])]

/-- an expression lists the argument of the call that takes its place, and nothing else -/
theorem branches_replaceExpression (hC : p.forest.ChildrenKnown) (file : Option FileId)
    {e : ExpressionId} (he : (p.forest.expression? e).isSome) (problem : Problem) :
    p.forest.Branches (p.replaceExpression cx file e problem).forest := by
  obtain ⟨span, message, hforest⟩ := exists_call_replaceExpression cx p file e problem
  rw [hforest]
  obtain ⟨x, hx⟩ := Option.isSome_iff_exists.mp he
  have hargument := Forest.children_addExpression_messageArgument (F := p.forest) cx.intrinsics span message
  have hx' := Forest.expression?_addExpression_of_some (x := cx.intrinsics.messageArgument span message) hx
  have hother : ∀ a, a ≠ .expression e → ((p.forest.addExpression (cx.intrinsics.messageArgument span
      message)).2.updateExpression e fun _ =>
        cx.intrinsics.callWith span ⟨p.forest.expressions.size⟩).children a = p.forest.children a :=
    fun a ha => hforest ▸ children_replaceExpression file problem ha
  have hcall : ((p.forest.addExpression (cx.intrinsics.messageArgument span
      message)).2.updateExpression e fun _ =>
        cx.intrinsics.callWith span ⟨p.forest.expressions.size⟩).children (.expression e)
      = [.expression ⟨p.forest.expressions.size⟩] := by
    rw [Forest.children_expression ((Forest.expression?_updateExpression _ _ _ _).trans
      ((if_pos rfl).trans (congrArg _ hx'))), Forest.children_callWith]
  have hsize : p.forest.expressions.size < ((p.forest.addExpression (cx.intrinsics.messageArgument span
      message)).2.updateExpression e fun _ =>
        cx.intrinsics.callWith span ⟨p.forest.expressions.size⟩).expressions.size := by
    simp [Forest.updateExpression, Forest.addExpression]
  have hr : p.forest.Retains ((p.forest.addExpression (cx.intrinsics.messageArgument span
      message)).2.updateExpression e fun _ =>
        cx.intrinsics.callWith span ⟨p.forest.expressions.size⟩) :=
    retains_expressions (Nat.le_of_lt hsize)
  refine hC.branches_of_one hr (u := .expression e) (l := [.expression ⟨p.forest.expressions.size⟩])
    (fun a => ?_) (List.nodup_singleton _) fun n hn => ?_
  · by_cases ha : a = .expression e
    · subst ha
      exact ⟨[], List.nil_sublist _, by rw [hcall, if_pos rfl]; rfl⟩
    · exact ⟨_, List.Sublist.refl _, by rw [hother a ha, if_neg ha, List.append_nil]⟩
  · rw [List.mem_singleton.mp hn]
    exact ⟨Forest.not_stores_expression (Nat.le_refl _), Forest.expression?_isSome.mpr hsize,
      fun d hd => by cases hd⟩

theorem branches_enterExpression (file : Option FileId) (n : Node) (hC : p.forest.ChildrenKnown) :
    p.forest.Branches (Pass.enterExpression cx file p n).1.forest := by
  unfold Pass.enterExpression
  cases n with
  | declaration d => exact hC.branches_refl
  | expression e =>
    dsimp only
    split
    · exact hC.branches_refl
    · rename_i problem hproblem
      refine branches_replaceExpression (p := { p with memo := (p.forest.expressionProblem p.memo e).2 })
        hC file ?_ problem
      cases hx : p.forest.expression? e with
      | none => simp [Forest.expressionProblem, hx] at hproblem
      | some x => rfl

/-- **The second sweep makes new branches**, wherever it goes. -/
theorem branches_repairExpressions (roots : List Root) (h : F.Branches p.forest) :
    F.Branches (repairExpressions cx roots p).forest := by
  unfold repairExpressions
  induction roots generalizing p with
  | nil => exact h
  | cons root roots ih =>
    apply ih
    refine walkAll_invariant (P := fun q : Pass => F.Branches q.forest) _ _ (fun s n hs => ?_) _ p h
    exact walk_invariant _ (P := fun q : Pass => F.Branches q.forest)
      (fun q n hq => hq.trans (branches_enterExpression _ n hq.childrenKnown)) _ s n hs

variable (cx) in
/-- **A repair keeps a forest well-formed**, whatever the roots: if every reached node has one place, every
reached declaration names it as its parent and owns its symbol, then so it is afterwards.  Of the kinds
of declarations only those in the slots of functions that are inherited below the roots matter, as these
are copied. -/
theorem repair_defects_eq_nil (hF : F.defects = []) (hC : F.ChildrenKnown)
    (hB : ∀ m x f, F.Bequeaths roots m x f → F.Fits x.content) :
    (repair cx roots F).forest.defects = [] := by
  have hfirst := (branches_visit cx (Forest.bequests_of_fits hB) hC).1
  have hboth : F.Branches (repair cx roots F).forest := branches_repairExpressions roots hfirst
  exact Forest.defects_eq_nil_iff.mpr ((Forest.defects_eq_nil_iff.mp hF).branches hboth)

end

end Pass

/-! ## a class without a member -/

namespace Forest

/-- the class `C` lacks the generic function `m`, which it inherits from an interface that is not
reached itself, and the function `use` refers to a class that is gone -/
def lacksMember : Forest :=
  let base := (named "lib").installIntrinsics
  let unit := base.1.unitType
  let file := base.2.newFile "pkg" "a.kt" ""
  let gone := file.2.newMissingSymbol "pkg" .classLike "Gone"
  let a := gone.2.newClass "pkg" (.file file.1) "A" .interface
  let m := a.2.newFunction "pkg" (.declaration a.1) "m" unit
  let t := m.2.newTypeParameter m.1 "T" []
  let v := t.2.newValueParameter m.1 "first" (.simple gone.1)
  let hidden := (v.2.updateDeclaration m.1 <| Declaration.mapFunction fun f =>
    { f with modality := .abstract, body := none }).updateFile file.1 fun f => { f with declarations := [] }
  let c := hidden.newClass "pkg" (.file file.1) "C" .plain
  let user := (c.2.addSuperType c.1 ((c.2.typeOf a.1).getD unit)).newFunction "pkg" (.file file.1) "use" unit
  let e := user.2.newExpression (.constant .null) (.simple gone.1)
  e.2.setBody user.1 [.expression e.1]

/-- the context of a repair of `lacksMember` -/
def lacksMemberContext : Context := ⟨(named "lib").installIntrinsics.1, .warning⟩

end Forest

namespace Pass

open Forest in
/-- the copy of `m` and the call in the place of the expression are where they belong -/
theorem repair_defects_lacksMember :
    let roots := lacksMember.userRoots lacksMemberContext.intrinsics
    let p := repair lacksMemberContext roots lacksMember
    lacksMember.defects = [] ∧ lacksMember.ChildrenKnown
      ∧ (∀ m x f, lacksMember.Bequeaths roots m x f → lacksMember.Fits x.content)
      ∧ p.summary = ⟨1, 1, 1⟩ ∧ p.forest.defects = [] := by
  intro roots p
  have hF : lacksMember.defects = [] := by decide +kernel
  have hC : lacksMember.ChildrenKnown := by decide +kernel
  have hB := (@kindCorrect_of_kindsFit lacksMember roots (by decide +kernel)).inherited
  exact ⟨hF, hC, hB, by decide +kernel, repair_defects_eq_nil lacksMemberContext hF hC hB⟩

end Pass

end LinkRepair
