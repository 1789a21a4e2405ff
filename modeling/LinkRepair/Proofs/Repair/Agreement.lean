import LinkRepair.Proofs.Repair.Problems
import LinkRepair.Proofs.Repair.Settlement

/-!
# The two sweeps agree on signatures

The first sweep replaces the types that it judged.  The second one asks about the same signatures
again, and has only the markers and the memo to answer from.

* `expressionPasses`   the passes in which the second sweep asks;
* `Pass.Continues`     what the second sweep leaves as it is;
* `repair_agrees`      each question about a signature or the type of a value is answered with the
                       cause that the first sweep found there.
-/

namespace LinkRepair

/-- the passes in which the visits of the second sweep start, and the one at the end -/
def expressionPasses (cx : Context) (roots : List Root) (p : Pass) : List Pass :=
  (expressionVisits cx roots p).map Prod.fst ++ [repairExpressions cx roots p]

namespace Pass

/-- the first cause in the signature of a function, asked with the given memo -/
def signatureCause (p : Pass) (m : Memo) (d : DeclarationId) : Verdict :=
  (p.forest.exploreFirst m (p.forest.signatureBlamed d)).1

/-- the cause in the type of a field or a variable -/
def valueCause (p : Pass) (m : Memo) (d : DeclarationId) : Verdict :=
  (p.forest.exploreFirst m (p.forest.valueBlamed d)).1

/-! ## the second sweep -/

/-- from `p` to `q` only expressions were edited, and questions were asked -/
structure Continues (p q : Pass) : Prop where
  forest : q.forest = { p.forest with expressions := q.forest.expressions }
  asked : p.forest.Asked p.memo q.memo

section
variable {cx : Context} {p q : Pass} {v : Verdict}

theorem Continues.refl (p : Pass) : Continues p p := ⟨rfl, .refl⟩

variable (cx) in
theorem replaceExpression_forest (file : Option FileId) (q : Pass) (e : ExpressionId)
    (problem : Problem) : ∃ es, (q.replaceExpression cx file e problem).forest
      = { q.forest with expressions := es } := ⟨_, rfl⟩

theorem Continues.enterExpression (h : Continues p q) (hp : p.memo.Sound p.forest)
    (file : Option FileId) (n : Node) :
    Continues p (Pass.enterExpression cx file q n).1 := by
  unfold Pass.enterExpression
  cases n with
  | declaration d => exact h
  | expression e =>
    have hasked : p.forest.Asked p.memo (q.forest.expressionProblem q.memo e).2 := by
      cases hx : q.forest.expression? e with
      | none =>
        simp only [Forest.expressionProblem, hx]
        exact h.asked
      | some x =>
        have hx' : q.forest.expressions[e.index]? = some x := hx
        rw [h.forest, Forest.expressionProblem_expressions hx']
        exact h.asked.trans (Forest.firstProblem_spec e x.demands (h.asked.sound hp)).2
    dsimp only
    split
    · exact ⟨h.forest, hasked⟩
    · obtain ⟨es, he⟩ := replaceExpression_forest cx file
        { q with memo := (q.forest.expressionProblem q.memo e).2 } e ‹_›
      refine ⟨?_, hasked⟩
      dsimp only
      rw [he]
      dsimp only
      rw [h.forest]

theorem continues_expressionPasses (hp : p.memo.Sound p.forest) {roots : List Root} {q : Pass}
    (hq : Continues p q) : ∀ r ∈ expressionPasses cx roots q, Continues p r := by
  obtain ⟨hend, hvs⟩ := expressionVisits_invariant cx (P := Continues p) (N := fun _ => True)
    (fun file s n hs _ => ⟨hs.enterExpression hp file n, fun _ _ => trivial⟩)
    (fun _ _ _ _ _ _ => trivial) hq
  intro r hr
  rcases List.mem_append.mp hr with hr | hr
  · obtain ⟨u, hu, rfl⟩ := List.mem_map.mp hr
    exact (hvs u hu).1
  · rw [List.mem_singleton.mp hr]
    exact hend

/-- a question has the same answer from the end of the first sweep on -/
theorem Answers.exploreFirst_fst {l : List SymbolId} (h : p.Answers l v)
    (hp : p.memo.Sound p.forest) (hq : Continues p q) {m : Memo} (hm : q.forest.Asked q.memo m) :
    (q.forest.exploreFirst m l).1 = v := by
  have hforest := hq.forest
  rw [hforest] at hm
  have hm' := hq.asked.trans (Forest.asked_expressions _ hm)
  rw [hforest, Forest.exploreFirst_expressions]
  refine Forest.Answers.exploreFirst_fst (hm'.sound hp) (h.mono hm'.keptIn fun s hs => ?_)
  rwa [hm'.tainted_iff hp]

theorem Continues.signatureCause (hq : Continues p q) (hp : p.memo.Sound p.forest) {d : DeclarationId}
    {before : List TypeRef} (h : p.Settled before (p.forest.signatureTypes d) v)
    (hb : ∀ t ∈ before, t.isMarker = false) {m : Memo} (hm : q.forest.Asked q.memo m) :
    q.signatureCause m d = v := by
  have hblamed : q.forest.signatureBlamed d = p.forest.signatureBlamed d := by
    rw [hq.forest]
    rfl
  unfold Pass.signatureCause
  rw [hblamed, Forest.signatureBlamed_eq]
  exact (h.answers hb).exploreFirst_fst hp hq hm

theorem Continues.valueCause (hq : Continues p q) (hp : p.memo.Sound p.forest) {d : DeclarationId}
    {before : List TypeRef} (h : p.Settled before (p.forest.valueTypes d) v)
    (hb : ∀ t ∈ before, t.isMarker = false) {m : Memo} (hm : q.forest.Asked q.memo m) :
    q.valueCause m d = v := by
  have hblamed : q.forest.valueBlamed d = p.forest.valueBlamed d := by
    rw [hq.forest]
    rfl
  unfold Pass.valueCause
  rw [hblamed, Forest.valueBlamed_eq]
  exact (h.answers hb).exploreFirst_fst hp hq hm

end

/-! ## agreement -/

section
variable {cx : Context} {S : Prop} {F : Forest} {p : Pass} {d : DeclarationId} {x : Declaration}

/-- what the first sweep comes to and did not add was there before -/
theorem Grafted.isSome_of_defined {I : Intrinsics} (h : p.Grafted I S F)
    (hx : p.forest.declaration? d = some x)
    (hd : x.origin = .defined ∧ x.function?.isSome ∨ x.valueType?.isSome ∧ x.parameter? = none) :
    ∃ y, F.declaration? d = some y ∧ y.Becomes I F p.memo x := by
  cases hy : F.declaration? d with
  | some y =>
    have hb := h.frames.becomes hy hx
    exact ⟨y, rfl, hb⟩
  | none =>
    have hf := h.sprouts d x hy hx
    unfold Forest.Fashioned at hf
    unfold Declaration.function? Declaration.valueType? Declaration.parameter? at hd
    cases hc : x.content <;> rw [hc] at hf hd <;> simp_all

end

/-- **The second sweep finds in each signature the cause that the first one found there.**  A visited
function that a user wrote, and whose signature had no marker, has the one problem in the account
that its cause makes, and a body that raises it; without a cause it has none, and the body that it
had.  Whenever the second sweep asks about the signature, that cause is the answer.  So it is for
visited fields and variables, whose type is a marker for the cause or stays what it was. -/
theorem repair_agrees {cx : Context} {F : Forest} (hF : F.defects = []) (hP : F.ParentsKnown)
    (hk : F.KindCorrect (F.userRoots cx.intrinsics)) :
    let roots := F.userRoots cx.intrinsics
    let r := repairDeclarations cx roots (.start F)
    ∀ p d x, (p, .declaration d) ∈ declarationVisits cx roots (.start F) →
      p.forest.declaration? d = some x →
      (∀ f, x.content = .ofFunction f → x.origin = .defined →
        (∀ t ∈ F.signatureTypes d, t.isMarker = false) →
        ∃ v : Verdict, r.problemsOf d = (v.map (Problem.brokenSignature d)).toList
          ∧ (match v with
            | none => r.bodyOf d = f.body
            | some _ => Raises cx.intrinsics r d)
          ∧ ∀ q ∈ expressionPasses cx roots r, ∀ m, q.forest.Asked q.memo m →
            q.signatureCause m d = v)
      ∧ (x.valueType?.isSome → x.parameter? = none → (∀ t ∈ F.valueTypes d, t.isMarker = false) →
        r.forest.declaration? d = some (markedValue cx.intrinsics x (p.fixValue cx d).1)
          ∧ ∀ q ∈ expressionPasses cx roots r, ∀ m, q.forest.Asked q.memo m →
            q.valueCause m d = (p.fixValue cx d).1) := by
  intro roots r p d x hv hx
  have hplanted := Forest.planted_of_defects_nil hF
  have hroots := F.userRoots_subperm cx.intrinsics
  obtain ⟨⟨_, hsane⟩, hvisits⟩ := grafted_visit cx hk.bequests hP
  obtain ⟨⟨hg, _⟩, _⟩ := hvisits _ hv
  have hpasses : ∀ q ∈ expressionPasses cx roots r, Continues r q :=
    continues_expressionPasses hsane.sound (.refl r)
  obtain ⟨pre, post, hvs⟩ := List.append_of_mem hv
  refine ⟨fun f hc ho hmarker => ?_, fun hvalue hparameter hmarker => ?_⟩
  · obtain ⟨y, hy, hb⟩ := hg.isSome_of_defined hx
      (.inl ⟨ho, by rw [Forest.function?_eq_some.mpr hc]; rfl⟩)
    have hyc := hb.content
    rw [hc] at hyc
    generalize hyc' : y.content = content at hyc
    cases hyc with
    | @ofFunction g =>
      obtain ⟨hx', hsettled⟩ := settled_function hplanted hk.bequests hP hroots hk hvs hy hyc'
      obtain rfl := Option.some.inj (hx.symm.trans hx')
      have hbody := bodyOf_function hplanted hk.bequests hP hroots hk hvs hy hc
      have haccount := problemsOf_function hplanted hk.bequests hP hroots hk hvs hy hc
      have hproblem : functionProblem d x (p.signatureVerdict cx d)
          = (p.signatureVerdict cx d).map (.brokenSignature d) := by
        unfold functionProblem
        rw [ho]
      rw [hproblem] at hbody haccount
      refine ⟨p.signatureVerdict cx d, haccount, ?_, fun q hq m hm =>
        (hpasses q hq).signatureCause hsane.sound hsettled hmarker hm⟩
      cases hv : p.signatureVerdict cx d with
      | none =>
        rw [hv] at hbody
        exact hbody
      | some k =>
        rw [hv] at hbody
        exact hbody.1
  · obtain ⟨y, hy, hb⟩ := hg.isSome_of_defined hx (.inr ⟨hvalue, hparameter⟩)
    have hyv : y.valueType?.isSome ∧ y.parameter? = none := by
      have hyc := hb.content
      unfold Declaration.valueType? at hvalue ⊢
      unfold Declaration.parameter? at hparameter ⊢
      generalize y.content = content at hyc ⊢
      generalize x.content = content' at hyc hvalue hparameter
      cases hyc <;> simp_all
    obtain ⟨hx', hsettled, hafter⟩ := settled_value hplanted hk.bequests hP hroots hk hvs hy hyv.1 hyv.2
    obtain rfl := Option.some.inj (hx.symm.trans hx')
    exact ⟨hafter, fun q hq m hm => (hpasses q hq).valueCause hsane.sound hsettled hmarker hm⟩

end Pass

/-! ## a function with a broken parameter -/

namespace Forest

/-- the function `f` takes an `A`, whose super type is gone -/
def takesBroken : Forest :=
  let base := (named "lib").installIntrinsics
  let file := base.2.newFile "pkg" "a.kt" ""
  let gone := file.2.newMissingSymbol "pkg" .classLike "Gone"
  let f := gone.2.newFunction "pkg" (.file file.1) "f" base.1.unitType
  let a := f.2.newClass "pkg" (.file file.1) "A" .plain
  let sub := a.2.addSuperType a.1 (.simple gone.1)
  (sub.newValueParameter f.1 "p" ((sub.typeOf a.1).getD base.1.unitType)).2

/-- the context of a repair of `takesBroken` -/
def takesBrokenContext : Context := ⟨(named "lib").installIntrinsics.1, .warning⟩

end Forest

namespace Pass

open Forest in
/-- the marker in `f` remembers `A`, and the memo why `A` is broken -/
theorem repair_agrees_takesBroken :
    let roots := takesBroken.userRoots takesBrokenContext.intrinsics
    let r := repairDeclarations takesBrokenContext roots (.start takesBroken)
    takesBroken.defects = [] ∧ takesBroken.ParentsKnown ∧ takesBroken.KindCorrect roots
      ∧ r.problemsOf ⟨6⟩ = [.brokenSignature ⟨6⟩ (.due ⟨8⟩ (.missing ⟨6⟩))]
      ∧ ∀ q ∈ expressionPasses takesBrokenContext roots r, ∀ m, q.forest.Asked q.memo m →
        q.signatureCause m ⟨6⟩ = some (.due ⟨8⟩ (.missing ⟨6⟩)) := by
  intro roots r
  have hF : takesBroken.defects = [] := by decide +kernel
  have hP : takesBroken.ParentsKnown := by decide +kernel
  have hk : takesBroken.KindCorrect roots := kindCorrect_of_kindsFit (by decide +kernel)
  have hroots : roots = [.file ⟨1⟩] := by decide +kernel
  have hproblem : r.problemsOf ⟨6⟩ = [.brokenSignature ⟨6⟩ (.due ⟨8⟩ (.missing ⟨6⟩))] := by
    decide +kernel
  have hvisit : (start takesBroken, .declaration ⟨6⟩)
      ∈ declarationVisits takesBrokenContext roots (.start takesBroken) := by
    rw [hroots]
    exact List.mem_cons_self
  have hmarker : ∀ t ∈ takesBroken.signatureTypes ⟨6⟩, t.isMarker = false := by decide +kernel
  obtain ⟨v, haccount, _, hask⟩ :=
    (repair_agrees hF hP hk (.start takesBroken) ⟨6⟩ _ hvisit rfl).1 _ rfl rfl hmarker
  have hv : v = some (.due ⟨8⟩ (.missing ⟨6⟩)) := by
    have h := hproblem.symm.trans haccount
    cases v with
    | none => cases h
    | some k =>
      obtain ⟨_, rfl⟩ := Problem.brokenSignature.inj (List.cons.inj h).1
      rfl
  exact ⟨hF, hP, hk, hproblem, fun q hq m hm => hv ▸ hask q hq m hm⟩

end Pass

end LinkRepair
