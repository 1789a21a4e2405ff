import LinkRepair.Proofs.Repair.Rewriting
import LinkRepair.Proofs.Repair.Visits

/-!
# What repaired nodes raise

A repaired function or initializer consists of one call that raises a linkage error, and a repaired
expression is such a call.  The text that it raises is the message of a report about that node.

* `Forest.raisedText?`   the text that a node raises, read off the forest;
* `Forest.Voices`        a node raises a text, by a call as the repair makes it;
* `Pass.Voiced`          every node in the account raises the message of a report about it;
* `Step.voiced`, `Rewrites.voiced`   both sweeps keep it;
* `voiced_repair`        so it is in the end.
-/

namespace LinkRepair

/-- the statements that run, of a function or an initializer -/
def Content.body? : Content → Option (List Statement)
  | .ofFunction f => f.body
  | .ofInitializer body => some body
  | _ => none

def Operation.text? : Operation → Option String
  | .constant (.text text) => some text
  | _ => none

namespace Forest

/-- the text that an expression raises, if it is a call of the intrinsic function, of the bottom type,
whose only argument is a text -/
def callText? (I : Intrinsics) (F : Forest) (e : ExpressionId) : Option String :=
  match F.expression? e with
  | some ⟨.call ⟨s, [], none, none, [some argument]⟩ none, .named t [] false, _, _⟩ =>
    if s = I.linkageError ∧ t = I.nothing then
      (F.expression? argument).bind fun x => x.operation.text?
    else none
  | _ => none

/-- the text that a node raises: an expression by itself, a function or an initializer by its only
statement -/
def raisedText? (I : Intrinsics) (F : Forest) : Node → Option String
  | .expression e => F.callText? I e
  | .declaration d =>
    match (F.declaration? d).bind fun x => x.content.body? with
    | some [.expression e] => F.callText? I e
    | _ => none

/-- `e` is a call as a repair makes it -/
def Calls (I : Intrinsics) (F : Forest) (e : ExpressionId) (text : String) : Prop :=
  ∃ span a span', F.expression? e = some (I.callWith span a)
    ∧ F.expression? a = some (I.messageArgument span' text)

inductive Voices (I : Intrinsics) (F : Forest) : Node → String → Prop
  | expression {e : ExpressionId} {text : String} (h : F.Calls I e text) :
      Voices I F (.expression e) text
  | declaration {d : DeclarationId} {x : Declaration} {e : ExpressionId} {text : String}
      (hx : F.declaration? d = some x) (hb : x.content.body? = some [.expression e])
      (h : F.Calls I e text) : Voices I F (.declaration d) text

section
variable {I : Intrinsics} {F G : Forest} {n : Node} {e : ExpressionId} {text : String}

theorem Calls.callText? (h : F.Calls I e text) : F.callText? I e = some text := by
  obtain ⟨span, a, span', he, ha⟩ := h
  simp [Forest.callText?, he, ha, Intrinsics.callWith, Intrinsics.nothingType, TypeRef.simple,
    Intrinsics.messageArgument, Operation.text?]

theorem Voices.raisedText? (h : F.Voices I n text) : F.raisedText? I n = some text := by
  cases h with
  | expression h => exact h.callText?
  | declaration hx hb h =>
    simp only [Forest.raisedText?, hx, Option.bind_some, hb]
    exact h.callText?

theorem Calls.mono (h : F.Calls I e text)
    (he : ∀ a x, F.expression? a = some x → G.expression? a = some x) : G.Calls I e text := by
  obtain ⟨span, a, span', hcall, ha⟩ := h
  exact ⟨span, a, span', he e _ hcall, he a _ ha⟩

theorem Voices.mono (h : F.Voices I n text)
    (hd : ∀ d x, n = .declaration d → F.declaration? d = some x →
      ∃ y, G.declaration? d = some y ∧ y.content.body? = x.content.body?)
    (he : ∀ a x, F.expression? a = some x → G.expression? a = some x) : G.Voices I n text := by
  cases h with
  | expression h => exact .expression (h.mono he)
  | declaration hx hb h =>
    obtain ⟨y, hy, hbody⟩ := hd _ _ rfl hx
    exact .declaration hy (hbody.trans hb) (h.mono he)

/-- new declarations leave bodies as they are -/
theorem Voices.grows {D : DeclarationId → Prop} (h : F.Voices I n text) (hg : Grows D F G) :
    G.Voices I n text := by
  refine h.mono (fun d x _ hx => ?_) fun a x hx => ?_
  · obtain ⟨added, hy, _⟩ := hg.declaration? d x hx
    refine ⟨_, hy, ?_⟩
    obtain ⟨_, _, _, _, _, content⟩ := x
    cases content <;> rfl
  · unfold Forest.expression? at hx ⊢
    rw [hg.expressions]
    exact hx

end

end Forest

/-- an edit of a signature leaves the body alone -/
theorem Declaration.Amends.body? {I : Intrinsics} {F : Forest} {m : Memo}
    {x y : Declaration} (h : x.Amends I F m y) : y.content.body? = x.content.body? := by
  obtain ⟨_, _, _, _, _, content⟩ := x
  cases h <;> cases content <;> rfl

theorem Declaration.body?_withBody {x : Declaration} (h : x.isRoutine) (body : List Statement) :
    (x.withBody body).content.body? = some body := by
  obtain ⟨_, _, _, _, _, content⟩ := x
  cases content <;> first | rfl | cases h

namespace Pass

/-- every node in the account raises the message of a report about it; about one node there may be
several reports, and the latest counts -/
def Voiced (I : Intrinsics) (p : Pass) : Prop :=
  ∀ r ∈ p.repairs, ∃ r' ∈ p.repairs, r'.node = r.node ∧ p.forest.Voices I r.node r'.report.message

section
variable {cx : Context} {c : Scope} {roots : List Root} {p q : Pass} {e : ExpressionId}

/-! ## the first sweep -/

theorem voices_raiseIn (problem : Problem) {d : DeclarationId} (hr : p.forest.HasRoutine d) :
    (p.raiseIn cx problem d).forest.Voices cx.intrinsics (.declaration d)
      (p.forest.problemText problem) := by
  obtain ⟨x, hx, hroutine⟩ := hr
  obtain ⟨span, hforest⟩ : ∃ span, (p.raiseIn cx problem d).forest
      = ((p.forest.addExpression (cx.intrinsics.messageArgument span (p.forest.problemText problem))).2
          |>.addExpression (cx.intrinsics.callWith span ⟨p.forest.expressions.size⟩)).2.updateDeclaration d
        (Declaration.withBody [.expression ⟨(p.forest.addExpression (cx.intrinsics.messageArgument span
          (p.forest.problemText problem))).2.expressions.size⟩]) := ⟨_, rfl⟩
  generalize p.forest.problemText problem = text at hforest ⊢
  have hargument : (p.forest.addExpression (cx.intrinsics.messageArgument span text)).2.expression?
      ⟨p.forest.expressions.size⟩ = some (cx.intrinsics.messageArgument span text) :=
    (Forest.expression?_addExpression _ _ _).trans (if_pos rfl)
  have hdeclaration : (p.forest.addExpression (cx.intrinsics.messageArgument span text)).2.declaration? d
      = some x := hx
  generalize (p.forest.addExpression (cx.intrinsics.messageArgument span text)).2 = G
    at hforest hargument hdeclaration
  rw [hforest]
  refine .declaration ?_ (Declaration.body?_withBody hroutine _) ⟨span, ⟨p.forest.expressions.size⟩,
    span, (Forest.expression?_addExpression _ _ _).trans (if_pos rfl),
    Forest.expression?_addExpression_of_some hargument⟩
  rw [Forest.declaration?_updateDeclaration, if_pos rfl]
  show (G.declaration? d).map _ = _
  rw [hdeclaration]
  rfl

/-- **Every step keeps the account voiced.** -/
theorem Step.voiced (h : Step cx c p q) (hp : p.Voiced cx.intrinsics) : q.Voiced cx.intrinsics := by
  have hframes := h.frames
  cases h with
  | ask => exact hp
  | examine => exact hp
  | @amend d g _ hg =>
    intro r hr
    obtain ⟨r', hr', hn, hv⟩ := hp r hr
    refine ⟨r', hr', hn, hv.mono (fun a x _ hx => ?_) fun _ _ h => h⟩
    show ∃ y, (p.forest.updateDeclaration d g).declaration? a = some y ∧ _
    rw [Forest.declaration?_updateDeclaration, hx]
    split
    · rename_i e
      obtain rfl := e
      exact ⟨_, rfl, (hg x hx).body?⟩
    · exact ⟨x, rfl, rfl⟩
  | @initializer d _ hd =>
    intro r hr
    obtain ⟨r', hr', hn, hv⟩ := hp r hr
    obtain ⟨info, hinfo⟩ := Option.isSome_iff_exists.mp hd
    exact ⟨r', hr', hn, hv.grows (Forest.grows_newInitializer (D := fun _ => True) trivial
      (Forest.isSome_of_class? hinfo))⟩
  | @member d m =>
    intro r hr
    obtain ⟨r', hr', hn, hv⟩ := hp r hr
    exact ⟨r', hr', hn, hv.grows (Forest.grows_copyMember (D := fun _ => True) trivial)⟩
  | @raise d problem _ hroutine =>
    have hnew : ∃ r' ∈ (p.raiseIn cx problem d).repairs, r'.node = .declaration d
        ∧ (p.raiseIn cx problem d).forest.Voices cx.intrinsics (.declaration d) r'.report.message :=
      ⟨_, List.mem_append_right _ (List.mem_singleton_self _), rfl, voices_raiseIn problem hroutine⟩
    intro r hr
    by_cases hd : r.node = .declaration d
    · rw [hd]
      exact hnew
    · rcases List.mem_append.mp hr with hr | hr
      · obtain ⟨r', hr', hn, hv⟩ := hp r hr
        refine ⟨r', List.mem_append_left _ hr', hn, hv.mono (fun a x ha hx => ?_) hframes.expression?⟩
        refine ⟨x, ?_, rfl⟩
        show (Forest.updateDeclaration _ d _).declaration? a = _
        rw [Forest.declaration?_updateDeclaration, if_neg (by rintro rfl; exact hd ha)]
        exact hx
      · rw [List.mem_singleton.mp hr] at hd
        exact absurd rfl hd

theorem Chain.voiced (h : Chain cx c p q) (hp : p.Voiced cx.intrinsics) : q.Voiced cx.intrinsics := by
  induction h with
  | refl => exact hp
  | tail _ h ih => exact h.voiced ih

/-! ## the second sweep -/

/-- no faulty expression belongs to a call that a repair has made -/
theorem Rewrites.calls_ne (hr : cx.intrinsics.Ready p) (hs : p.memo.Sound p.forest)
    (h : Rewrites cx.intrinsics roots p q) (ho : p.Outermost roots e) (hmem : e ∉ q.rewritten) :
    (∀ span a, q.forest.expression? e ≠ some (cx.intrinsics.callWith span a))
      ∧ ∀ span text, q.forest.expression? e ≠ some (cx.intrinsics.messageArgument span text) := by
  have hiff := (h.expressionProblem (e := e) hs h.asked).1
  have hproblem : (q.forest.expressionProblem q.memo e).1 ≠ none := fun hnone =>
    hmem ((h.expressionProblem_iff hr hs h.asked).mp hnone ho.1)
  constructor
  · intro span a hx
    refine hproblem (hiff.mpr fun x hx' => ?_)
    obtain rfl := Option.some.inj (hx.symm.trans hx')
    exact hr.not_unmet_callWith span a
  · intro span text hx
    refine hproblem (hiff.mpr fun x hx' => ?_)
    obtain rfl := Option.some.inj (hx.symm.trans hx')
    exact hr.not_unmet_messageArgument span text

theorem Rewrites.voiced_replaceExpression (hr : cx.intrinsics.Ready p) (hs : p.memo.Sound p.forest)
    (h : Rewrites cx.intrinsics roots p q) (hv : q.Voiced cx.intrinsics) (ho : p.Outermost roots e)
    (hmem : e ∉ q.rewritten) (file : Option FileId) (problem : Problem) :
    (q.replaceExpression cx file e problem).Voiced cx.intrinsics := by
  obtain ⟨hcall, hargument⟩ := h.calls_ne hr hs ho hmem
  obtain ⟨x, hx⟩ := Option.isSome_iff_exists.mp ho.1.isSome
  obtain ⟨span, hforest⟩ := exists_forest_replaceExpression cx q e file problem
  have hlook := expression?_replaceExpression hforest
    (Option.isSome_iff_exists.mpr ⟨x, h.kept e x hx hmem⟩)
  -- what was there before, but for the expression itself, is there
  have hkept : ∀ a y, e ≠ a → q.forest.expression? a = some y →
      (q.replaceExpression cx file e problem).forest.expression? a = some y := by
    intro a y hne hy
    rw [hlook, if_neg hne, if_neg, hy]
    rintro rfl
    simp [Forest.expression?] at hy
  have hcalls : ∀ {a text}, q.forest.Calls cx.intrinsics a text →
      (q.replaceExpression cx file e problem).forest.Calls cx.intrinsics a text := by
    rintro a text ⟨span', b, span'', ha, hb⟩
    exact ⟨span', b, span'', hkept a _ (by rintro rfl; exact hcall _ _ ha) ha,
      hkept b _ (by rintro rfl; exact hargument _ _ hb) hb⟩
  intro r hmemr
  rcases List.mem_append.mp hmemr with hmemr | hmemr
  · obtain ⟨r', hr', hn, hvoice⟩ := hv r hmemr
    refine ⟨r', List.mem_append_left _ hr', hn, ?_⟩
    generalize r.node = n at hvoice
    cases hvoice with
    | expression hc => exact .expression (hcalls hc)
    | declaration hy hb hc => exact .declaration (hforest ▸ hy) hb (hcalls hc)
  · rw [List.mem_singleton.mp hmemr]
    refine ⟨_, List.mem_append_right _ (List.mem_singleton_self _), rfl, .expression
      ⟨span, ⟨q.forest.expressions.size⟩, span, by rw [hlook, if_pos rfl], ?_⟩⟩
    rw [hlook, if_neg, if_pos rfl]
    rintro rfl
    simpa [Forest.expression?] using h.kept _ x hx hmem

/-- **Every visit of the second sweep keeps the account voiced.** -/
theorem Rewrites.voiced_enterExpression (hr : cx.intrinsics.Ready p) (hs : p.memo.Sound p.forest)
    (h : Rewrites cx.intrinsics roots p q) (hv : q.Voiced cx.intrinsics) {n : Node}
    (hn : p.Visitable roots n) (file : Option FileId) :
    (Pass.enterExpression cx file q n).1.Voiced cx.intrinsics := by
  cases n with
  | declaration d => exact hv
  | expression e =>
    obtain ⟨_, hasked⟩ := h.expressionProblem (e := e) hs h.asked
    have houtermost := h.outermost_of_problem hr hs hn
    unfold Pass.enterExpression
    dsimp only
    generalize q.forest.expressionProblem q.memo e = found at hasked houtermost
    obtain ⟨_ | problem, m⟩ := found
    · exact hv
    · obtain ⟨ho, hmem⟩ := houtermost (Option.some_ne_none _)
      exact (h.withMemo hasked).voiced_replaceExpression hr hs hv ho hmem file problem

/-! ## both sweeps -/

/-- **In the end every repaired node raises the message of a report about it.** -/
theorem voiced_repair {F : Forest} (hI : cx.intrinsics.Intact F) (hP : F.ParentsKnown)
    (roots : List Root) : (repair cx roots F).Voiced cx.intrinsics := by
  have hchain := chain_repairDeclarations cx roots (.start F)
  have hsane := (hchain.sane (sane_start hP)).1
  have hready := hI.ready hP hchain
  generalize hp : repairDeclarations cx roots (.start F) = p at hchain hsane hready
  have hstart : Rewrites cx.intrinsics roots p p := .refl (hp ▸ rewritten_repairDeclarations cx roots F)
  have hvoiced : p.Voiced cx.intrinsics := hchain.voiced fun r hr => absurd hr List.not_mem_nil
  rw [repair, hp]
  refine (expressionVisits_invariant cx
    (P := fun q => Rewrites cx.intrinsics roots p q ∧ q.Voiced cx.intrinsics) (N := p.Visitable roots)
    (fun file q n hq hn => ?_) (fun q hq root hroot d hd => ?_) ⟨hstart, hvoiced⟩).1.2
  · obtain ⟨hrewrites, hbelow, _⟩ := hq.1.enterExpression hready hsane.sound file hn
    exact ⟨⟨hrewrites, hq.1.voiced_enterExpression hready hsane.sound hq.2 hn file⟩, hbelow⟩
  · rw [hq.1.rootDeclarations] at hd
    exact .inl ⟨d, List.mem_flatMap.mpr ⟨root, hroot, hd⟩, .refl⟩

end

end Pass

end LinkRepair
