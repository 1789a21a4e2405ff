import LinkRepair.Proofs.Repair.Growth

/-!
# The steps of the sweep over declarations

Everything that the first sweep does is a chain of few kinds of steps, each with what justifies it.

* `Declaration.Amends`   one edit of a signature, for which the memo gives the reason;
* `Scope`                which declarations a chain may edit, which classes it may extend, and for
                         which classes members are copied;
* `Pass.Step`            the kinds of steps;
* `Pass.Chain`           any number of steps;
* `Chain.frames`, `Chain.sane`   what a chain keeps.
-/

namespace LinkRepair

/-! ## edits of a signature -/

inductive Declaration.Amends (I : Intrinsics) (F : Forest) (m : Memo) (x : Declaration) :
    Declaration → Prop
  | overridden {l : List SymbolId} (h : l.Sublist x.overridden)
      (hl : ∀ s ∈ x.overridden, F.isOverridable s = true → s ∈ l) :
      Amends I F m x (x.withOverridden l)
  | superTypes {l : List TypeRef} (h : ∀ c, x.class? = some c → l.Sublist c.superTypes
      ∧ ∀ t ∈ c.superTypes, t ∈ l ∨ m.Drops x.symbol t) (hs : (m.find? x.symbol).isSome) :
      Amends I F m x (x.mapClass fun c => { c with superTypes := l })
  | parameter {c : Cause}
      (h : ∀ p, x.parameter? = some p → m.Blames (p.types.flatMap TypeRef.mentioned) c) :
      Amends I F m x (x.mapParameter fun q => q.broken (I.markerType c.symbol))
  | returnType {c : Cause} (h : ∀ f, x.function? = some f → m.Blames f.returnType.mentioned c) :
      Amends I F m x (x.mapFunction fun f => { f with returnType := I.markerType c.symbol })
  | bounds {c : Cause} (h : m.find? x.symbol = some (some c)) :
      Amends I F m x (x.mapTypeParameter fun _ => ⟨[I.markerType c.symbol]⟩)
  | value {c : Cause} (h : ∀ t, x.valueType? = some t → m.Blames t.mentioned c) :
      Amends I F m x (x.breakValue (I.markerType c.symbol))

theorem Declaration.Amends.becomes {I : Intrinsics} {F : Forest} {m : Memo} {x y : Declaration}
    (h : x.Amends I F m y) : x.Becomes I F m y := by
  obtain ⟨symbol, name, origin, parent, span, content⟩ := x
  cases h with
  | @overridden l h _ =>
    cases content with
    | ofFunction f =>
      exact ⟨rfl, rfl, rfl, rfl, rfl, .ofFunction (f := f) (.inl rfl) h (.inl rfl)⟩
    | ofProperty p => exact ⟨rfl, rfl, rfl, rfl, rfl, .ofProperty h⟩
    | _ => exact .refl _
  | @superTypes l h _ =>
    cases content with
    | ofClass c =>
      have hb : Content.Becomes I F m symbol (.ofClass c)
          (.ofClass { c with superTypes := l, members := c.members ++ [] }) :=
        .ofClass (h c rfl).1 (h c rfl).2 fun d hd => absurd hd List.not_mem_nil
      rw [List.append_nil] at hb
      exact ⟨rfl, rfl, rfl, rfl, rfl, hb⟩
    | _ => exact .refl _
  | parameter h =>
    cases content with
    | ofParameter p => exact ⟨rfl, rfl, rfl, rfl, rfl, .ofParameter (.inr ⟨_, h p rfl, rfl⟩)⟩
    | _ => exact .refl _
  | returnType h =>
    cases content with
    | ofFunction f =>
      exact ⟨rfl, rfl, rfl, rfl, rfl,
        .ofFunction (f := f) (.inr ⟨_, h f rfl, rfl⟩) (List.Sublist.refl _) (.inl rfl)⟩
    | _ => exact .refl _
  | bounds h =>
    cases content with
    | ofTypeParameter p =>
      exact ⟨rfl, rfl, rfl, rfl, rfl, .ofTypeParameter (.inr ⟨_, h, rfl⟩)⟩
    | _ => exact .refl _
  | value h =>
    cases content with
    | ofField f => exact ⟨rfl, rfl, rfl, rfl, rfl, .ofField (.inr ⟨_, h _ rfl, rfl⟩)⟩
    | ofVariable v => exact ⟨rfl, rfl, rfl, rfl, rfl, .ofVariable (.inr ⟨_, h _ rfl, rfl⟩)⟩
    | _ => exact .refl _

/-! ## steps -/

/-- what a chain of steps has to do with -/
structure Scope where
  /-- the declarations that may be edited -/
  touched : DeclarationId → Prop
  /-- the classes that may be given copied members -/
  growing : DeclarationId → Prop
  /-- the classes for whose sake members are copied -/
  heirs : DeclarationId → Prop

namespace Forest

/-- a class and the classes above it, on any number of levels -/
def Inherits (F : Forest) : DeclarationId → DeclarationId → Prop :=
  Relation.ReflTransGen fun a b => b ∈ F.bases a

/-- a function that one of the classes inherits -/
def Offers (F : Forest) (heirs : DeclarationId → Prop) (m : DeclarationId) : Prop :=
  ∃ r b, heirs r ∧ F.Inherits r b ∧ m ∈ F.memberFunctions b

end Forest

namespace Pass

inductive Step (cx : Context) (c : Scope) : Pass → Pass → Prop
  | ask (p : Pass) (l : List SymbolId) : Step cx c p (p.ask l).2
  | examine (p : Pass) (d : DeclarationId) :
      Step cx c p { p with examined := d :: p.examined }
  | amend {p : Pass} {d : DeclarationId} {g : Declaration → Declaration} (ht : c.touched d)
      (h : ∀ x, p.forest.declaration? d = some x → x.Amends cx.intrinsics p.forest p.memo (g x)) :
      Step cx c p (p.edit fun F => F.updateDeclaration d g)
  | initializer {p : Pass} {d : DeclarationId} (ht : c.touched d)
      (hd : (p.forest.class? d).isSome) :
      Step cx c p { p with forest := (p.forest.newInitializer d .missing).2 }
  | raise {p : Pass} {d : DeclarationId} (problem : Problem) (ht : c.touched d)
      (hr : p.forest.HasRoutine d) :
      Step cx c p (p.raiseIn cx problem d)
  | member {p : Pass} {d m : DeclarationId} (hg : c.growing d) (hm : p.forest.Offers c.heirs m) :
      Step cx c p { p with forest := (p.forest.copyMember d m).2 }

abbrev Chain (cx : Context) (c : Scope) : Pass → Pass → Prop := Relation.ReflTransGen (Step cx c)

/-! ## what a step keeps -/

section
variable {cx : Context} {c c' : Scope} {p q : Pass}

theorem Step.mono (h : Step cx c p q) (ht : ∀ d, c.touched d → c'.touched d)
    (hg : ∀ d, c.growing d → c'.growing d) (hh : ∀ d, c.heirs d → c'.heirs d) :
    Step cx c' p q := by
  cases h with
  | ask l => exact .ask p l
  | examine d => exact .examine p d
  | amend h h' => exact .amend (ht _ h) h'
  | initializer h hd => exact .initializer (ht _ h) hd
  | raise problem h hr => exact .raise problem (ht _ h) hr
  | member h hm =>
    obtain ⟨r, b, hr, hm⟩ := hm
    exact .member (hg _ h) ⟨r, b, hh r hr, hm⟩

theorem Chain.mono (h : Chain cx c p q) (ht : ∀ d, c.touched d → c'.touched d)
    (hg : ∀ d, c.growing d → c'.growing d) (hh : ∀ d, c.heirs d → c'.heirs d) :
    Chain cx c' p q := 
  Relation.ReflTransGen.mono (fun _ _ h => h.mono ht hg hh) _ _ h

/-- new declarations frame a pass -/
theorem frames_of_grows {D T K : DeclarationId → Prop} {G : Forest}
    (h : Forest.Grows D p.forest G) (hD : ∀ d, D d → T d ∨ K d) :
    Frames cx.intrinsics T K p { p with forest := G } where
  name := h.name
  files := h.files
  symbol? := h.symbol?
  declaration? := fun d x hx => by
    obtain ⟨added, hy, ha, hno⟩ := h.declaration? d x hx
    exact ⟨_, hy, Declaration.becomes_enlist fun a hmem => (ha a hmem).1, fun hT => ⟨added, rfl, fun hK =>
      hno fun hd => hK ((hD d hd).resolve_left hT)⟩⟩
  expression? := fun e x hx => by
    unfold Forest.expression? at hx ⊢
    rw [h.expressions]
    exact hx
  fresh := h.fresh
  owners := h.owners
  memo := .refl _
  examined := fun _ h => h
  repairs := ⟨[], (List.append_nil _).symm, fun _ hr => absurd hr List.not_mem_nil⟩

/-- an edit of one declaration that is there frames a pass -/
theorem frames_of_update {T K : DeclarationId → Prop} {d : DeclarationId}
    {g : Declaration → Declaration} (ht : T d)
    (h : ∀ x, p.forest.declaration? d = some x → x.Becomes cx.intrinsics p.forest p.memo (g x)) :
    Frames cx.intrinsics T K p (p.edit fun F => F.updateDeclaration d g) where
  name := rfl
  files := rfl
  symbol? := fun _ _ h => h
  declaration? := fun a x hx => by
    show ∃ y, (p.forest.updateDeclaration d g).declaration? a = some y ∧ _
    rw [Forest.declaration?_updateDeclaration, hx]
    by_cases e : d = a
    · obtain rfl := e
      rw [if_pos rfl]
      exact ⟨g x, rfl, h x hx, fun hT => absurd ht hT⟩
    · rw [if_neg e]
      exact ⟨x, rfl, .refl x, fun _ => ⟨[], Declaration.enlist_nil.symm, fun _ => rfl⟩⟩
  expression? := fun _ _ h => h
  fresh := fun a y ha hy => by
    replace hy : (p.forest.updateDeclaration d g).declaration? a = some y := hy
    rw [Forest.declaration?_updateDeclaration, ha] at hy
    split at hy <;> cases hy
  owners := fun s x _ hs hx => by
    rw [show (p.edit _).forest.symbol? s = p.forest.symbol? s from rfl, hs] at hx
    cases hx
  memo := .refl _
  examined := fun _ h => h
  repairs := ⟨[], (List.append_nil _).symm, fun _ hr => absurd hr List.not_mem_nil⟩

theorem frames_of_forest_eq {T K : DeclarationId → Prop} (hf : q.forest = p.forest)
    (hm : p.memo.KeptIn q.memo) (he : p.examined ⊆ q.examined) (hr : q.repairs = p.repairs) :
    Frames cx.intrinsics T K p q where
  name := by rw [hf]
  files := by rw [hf]
  symbol? := fun s x hx => by rwa [hf]
  declaration? := fun d x hx =>
    ⟨x, by rwa [hf], .refl x, fun _ => ⟨[], Declaration.enlist_nil.symm, fun _ => rfl⟩⟩
  expression? := fun e x hx => by rwa [hf]
  fresh := fun d x hd hx => by
    rw [hf, hd] at hx
    cases hx
  owners := fun s x _ hs hx => by
    rw [hf, hs] at hx
    cases hx
  memo := hm
  examined := he
  repairs := ⟨[], by rw [hr, List.append_nil], fun _ hr => absurd hr List.not_mem_nil⟩

end

end Pass

namespace Forest

/-- the call that raises a problem, with its argument, as the new body of a declaration -/
theorem raiseIn_forest (cx : Context) (p : Pass) (problem : Problem) (d : DeclarationId) :
    ∃ span message, (p.raiseIn cx problem d).forest
      = ((p.forest.addExpression (cx.intrinsics.messageArgument span message)).2.addExpression
          (cx.intrinsics.callWith span ⟨p.forest.expressions.size⟩)).2.updateDeclaration d
        (Declaration.withBody
          [.expression ⟨(p.forest.addExpression
            (cx.intrinsics.messageArgument span message)).2.expressions.size⟩]) :=
  ⟨_, _, rfl⟩

theorem expression?_addExpression_of_some {F : Forest} {x y : Expression} {e : ExpressionId}
    (h : F.expression? e = some y) : (F.addExpression x).2.expression? e = some y := by
  rw [expression?_addExpression, if_neg, h]
  rintro rfl
  simp [addExpression, expression?] at h

end Forest

theorem Declaration.becomes_withBody {I : Intrinsics} {F : Forest} {m : Memo} {x : Declaration}
    {e : ExpressionId} (he : F.expression? e = none) :
    x.Becomes I F m (x.withBody [.expression e]) := by
  obtain ⟨_, _, _, _, _, content⟩ := x
  cases content with
  | ofFunction f =>
    exact ⟨rfl, rfl, rfl, rfl, rfl,
      .ofFunction (f := f) (.inl rfl) (List.Sublist.refl _) (.inr ⟨e, he, rfl⟩)⟩
  | ofInitializer body => exact ⟨rfl, rfl, rfl, rfl, rfl, .ofInitializer (.inr ⟨e, he, rfl⟩)⟩
  | _ => exact .refl _

namespace Pass

section
variable {cx : Context} {c c' : Scope} {p q : Pass}

/-- what raises a problem is given a new call for its body, and all else stays -/
theorem declaration?_raiseIn (cx : Context) (p : Pass) (problem : Problem) (d a : DeclarationId) :
    (p.raiseIn cx problem d).forest.declaration? a
      = if d = a then (p.forest.declaration? a).map
          (Declaration.withBody [.expression ⟨p.forest.expressions.size + 1⟩])
        else p.forest.declaration? a := by
  obtain ⟨span, message, e⟩ := Forest.raiseIn_forest cx p problem d
  rw [e, Forest.declaration?_updateDeclaration]
  simp only [Forest.addExpression, Array.size_push]
  rfl

theorem frames_raiseIn {T K : DeclarationId → Prop} {d : DeclarationId} (problem : Problem)
    (ht : T d) : Frames cx.intrinsics T K p (p.raiseIn cx problem d) where
  name := rfl
  files := rfl
  symbol? := fun _ _ h => h
  declaration? := fun a x hx => by
    rw [declaration?_raiseIn, hx]
    by_cases e : d = a
    · obtain rfl := e
      rw [if_pos rfl]
      refine ⟨_, rfl, Declaration.becomes_withBody ?_, fun hT => absurd ht hT⟩
      simp [Forest.expression?]
    · rw [if_neg e]
      exact ⟨x, rfl, .refl x, fun _ => ⟨[], Declaration.enlist_nil.symm, fun _ => rfl⟩⟩
  expression? := fun e x hx => by
    obtain ⟨span, message, e'⟩ := Forest.raiseIn_forest cx p problem d
    rw [e', Forest.expression?_updateDeclaration]
    exact Forest.expression?_addExpression_of_some (Forest.expression?_addExpression_of_some hx)
  fresh := fun a y ha hy => by
    rw [declaration?_raiseIn, ha] at hy
    split at hy <;> cases hy
  owners := fun s x _ hs hx => by
    rw [show (p.raiseIn cx problem d).forest.symbol? s = p.forest.symbol? s from rfl, hs] at hx
    cases hx
  memo := .refl _
  examined := fun _ h => h
  repairs := ⟨[_], rfl, fun r hr => ⟨d, by rw [List.mem_singleton.mp hr], ht⟩⟩

theorem Step.frames (h : Step cx c p q) : Frames cx.intrinsics c.touched c.growing p q := by
  cases h with
  | ask l =>
    exact frames_of_forest_eq rfl (Forest.asked_exploreFirst p.forest l p.memo).keptIn
      (fun _ h => h) rfl
  | examine d => exact frames_of_forest_eq rfl (.refl _) (List.subset_cons_self _ _) rfl
  | amend ht h => exact frames_of_update ht fun x hx => (h x hx).becomes
  | @initializer d ht hd =>
    refine frames_of_grows (D := fun b => b = d) (Forest.grows_newInitializer rfl ?_) ?_
    · obtain ⟨info, hi⟩ := Option.isSome_iff_exists.mp hd
      obtain ⟨x, hx, _⟩ := Option.bind_eq_some_iff.mp hi
      exact Option.isSome_iff_exists.mpr ⟨x, hx⟩
    · rintro _ rfl
      exact .inl ht
  | raise problem ht _ => exact frames_raiseIn problem ht
  | @member d _ hg _ =>
    refine frames_of_grows (D := fun b => b = d) (Forest.grows_copyMember rfl) ?_
    rintro _ rfl
    exact .inr hg

/-- **A chain of steps edits what is in its scope, and only in the ways that have a reason.** -/
theorem Chain.frames (h : Chain cx c p q) : Frames cx.intrinsics c.touched c.growing p q := by
  induction h with
  | refl => exact .refl p
  | tail _ h ih => exact ih.trans h.frames

/-- a step asks, or it leaves the memo as it is -/
theorem Step.memo (h : Step cx c p q) : q.memo = p.memo ∨ ∃ l, q = (p.ask l).2 := by
  cases h with
  | ask l => exact .inr ⟨l, rfl⟩
  | _ => exact .inl rfl

end

/-- a pass whose memo can be relied on -/
structure Sane (p : Pass) : Prop where
  parents : p.forest.ParentsKnown
  sound : p.memo.Sound p.forest
  closed : p.memo.Closed

section
variable {cx : Context} {c : Scope} {p q : Pass}

theorem Step.sane (h : Step cx c p q) (hp : p.Sane) :
    q.Sane ∧ ∀ s, q.forest.Tainted q.memo s → p.forest.Tainted p.memo s := by
  have hparents := h.frames.parentsKnown hp.parents
  rcases h.memo with e | ⟨l, rfl⟩
  · have he := h.frames.eases hp.parents
    refine ⟨⟨hparents, e ▸ hp.sound.eases he, e ▸ hp.closed⟩, fun s hs => ?_⟩
    rw [e] at hs
    exact hs.of_eases he
  · have ha := Forest.asked_exploreFirst p.forest l p.memo
    exact ⟨⟨hp.parents, ha.sound hp.sound, ha.closed hp.closed⟩,
      fun s => (ha.tainted_iff hp.sound).mp⟩

/-- **A chain of steps keeps a sane pass sane**, and taints nothing. -/
theorem Chain.sane (h : Chain cx c p q) (hp : p.Sane) :
    q.Sane ∧ ∀ s, q.forest.Tainted q.memo s → p.forest.Tainted p.memo s := by
  induction h with
  | refl => exact ⟨hp, fun _ h => h⟩
  | tail _ h ih =>
    obtain ⟨hs, ht⟩ := h.sane ih.1
    exact ⟨hs, fun s h => ih.2 s (ht s h)⟩

theorem sane_start {F : Forest} (h : F.ParentsKnown) : (start F).Sane :=
  ⟨h, Memo.sound_empty F, Memo.closed_empty⟩

end

end Pass

end LinkRepair
