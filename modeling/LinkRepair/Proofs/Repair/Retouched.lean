import LinkRepair.Proofs.Repair.Raising

/-!
# What a repair can change at all

Whatever a forest is like, and whatever it is asked to repair, a repair touches few parts of it.

* `Forest.RaisesOnly`     a body that is one call which raises a linkage error;
* `Content.Retouched`     what may be different in a declaration that was there;
* `Forest.Retouched F G`  `G` is `F` with such differences, with calls in the place of expressions,
                          and with new nodes and symbols;
* `Chain.retouched`       the sweep over declarations stays within that;
* `Forest.Recalls`        what the sweep over expressions does to a forest;
* `repair_retouched`      so does the whole repair.
-/

namespace LinkRepair

/-- a body of one call that raises a linkage error -/
def Forest.RaisesOnly (I : Intrinsics) (F : Forest) (body : List Statement) : Prop :=
  ∃ e span a, body = [.expression e] ∧ F.expression? e = some (I.callWith span a)

/-- what may be different in the content of a declaration: some super types and overridden symbols are
gone, a class has more members, a type is a marker, an initial or default value is gone, and a body is
a call that raises a linkage error -/
inductive Content.Retouched (I : Intrinsics) (F G : Forest) : Content → Content → Prop
  | ofClass {c : ClassInfo} {superTypes : List TypeRef} {added : List DeclarationId}
      (ht : superTypes.Sublist c.superTypes) (ha : ∀ d ∈ added, F.declaration? d = none) :
      Retouched I F G (.ofClass c)
        (.ofClass { c with superTypes := superTypes, members := c.members ++ added })
  | ofFunction {f : FunctionInfo} {type : TypeRef} {overridden : List SymbolId}
      {body : Option (List Statement)} (ht : type = f.returnType ∨ ∃ s, type = I.markerType s)
      (ho : overridden.Sublist f.overridden)
      (hb : body = f.body ∨ ∃ b, body = some b ∧ G.RaisesOnly I b) :
      Retouched I F G (.ofFunction f)
        (.ofFunction { f with returnType := type, overridden := overridden, body := body })
  | ofProperty {p : PropertyInfo} {overridden : List SymbolId} (ho : overridden.Sublist p.overridden) :
      Retouched I F G (.ofProperty p) (.ofProperty { p with overridden := overridden })
  | ofField {f : FieldInfo} {type : TypeRef} {initializer : Option ExpressionId}
      (ht : type = f.type ∨ ∃ s, type = I.markerType s)
      (hi : initializer = f.initializer ∨ initializer = none) :
      Retouched I F G (.ofField f) (.ofField { f with type := type, initializer := initializer })
  | ofVariable {v : VariableInfo} {type : TypeRef} {initializer : Option ExpressionId}
      (ht : type = v.type ∨ ∃ s, type = I.markerType s)
      (hi : initializer = v.initializer ∨ initializer = none) :
      Retouched I F G (.ofVariable v) (.ofVariable { v with type := type, initializer := initializer })
  | ofParameter {p : ParameterInfo} {type : TypeRef} {element : Option TypeRef}
      {default : Option ExpressionId} (ht : type = p.type ∨ ∃ s, type = I.markerType s)
      (he : element = p.element ∨ ∃ s, element = p.element.map fun _ => I.markerType s)
      (hd : default = p.default ∨ default = none) :
      Retouched I F G (.ofParameter p) (.ofParameter ⟨type, element, default⟩)
  | ofTypeParameter {p : TypeParameterInfo} {bounds : List TypeRef}
      (hb : bounds = p.bounds ∨ ∃ s, bounds = [I.markerType s]) :
      Retouched I F G (.ofTypeParameter p) (.ofTypeParameter ⟨bounds⟩)
  | ofEnumEntry {e : EnumEntryInfo} : Retouched I F G (.ofEnumEntry e) (.ofEnumEntry e)
  | ofInitializer {body body' : List Statement} (hb : body' = body ∨ G.RaisesOnly I body') :
      Retouched I F G (.ofInitializer body) (.ofInitializer body')

structure Declaration.Retouched (I : Intrinsics) (F G : Forest) (x y : Declaration) : Prop where
  symbol : y.symbol = x.symbol
  name : y.name = x.name
  origin : y.origin = x.origin
  parent : y.parent = x.parent
  span : y.span = x.span
  content : x.content.Retouched I F G y.content

/-- an expression as it was, or a call that raises a linkage error in its place -/
def Expression.Recalled (I : Intrinsics) (x y : Expression) : Prop :=
  y = x ∨ ∃ a, y = I.callWith x.span a

structure Forest.Retouched (I : Intrinsics) (F G : Forest) : Prop where
  name : G.name = F.name
  files : G.files = F.files
  symbol? : ∀ s x, F.symbol? s = some x → G.symbol? s = some x
  declaration? : ∀ d x, F.declaration? d = some x →
    ∃ y, G.declaration? d = some y ∧ x.Retouched I F G y
  expression? : ∀ e x, F.expression? e = some x →
    ∃ y, G.expression? e = some y ∧ x.Recalled I y

/-! ## the sweep over declarations -/

section
variable {I : Intrinsics} {F G : Forest}

/-- the body is the one that was there, or a call that raises a linkage error -/
def Declaration.KeepsBody (I : Intrinsics) (G : Forest) (x y : Declaration) : Prop :=
  y.content.body? = x.content.body? ∨ ∃ b, y.content.body? = some b ∧ G.RaisesOnly I b

theorem Forest.RaisesOnly.mono {b : List Statement} (h : F.RaisesOnly I b)
    (he : ∀ e span a, F.expression? e = some (I.callWith span a) →
      ∃ a', G.expression? e = some (I.callWith span a')) : G.RaisesOnly I b := by
  obtain ⟨e, span, a, rfl, hx⟩ := h
  obtain ⟨a', hx'⟩ := he e span a hx
  exact ⟨e, span, a', rfl, hx'⟩

/-- edits of a signature that have a reason are such differences -/
theorem Content.Becomes.retouched {m : Memo} {s : SymbolId} {c c' : Content}
    (h : c.Becomes I F m s c')
    (hb : c'.body? = c.body? ∨ ∃ b, c'.body? = some b ∧ G.RaisesOnly I b) : c.Retouched I F G c' := by
  cases h with
  | ofClass ht _ ha => exact .ofClass ht ha
  | ofFunction ht ho _ => exact .ofFunction (ht.imp id fun ⟨c, _, e⟩ => ⟨c.symbol, e⟩) ho hb
  | ofProperty ho => exact .ofProperty ho
  | ofField h =>
    rcases h with rfl | ⟨c, _, rfl⟩
    · exact .ofField (.inl rfl) (.inl rfl)
    · exact .ofField (.inr ⟨c.symbol, rfl⟩) (.inr rfl)
  | ofVariable h =>
    rcases h with rfl | ⟨c, _, rfl⟩
    · exact .ofVariable (.inl rfl) (.inl rfl)
    · exact .ofVariable (.inr ⟨c.symbol, rfl⟩) (.inr rfl)
  | ofParameter h =>
    rcases h with rfl | ⟨c, _, rfl⟩
    · exact .ofParameter (.inl rfl) (.inl rfl) (.inl rfl)
    · exact .ofParameter (.inr ⟨c.symbol, rfl⟩) (.inr ⟨c.symbol, rfl⟩) (.inr rfl)
  | ofTypeParameter h =>
    rcases h with rfl | ⟨c, _, rfl⟩
    · exact .ofTypeParameter (.inl rfl)
    · exact .ofTypeParameter (.inr ⟨c.symbol, rfl⟩)
  | ofEnumEntry => exact .ofEnumEntry
  | ofInitializer _ =>
    refine .ofInitializer (hb.imp Option.some.inj ?_)
    rintro ⟨b, hb, h⟩
    exact Option.some.inj hb ▸ h

end

namespace Pass

section
variable {cx : Context} {c : Scope} {p q : Pass}

/-- a step keeps the body of a declaration, or makes it a call -/
theorem Step.keepsBody (h : Step cx c p q) {d : DeclarationId} {x y : Declaration}
    (hx : p.forest.declaration? d = some x) (hy : q.forest.declaration? d = some y) :
    x.KeepsBody cx.intrinsics q.forest y := by
  have hsame : ∀ {G : Forest}, q.forest = G → G.declaration? d = some x →
      x.KeepsBody cx.intrinsics q.forest y := fun e hG => by
    rw [e, hG] at hy
    exact .inl (congrArg _ (congrArg _ (Option.some.inj hy).symm))
  have hgrows : ∀ {G : Forest}, q.forest = G → Forest.Grows (fun _ => True) p.forest G →
      x.KeepsBody cx.intrinsics q.forest y := fun e hG => by
    obtain ⟨added, hd, _⟩ := hG.declaration? d x hx
    rw [e, hd] at hy
    obtain rfl := Option.some.inj hy
    obtain ⟨_, _, _, _, _, content⟩ := x
    refine .inl ?_
    cases content <;> rfl
  cases h with
  | ask => exact hsame rfl hx
  | examine => exact hsame rfl hx
  | @amend b g _ hg =>
    replace hy : (p.forest.updateDeclaration b g).declaration? d = some y := hy
    rw [Forest.declaration?_updateDeclaration, hx] at hy
    split at hy
    · rename_i e
      subst e
      obtain rfl := Option.some.inj hy
      exact .inl (hg x hx).body?
    · exact .inl (congrArg _ (congrArg _ (Option.some.inj hy).symm))
  | @initializer b _ hb =>
    obtain ⟨info, hinfo⟩ := Option.isSome_iff_exists.mp hb
    exact hgrows rfl (Forest.grows_newInitializer trivial (Forest.isSome_of_class? hinfo))
  | member => exact hgrows rfl (Forest.grows_copyMember trivial)
  | @raise b problem _ hroutine =>
    by_cases e : b = d
    · subst e
      have hvoices : (p.raiseIn cx problem b).forest.Voices cx.intrinsics (.declaration b) _ :=
        voices_raiseIn problem hroutine
      cases hvoices with
      | declaration hy' hbody hcalls =>
        obtain rfl := Option.some.inj (hy.symm.trans hy')
        obtain ⟨span, a, _, hcall, _⟩ := hcalls
        exact .inr ⟨_, hbody, _, span, a, rfl, hcall⟩
    · refine hsame rfl ?_
      rw [declaration?_raiseIn, if_neg e, hx]

theorem Chain.keepsBody (h : Chain cx c p q) {d : DeclarationId} {x y : Declaration}
    (hx : p.forest.declaration? d = some x) (hy : q.forest.declaration? d = some y) :
    x.KeepsBody cx.intrinsics q.forest y := by
  induction h generalizing y with
  | refl => exact .inl (congrArg _ (congrArg _ (Option.some.inj (hx.symm.trans hy)).symm))
  | tail hchain hstep ih =>
    obtain ⟨z, hz, _⟩ := (Chain.frames hchain).declaration? d x hx
    rcases hstep.keepsBody hz hy with hbody | hraises
    · rcases ih hz with hkept | ⟨b, hb, hraises⟩
      · exact .inl (hbody.trans hkept)
      · exact .inr ⟨b, hbody.trans hb, hraises.mono fun e span a he =>
          ⟨a, hstep.frames.expression? e _ he⟩⟩
    · exact .inr hraises

/-- **The sweep over declarations stays within what a repair can change.** -/
theorem Chain.retouched (h : Chain cx c p q) :
    Forest.Retouched cx.intrinsics p.forest q.forest where
  name := h.frames.name
  files := h.frames.files
  symbol? := h.frames.symbol?
  declaration? := fun d x hx => by
    obtain ⟨y, hy, hb, _⟩ := h.frames.declaration? d x hx
    exact ⟨y, hy, hb.symbol, hb.name, hb.origin, hb.parent, hb.span,
      hb.content.retouched (h.keepsBody hx hy)⟩
  expression? := fun e x hx => ⟨x, h.frames.expression? e x hx, .inl rfl⟩

end

end Pass

/-! ## the sweep over expressions -/

/-- `G` is `F` with calls in the place of some expressions, and with new expressions -/
structure Forest.Recalls (I : Intrinsics) (F G : Forest) : Prop where
  forest : G = { F with expressions := G.expressions }
  expression? : ∀ e x, F.expression? e = some x →
    ∃ y, G.expression? e = some y ∧ x.Recalled I y

theorem Expression.Recalled.trans {I : Intrinsics} {x y z : Expression} (h : x.Recalled I y)
    (h' : y.Recalled I z) : x.Recalled I z := by
  rcases h with rfl | ⟨a, rfl⟩
  · exact h'
  · exact .inr (h'.elim (fun e => ⟨a, e⟩) id)

namespace Forest

section
variable {I : Intrinsics} {F G H : Forest}

theorem Recalls.refl (F : Forest) : Recalls I F F := ⟨rfl, fun _ x h => ⟨x, h, .inl rfl⟩⟩

theorem Recalls.trans (h : Recalls I F G) (h' : Recalls I G H) : Recalls I F H where
  forest := by
    rw [h'.forest, h.forest]
  expression? := fun e x hx => by
    obtain ⟨y, hy, hxy⟩ := h.expression? e x hx
    obtain ⟨z, hz, hyz⟩ := h'.expression? e y hy
    exact ⟨z, hz, hxy.trans hyz⟩

theorem Recalls.retouched (h : Retouched I F G) (h' : Recalls I G H) : Retouched I F H where
  name := by rw [h'.forest]; exact h.name
  files := by rw [h'.forest]; exact h.files
  symbol? := by rw [h'.forest]; exact h.symbol?
  declaration? := fun d x hx => by
    obtain ⟨y, hy, hb⟩ := h.declaration? d x hx
    have hraises : ∀ {b}, G.RaisesOnly I b → H.RaisesOnly I b := fun hb =>
      hb.mono fun e span a he => by
        obtain ⟨z, hz, rfl | ⟨a', rfl⟩⟩ := h'.expression? e _ he
        · exact ⟨a, hz⟩
        · exact ⟨a', hz⟩
    refine ⟨y, by rw [h'.forest]; exact hy, hb.symbol, hb.name, hb.origin, hb.parent, hb.span, ?_⟩
    have hcontent := hb.content
    generalize x.content = c, y.content = c' at hcontent ⊢
    cases hcontent with
    | ofClass ht ha => exact .ofClass ht ha
    | ofFunction ht ho hb => exact .ofFunction ht ho (hb.imp id fun ⟨b, e, hb⟩ => ⟨b, e, hraises hb⟩)
    | ofProperty ho => exact .ofProperty ho
    | ofField ht hi => exact .ofField ht hi
    | ofVariable ht hi => exact .ofVariable ht hi
    | ofParameter ht he hd => exact .ofParameter ht he hd
    | ofTypeParameter hb => exact .ofTypeParameter hb
    | ofEnumEntry => exact .ofEnumEntry
    | ofInitializer hb => exact .ofInitializer (hb.imp id hraises)
  expression? := fun e x hx => by
    obtain ⟨y, hy, hxy⟩ := h.expression? e x hx
    obtain ⟨z, hz, hyz⟩ := h'.expression? e y hy
    exact ⟨z, hz, hxy.trans hyz⟩

end

end Forest

namespace Pass

section
variable {cx : Context} {p q : Pass}

/-- the argument of the call is new, and the call has the span of the expression in whose place it
stands -/
theorem recalls_replaceExpression (file : Option FileId) (e : ExpressionId) (problem : Problem) :
    Forest.Recalls cx.intrinsics p.forest (p.replaceExpression cx file e problem).forest := by
  obtain ⟨message, hforest⟩ : ∃ message, (p.replaceExpression cx file e problem).forest
      = (p.forest.addExpression (cx.intrinsics.messageArgument
          (((p.forest.expression? e).map Expression.span).getD .undefined) message)).2.updateExpression e
        fun _ => cx.intrinsics.callWith (((p.forest.expression? e).map Expression.span).getD .undefined)
          ⟨p.forest.expressions.size⟩ := ⟨_, rfl⟩
  rw [hforest]
  refine ⟨rfl, fun a x hx => ?_⟩
  rw [Forest.expression?_updateExpression, Forest.expression?_addExpression_of_some hx]
  split
  · rename_i ea
    subst ea
    rw [hx]
    exact ⟨_, rfl, .inr ⟨_, rfl⟩⟩
  · exact ⟨x, rfl, .inl rfl⟩

theorem recalls_enterExpression (file : Option FileId) (n : Node) :
    Forest.Recalls cx.intrinsics p.forest (enterExpression cx file p n).1.forest := by
  cases n with
  | declaration d => exact .refl _
  | expression e =>
    unfold enterExpression
    dsimp only
    split
    · exact .refl _
    · exact recalls_replaceExpression (p := { p with memo := _ }) file e _

theorem recalls_sweepExpressions (root : Root) :
    Forest.Recalls cx.intrinsics p.forest (sweepExpressions cx p root).forest := by
  refine walkAll_invariant (P := fun q : Pass => Forest.Recalls cx.intrinsics p.forest q.forest) _ _
    (walk_invariant _ (fun s n hs => ?_) _) _ _ (.refl _)
  exact hs.trans (recalls_enterExpression _ n)

theorem recalls_repairExpressions : ∀ (roots : List Root) (p : Pass),
    Forest.Recalls cx.intrinsics p.forest (repairExpressions cx roots p).forest := by
  intro roots
  induction roots with
  | nil => exact fun p => .refl _
  | cons root roots ih => exact fun p => (recalls_sweepExpressions root).trans (ih _)

/-- **Whatever is repaired, in whatever forest, little is changed.**  The files are as they were, and
so is every symbol.  A declaration keeps its symbol, name, origin, parent, span and kind.  A class may
have fewer super types and more members, the new ones at the end; fewer symbols may be overridden; a
type may be a marker, and a list of bounds one marker; an initial or default value may be gone; a body
may be one call that raises a linkage error.  An expression is as it was, or such a call with the same
span. -/
theorem repair_retouched (cx : Context) (roots : List Root) (F : Forest) :
    Forest.Retouched cx.intrinsics F (repair cx roots F).forest :=
  (recalls_repairExpressions roots _).retouched (chain_repairDeclarations cx roots (.start F)).retouched

end

end Pass

end LinkRepair
