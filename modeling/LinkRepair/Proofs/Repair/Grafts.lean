import LinkRepair.Proofs.Repair.Additions

/-!
# A forest under repair

While the first sweep goes on, what is there beyond the forest that it started with are declarations
of a known form, the calls in their bodies, and the arguments of these.

* `Forest.Inserted`    the form of an expression that is put there;
* `Forest.Listed`      what classes list beyond what they listed before are functions and initializers;
* `Forest.Bequests`    every function that is inherited below the roots can be copied;
* `Pass.Grafted`       the invariant: a pass that comes from `F`, and nothing but such additions;
* `Step.grafted`       every step for the sake of a class that is reached keeps it;
* `count_children`     whatever was there in `F` hangs below the same nodes as in `F`, or below none.
-/

namespace LinkRepair

namespace Forest

/-- the call that raises a problem, with an argument that was not there in `B`, or such an argument -/
inductive Inserted (I : Intrinsics) (B : Forest) : Expression → Prop
  | call (span : Span) {a : ExpressionId} (ha : B.expression? a = none) :
      Inserted I B (I.callWith span a)
  | argument (span : Span) (message : String) : Inserted I B (I.messageArgument span message)

/-- the classes of `G` are those of `B`, with no members but routines beyond those that they had -/
def Listed (B G : Forest) : Prop :=
  ∀ d c, G.class? d = some c → ∃ c₀ added, B.class? d = some c₀ ∧ c.members = c₀.members ++ added
    ∧ ∀ a ∈ added, G.HasRoutine a

/-- what was there is below the roots -/
def Known (F : Forest) (roots : List Root) (n : Node) : Prop := F.Stores n → F.Reaches roots n

/-- the functions that are inherited below the roots can be copied -/
def Bequests (S : Prop) (F : Forest) (roots : List Root) : Prop :=
  ∀ m x f, F.Bequeaths roots m x f → F.Bears S f

/-- those whose slots fit can, whatever their type parameters stand for -/
theorem bequests_of_fits {F : Forest} {roots : List Root}
    (h : ∀ m x f, F.Bequeaths roots m x f → F.Fits x.content) : F.Bequests True roots := by
  intro m x f hm
  have hfits := h m x f hm
  obtain ⟨_, _, _, _, _, _, _, _, hf⟩ := hm
  rw [hf] at hfits
  refine ⟨fun t ht => ?_, hfits.2⟩
  obtain ⟨y, p, hy, hp⟩ := hfits.1 t ht
  exact ⟨y, p, hy, hp, fun _ => trivial⟩

theorem KindCorrect.bequests {F : Forest} {roots : List Root} (h : F.KindCorrect roots) :
    F.Bequests True roots := bequests_of_fits h.inherited

section
variable {S : Prop} {I : Intrinsics} {B F G H : Forest} {m : Memo}

theorem NewCall.of_none {st : Statement} (h : F.NewCall st)
    (he : ∀ e, F.expression? e = none → B.expression? e = none) : B.NewCall st := by
  obtain ⟨e, rfl, hnone⟩ := h
  exact ⟨e, rfl, he e hnone⟩

/-- what is of that form over `F` is so over what `F` comes from -/
theorem Fashioned.of_none {x : Declaration} (h : F.Fashioned S G x)
    (hd : ∀ d, F.declaration? d = none → B.declaration? d = none)
    (he : ∀ e, F.expression? e = none → B.expression? e = none) : B.Fashioned S G x := by
  unfold Fashioned at h ⊢
  cases hc : x.content <;> rw [hc] at h <;> try exact h
  · exact ⟨h.1, h.2.1, fun a ha => hd a (h.2.2.1 a ha), fun st hst => (h.2.2.2 st hst).of_none he⟩
  · exact ⟨h.1, fun st hst => (h.2 st hst).of_none he⟩

/-- an added declaration keeps its form when it is edited -/
theorem Fashioned.becomes {x y : Declaration} (h : B.Fashioned S G x) (hb : x.Becomes I F m y)
    (he : ∀ e, F.expression? e = none → B.expression? e = none) : B.Fashioned S G y := by
  have hc := hb.content
  have ho := hb.origin
  unfold Fashioned at h ⊢
  generalize hx : x.content = c at hc
  generalize y.content = c' at hc
  rw [hx] at h
  rw [ho]
  cases hc with
  | @ofFunction f type overridden body ht _ hbody =>
    refine ⟨h.1, h.2.1, h.2.2.1, fun st hst => ?_⟩
    rcases hbody with rfl | ⟨e, hnone, rfl⟩
    · exact h.2.2.2 st hst
    · exact ⟨e, List.mem_singleton.mp hst, he e hnone⟩
  | ofParameter hp =>
    rcases hp with rfl | ⟨c, _, rfl⟩
    · exact h
    · exact ⟨h.1, rfl⟩
  | ofInitializer hbody =>
    refine ⟨h.1, fun st hst => ?_⟩
    rcases hbody with rfl | ⟨e, hnone, rfl⟩
    · exact h.2 st hst
    · exact ⟨e, List.mem_singleton.mp hst, he e hnone⟩
  | _ => exact h

theorem Inserted.of_none {x : Expression} (h : F.Inserted I x)
    (he : ∀ e, F.expression? e = none → B.expression? e = none) : B.Inserted I x := by
  cases h with
  | call span ha => exact .call span (he _ ha)
  | argument span message => exact .argument span message

/-! ## what classes list -/

theorem Listed.refl (F : Forest) : F.Listed F := fun _ c hc =>
  ⟨c, [], hc, (List.append_nil _).symm, fun _ ha => absurd ha List.not_mem_nil⟩

theorem Listed.trans (h : B.Listed F) (h' : F.Listed G)
    (hr : ∀ a, F.HasRoutine a → G.HasRoutine a) : B.Listed G := by
  intro d c hc
  obtain ⟨c', added', hc', hm', ha'⟩ := h' d c hc
  obtain ⟨c₀, added, hc₀, hm, ha⟩ := h d c' hc'
  refine ⟨c₀, added ++ added', hc₀, by rw [hm', hm, List.append_assoc], fun a hmem => ?_⟩
  exact (List.mem_append.mp hmem).elim (fun hmem => hr a (ha a hmem)) (ha' a)

/-- when no class is added, it is enough to look at each declaration that was there -/
theorem Sprouts.listed (hs : B.Sprouts S G)
    (h : ∀ d x, B.declaration? d = some x → ∀ y c, G.declaration? d = some y → y.class? = some c →
      ∃ c₀ added, x.class? = some c₀ ∧ c.members = c₀.members ++ added
        ∧ ∀ a ∈ added, G.HasRoutine a) : B.Listed G := by
  intro d c hc
  obtain ⟨y, hy, hyc⟩ := Forest.class?_eq hc
  cases hx : B.declaration? d with
  | none =>
    have hf := hs d y hx hy
    unfold Fashioned at hf
    rw [class?_eq_some.mp hyc] at hf
    exact hf.elim
  | some x =>
    obtain ⟨c₀, added, hxc, hm, ha⟩ := h d x hx y c hy hyc
    exact ⟨c₀, added, by simp [class?, hx, hxc], hm, ha⟩

/-! ## what is below -/

theorem NewCall.not_stores {st : Statement} (h : B.NewCall st) : ¬ B.Stores st.node := by
  obtain ⟨e, rfl, he⟩ := h
  intro hs
  rw [show B.Stores (Statement.expression e).node = (B.expression? e).isSome from rfl, he] at hs
  cases hs

theorem not_stores_declaration {d : DeclarationId} (h : B.declaration? d = none) :
    ¬ B.Stores (.declaration d) := by
  intro hs
  rw [show B.Stores (.declaration d) = (B.declaration? d).isSome from rfl, h] at hs
  cases hs

/-- nothing that was there hangs below an added declaration -/
theorem Fashioned.not_stores {x : Declaration} (h : B.Fashioned S G x) :
    ∀ n ∈ x.content.children, ¬ B.Stores n := by
  intro n hn
  unfold Fashioned at h
  cases hc : x.content with
  | ofFunction f =>
    rw [hc] at h hn
    rcases List.mem_append.mp hn with hn | hn
    · obtain ⟨d, hd, rfl⟩ := List.mem_map.mp hn
      refine not_stores_declaration (h.2.2.1 d ?_)
      simpa [Content.slots, FunctionInfo.parameters] using hd
    · obtain ⟨st, hst, rfl⟩ := List.mem_map.mp hn
      exact (h.2.2.2 st hst).not_stores
  | ofParameter p =>
    rw [hc] at h hn
    simp [Content.children, h.2] at hn
  | ofInitializer body =>
    rw [hc] at h hn
    obtain ⟨st, hst, rfl⟩ := List.mem_map.mp hn
    exact (h.2 st hst).not_stores
  | ofTypeParameter p =>
    rw [hc] at hn
    exact absurd hn List.not_mem_nil
  | _ =>
    rw [hc] at h
    exact h.elim

theorem Inserted.exists_of_mem_children {x : Expression} (h : B.Inserted I x) {n : Node}
    (hn : n ∈ x.operation.children) : ∃ a, n = .expression a ∧ B.expression? a = none := by
  cases h with
  | @call span a ha =>
    have hna : n = .expression a := by
      simpa [Intrinsics.callWith, Operation.children, Operation.operands, Access.operands] using hn
    exact ⟨a, hna, ha⟩
  | argument =>
    simp [Intrinsics.messageArgument, Operation.children, Operation.operands] at hn

theorem Inserted.not_stores {x : Expression} (h : B.Inserted I x) :
    ∀ n ∈ x.operation.children, ¬ B.Stores n := by
  intro n hn
  obtain ⟨a, rfl, ha⟩ := h.exists_of_mem_children hn
  simp [Stores, ha]

/-- a new initializer has no statements -/
theorem sprouts_newInitializer {d : DeclarationId} (hd : (F.declaration? d).isSome) :
    F.Sprouts S (F.newInitializer d .missing).2 := by
  refine Sprouts.attach ((sprouts_refl F).declare ?_) hd
  unfold Fashioned
  exact ⟨rfl, fun st hst => absurd hst List.not_mem_nil⟩

end

end Forest

/-- below a declaration that was there is what was below it, or something new -/
theorem Content.Becomes.count_children {I : Intrinsics} {F : Forest} {m : Memo} {s : SymbolId} {c c' : Content}
    (h : c.Becomes I F m s c') {n : Node} (hn : F.Stores n) :
    c'.children.count n ≤ c.children.count n := by
  have hcall : ∀ e, F.expression? e = none → ([Statement.expression e].map Statement.node).count n = 0 := by
    refine fun e he => List.count_eq_zero.mpr fun hmem => ?_
    rw [List.mem_singleton.mp hmem, show F.Stores _ = (F.expression? e).isSome from rfl, he] at hn
    cases hn
  cases h with
  | @ofClass c superTypes added _ _ ha =>
    have hzero : (added.map Node.declaration).count n = 0 := by
      apply List.count_eq_zero.mpr
      intro hmem
      obtain ⟨d, hd, rfl⟩ := List.mem_map.mp hmem
      exact Forest.not_stores_declaration (ha d hd) hn
    simp only [Content.children, List.map_append, List.count_append, hzero]
    exact Nat.le_refl _
  | @ofFunction f type overridden body _ _ hb =>
    rcases hb with rfl | ⟨e, he, rfl⟩
    · exact Nat.le_refl _
    · simp only [Content.children, Option.getD_some, List.count_append, hcall e he]
      omega
  | ofField h => rcases h with rfl | ⟨_, _, rfl⟩ <;> simp [Content.children]
  | ofVariable h => rcases h with rfl | ⟨_, _, rfl⟩ <;> simp [Content.children]
  | ofParameter h => rcases h with rfl | ⟨_, _, rfl⟩ <;> simp [Content.children, ParameterInfo.broken]
  | ofInitializer h =>
    rcases h with rfl | ⟨e, he, rfl⟩
    · exact Nat.le_refl _
    · rw [Content.children, hcall e he]
      exact Nat.zero_le _
  | _ => exact Nat.le_refl _

/-- an edit of a signature leaves the members of a class as they are -/
theorem Declaration.Amends.members {I : Intrinsics} {F : Forest} {m : Memo}
    {x y : Declaration} (h : x.Amends I F m y) {c : ClassInfo} (hc : y.class? = some c) :
    ∃ c₀, x.class? = some c₀ ∧ c.members = c₀.members := by
  obtain ⟨_, _, _, _, _, content⟩ := x
  cases h <;> cases content <;> first | exact ⟨_, rfl, by cases hc; rfl⟩ | cases hc

namespace Pass

/-- a stage of the repair of `F` -/
structure Grafted (I : Intrinsics) (S : Prop) (F : Forest) (p : Pass) : Prop where
  frames : Frames I (fun _ => True) (fun _ => True) (.start F) p
  sprouts : F.Sprouts S p.forest
  listed : F.Listed p.forest
  inserted : ∀ e x, F.expression? e = none → p.forest.expression? e = some x → F.Inserted I x

section
variable {cx : Context} {I : Intrinsics} {c : Scope} {S : Prop} {F : Forest} {roots : List Root}
  {p q : Pass}

/-! ## what a step adds -/

theorem Step.sprouts (h : Step cx c p q) (hm : ∀ m f, p.forest.Offers c.heirs m →
    p.forest.function? m = some f → p.forest.Bears S f) : p.forest.Sprouts S q.forest := by
  cases h with
  | ask => exact Forest.sprouts_refl _
  | examine => exact Forest.sprouts_refl _
  | @amend a g =>
    intro d y hd hy
    replace hy : (p.forest.updateDeclaration a g).declaration? d = some y := hy
    rw [Forest.declaration?_updateDeclaration, hd] at hy
    split at hy <;> cases hy
  | @raise a problem =>
    intro d y hd hy
    rw [declaration?_raiseIn, hd] at hy
    split at hy <;> cases hy
  | initializer _ hd =>
    obtain ⟨info, hinfo⟩ := Option.isSome_iff_exists.mp hd
    exact Forest.sprouts_newInitializer (Forest.isSome_of_class? hinfo)
  | member _ ho => exact Forest.sprouts_copyMember fun f hf => hm _ f ho hf

/-- the only steps that add expressions are those that raise a problem -/
theorem Step.expressions (h : Step cx c p q) : q.forest.expressions = p.forest.expressions
    ∨ ∃ problem d, q = p.raiseIn cx problem d := by
  cases h with
  | @raise d problem => exact .inr ⟨problem, d, rfl⟩
  | @initializer d _ hd =>
    obtain ⟨info, hinfo⟩ := Option.isSome_iff_exists.mp hd
    have hg : Forest.Grows (fun _ => True) p.forest (p.forest.newInitializer d .missing).2 :=
      Forest.grows_newInitializer trivial (Forest.isSome_of_class? hinfo)
    exact .inl hg.expressions
  | @member d m =>
    have hg : Forest.Grows (fun _ => True) p.forest (p.forest.copyMember d m).2 :=
      Forest.grows_copyMember trivial
    exact .inl hg.expressions
  | _ => exact .inl rfl

theorem Step.inserted (h : Step cx c p q) {e : ExpressionId} {x : Expression}
    (he : p.forest.expression? e = none) (hx : q.forest.expression? e = some x) :
    p.forest.Inserted cx.intrinsics x := by
  rcases h.expressions with heq | ⟨problem, d, rfl⟩
  · rw [Forest.expression?, heq, show p.forest.expressions[e.index]? = none from he] at hx
    cases hx
  · obtain ⟨span, message, ef⟩ := Forest.raiseIn_forest cx p problem d
    rw [ef, Forest.expression?_updateDeclaration, Forest.expression?_addExpression] at hx
    split at hx
    · obtain rfl := Option.some.inj hx
      exact .call span (by simp [Forest.expression?])
    · rw [Forest.expression?_addExpression] at hx
      split at hx
      · obtain rfl := Option.some.inj hx
        exact .argument span message
      · rw [he] at hx
        cases hx

/-- what is added to forests that grow is listed as a member -/
theorem listed_of_grows {D : DeclarationId → Prop} {G : Forest} (h : Forest.Grows D p.forest G)
    (hs : p.forest.Sprouts S G) : p.forest.Listed G := by
  apply hs.listed
  intro d x hx y c hy hc
  obtain ⟨added, hy', ha, _⟩ := h.declaration? d x hx
  obtain rfl := Option.some.inj (hy.symm.trans hy')
  rw [Declaration.enlist, Declaration.class?_mapClass, Option.map_eq_some_iff] at hc
  obtain ⟨c₀, hc₀, rfl⟩ := hc
  exact ⟨c₀, added, hc₀, rfl, fun a hmem => (ha a hmem).2⟩

theorem Step.listed (h : Step cx c p q) (hs : p.forest.Sprouts S q.forest) :
    p.forest.Listed q.forest := by
  cases h with
  | ask => exact .refl _
  | examine => exact .refl _
  | @amend a g _ ha =>
    apply hs.listed
    intro d x hx y info hy hc
    replace hy : (p.forest.updateDeclaration a g).declaration? d = some y := hy
    rw [Forest.declaration?_updateDeclaration, hx] at hy
    split at hy
    · rename_i e
      obtain rfl := Option.some.inj hy
      obtain ⟨c₀, hc₀, hm⟩ := (ha x (e ▸ hx)).members hc
      exact ⟨c₀, [], hc₀, by rw [hm, List.append_nil], fun _ ha => absurd ha List.not_mem_nil⟩
    · obtain rfl := Option.some.inj hy
      exact ⟨info, [], hc, (List.append_nil _).symm, fun _ ha => absurd ha List.not_mem_nil⟩
  | @raise a problem =>
    refine hs.listed fun d x hx y info hy hc => ⟨info, [], ?_, (List.append_nil _).symm,
      fun _ ha => absurd ha List.not_mem_nil⟩
    rw [declaration?_raiseIn, hx] at hy
    split at hy
    · obtain rfl := Option.some.inj hy
      obtain ⟨_, _, _, _, _, content⟩ := x
      cases content <;> exact hc
    · obtain rfl := Option.some.inj hy
      exact hc
  | @initializer d _ hd =>
    obtain ⟨info, hinfo⟩ := Option.isSome_iff_exists.mp hd
    exact listed_of_grows (D := fun _ => True)
      (Forest.grows_newInitializer trivial (Forest.isSome_of_class? hinfo)) hs
  | member => exact listed_of_grows (D := fun _ => True) (Forest.grows_copyMember trivial) hs

/-! ## stages -/

theorem grafted_start (F : Forest) : (start F).Grafted I S F where
  frames := .refl _
  sprouts := Forest.sprouts_refl F
  listed := .refl F
  inserted := by
    intro e x h h'
    rw [show (start F).forest.expression? e = F.expression? e from rfl, h] at h'
    cases h'

namespace Grafted

/-! ## what is inherited -/

/-- every class was there before -/
theorem of_class? (h : p.Grafted I S F) {d : DeclarationId} {info : ClassInfo}
    (hd : p.forest.class? d = some info) :
    ∃ info₀ added, F.class? d = some info₀ ∧ info.superTypes.Sublist info₀.superTypes
      ∧ info.members = info₀.members ++ added ∧ ∀ a ∈ added, F.declaration? a = none := by
  obtain ⟨y, hy, hyc⟩ := Forest.class?_eq hd
  have hyc := Forest.class?_eq_some.mp hyc
  cases hx : F.declaration? d with
  | none =>
    have hf := h.sprouts d y hx hy
    unfold Forest.Fashioned at hf
    rw [hyc] at hf
    exact hf.elim
  | some x =>
    have hb := h.frames.becomes hx hy
    have hc := hb.content
    rw [hyc] at hc
    generalize hxc : x.content = content at hc
    cases hc with
    | @ofClass info₀ _ added ht _ ha =>
      exact ⟨info₀, added, by simp [Forest.class?, hx, Declaration.class?, hxc], ht, rfl, ha⟩

theorem classOf? (h : p.Grafted I S F) {s : SymbolId} {b : DeclarationId}
    (hs : p.forest.classOf? s = some b) : F.classOf? s = some b := by
  unfold Forest.classOf? at hs ⊢
  split at hs
  · cases hs
  · rename_i hmissing
    obtain ⟨ho, hb⟩ := Option.filter_eq_some_iff.mp hs
    obtain ⟨y, hy, hyc⟩ := (Option.any_eq_true _ _).mp hb
    obtain ⟨info, hinfo⟩ := Option.isSome_iff_exists.mp hyc
    obtain ⟨_, _, hclass, _⟩ := h.of_class?
      (show p.forest.class? b = some info from Option.bind_eq_some_iff.mpr ⟨y, hy, hinfo⟩)
    have hsome := Forest.isSome_of_class? hclass
    have hF : F.owner? s = some b := by
      obtain ⟨z, hz, hzo⟩ := Forest.owner?_eq_some ho
      cases hz₀ : F.symbol? s with
      | none =>
        have hnone : F.declaration? b = none := h.frames.owners s z b hz₀ hz hzo
        rw [hnone] at hsome
        cases hsome
      | some z₀ =>
        obtain rfl := Option.some.inj (hz.symm.trans (h.frames.symbol? s z₀ hz₀))
        exact Option.bind_eq_some_iff.mpr ⟨z, hz₀, hzo⟩
    have hm : p.forest.isMissing s = F.isMissing s := h.frames.isMissing_eq hF hsome
    have ha : (p.forest.declaration? b).any Declaration.isClass
      = (F.declaration? b).any Declaration.isClass := h.frames.any_isClass hsome
    rw [← hm, if_neg hmissing, hF, Option.filter_some, ← ha, if_pos hb]

theorem bases (h : p.Grafted I S F) {a b : DeclarationId} (hb : b ∈ p.forest.bases a) :
    b ∈ F.bases a := by
  unfold Forest.bases at hb ⊢
  cases hc : p.forest.class? a with
  | none =>
    rw [hc] at hb
    exact absurd hb List.not_mem_nil
  | some info =>
    obtain ⟨info₀, added, hc₀, ht, _⟩ := h.of_class? hc
    rw [hc] at hb
    rw [hc₀]
    obtain ⟨s, hs, hbs⟩ := List.mem_filterMap.mp hb
    exact List.mem_filterMap.mpr ⟨s, (ht.filterMap _).subset hs, h.classOf? hbs⟩

/-- only what was inherited before is inherited -/
theorem inherits (h : p.Grafted I S F) {a b : DeclarationId} (hb : p.forest.Inherits a b) :
    F.Inherits a b :=
  Relation.ReflTransGen.mono (fun _ _ hab => h.bases hab) _ _ hb

/-- a function that can be copied in `F` can be copied now -/
theorem bears (h : p.Grafted I S F) {f : FunctionInfo} (hf : F.Bears S f) : p.forest.Bears S f := by
  refine ⟨fun t ht => ?_, fun a ha => h.frames.keeps.parameter a (hf.2 a ha)⟩
  obtain ⟨x, info, hx, hxc, hS⟩ := hf.1 t ht
  obtain ⟨y, info', hy, hyc⟩ := h.frames.keeps.typeParameter t ⟨x, info, hx, hxc⟩
  exact ⟨y, info', hy, hyc, fun ho => hS ((h.frames.becomes hx hy).origin ▸ ho)⟩

/-- what a class below the roots is offered can be copied -/
theorem bears_of_offers (h : p.Grafted I S F) (hF : F.Bequests S roots)
    {heirs : DeclarationId → Prop} (hheirs : ∀ r, heirs r → F.Known roots (.declaration r))
    {m : DeclarationId} (hm : p.forest.Offers heirs m) {f : FunctionInfo}
    (hf : p.forest.function? m = some f) : p.forest.Bears S f := by
  obtain ⟨r, b, hr, hrb, hmb⟩ := hm
  obtain ⟨info, hinfo, hmem, _⟩ := Forest.exists_of_mem_memberFunctions hmb
  obtain ⟨info₀, added, hinfo₀, _, hmembers, hadded⟩ := h.of_class? hinfo
  obtain ⟨y, hy, hyf⟩ := Option.bind_eq_some_iff.mp hf
  have hyc : y.content = .ofFunction f := by
    obtain ⟨_, _, _, _, _, content⟩ := y
    cases content <;> cases hyf
    rfl
  cases hx : F.declaration? m with
  | none =>
    have hfash := h.sprouts m y hx hy
    unfold Forest.Fashioned at hfash
    rw [hyc] at hfash
    obtain ⟨_, hfits, hnew, _⟩ := hfash
    refine ⟨fun t ht => ?_, hfits.2⟩
    obtain ⟨z, info, hz, hzc⟩ := hfits.1 t ht
    have hfash := h.sprouts t z (hnew t (List.mem_append_left _ ht)) hz
    unfold Forest.Fashioned at hfash
    rw [hzc] at hfash
    exact ⟨z, info, hz, hzc, hfash⟩
  | some x =>
    have hm₀ : m ∈ info₀.members := by
      rw [hmembers] at hmem
      apply (List.mem_append.mp hmem).resolve_right
      intro ha
      rw [hadded m ha] at hx
      cases hx
    have hb := h.frames.becomes hx hy
    have hc := hb.content
    rw [hyc] at hc
    generalize hxc : x.content = content at hc
    cases hc with
    | @ofFunction f₀ =>
      have hstored : F.Stores (.declaration r) := by
        rcases Relation.ReflTransGen.cases_head (h.inherits hrb) with rfl | ⟨a, ha, _⟩
        · exact Forest.isSome_of_class? hinfo₀
        · unfold Forest.bases at ha
          cases hcr : F.class? r with
          | none =>
            rw [hcr] at ha
            exact absurd ha List.not_mem_nil
          | some _ => exact Forest.isSome_of_class? hcr
      exact h.bears (f := f₀) (hF m x f₀ ⟨r, b, info₀, hheirs r hr hstored, h.inherits hrb, hinfo₀, hm₀, hx, hxc⟩)

/-! ## steps -/

/-- **A step for the sake of classes that are reached adds nothing of another form.** -/
theorem step (h : p.Grafted cx.intrinsics S F) (hF : F.Bequests S roots)
    (hheirs : ∀ r, c.heirs r → F.Known roots (.declaration r)) (hs : Step cx c p q) :
    q.Grafted cx.intrinsics S F := by
  have hframes := hs.frames
  have hdnone : ∀ d, p.forest.declaration? d = none → F.declaration? d = none := fun _ =>
    h.frames.declaration?_none
  have henone : ∀ e, p.forest.expression? e = none → F.expression? e = none := fun _ =>
    h.frames.expression?_none
  have hnew := hs.sprouts fun m f hm hf => h.bears_of_offers hF hheirs hm hf
  refine ⟨h.frames.trans (hframes.mono (fun _ _ => trivial) fun _ _ => trivial),
    fun d y hd hy => ?_, h.listed.trans (hs.listed hnew) fun _ => hframes.hasRoutine,
    fun e x he hx => ?_⟩
  · cases hx : p.forest.declaration? d with
    | some x =>
      have hb := hframes.becomes hx hy
      exact ((h.sprouts d x hd hx).keeps hframes.keeps).becomes hb henone
    | none => exact (hnew d y hx hy).of_none hdnone henone
  · cases hx' : p.forest.expression? e with
    | some x' =>
      obtain rfl := Option.some.inj (hx.symm.trans (hframes.expression? e x' hx'))
      exact h.inserted e x he hx'
    | none => exact (hs.inserted hx' hx).of_none henone

theorem chain (h : p.Grafted cx.intrinsics S F) (hF : F.Bequests S roots)
    (hheirs : ∀ r, c.heirs r → F.Known roots (.declaration r)) (hc : Chain cx c p q) :
    q.Grafted cx.intrinsics S F := by
  induction hc with
  | refl => exact h
  | tail _ hs ih => exact ih.step hF hheirs hs

/-! ## what is below a node -/

/-- below a node is what was below it in `F`, as often or less, and what is new -/
theorem count_children (h : p.Grafted I S F) (a : Node) {n : Node} (hn : F.Stores n) :
    (p.forest.children a).count n ≤ (F.children a).count n := by
  have hzero : ∀ {l : List Node}, (∀ b ∈ l, ¬ F.Stores b) → ∀ k, l.count n ≤ k := by
    intro l hl k
    rw [List.count_eq_zero.mpr fun hmem => hl n hmem hn]
    exact Nat.zero_le k
  cases a with
  | declaration d =>
    cases hy : p.forest.declaration? d with
    | none =>
      refine hzero (fun b hb => ?_) _
      simp [Forest.children, hy] at hb
    | some y =>
      rw [Forest.children_declaration hy]
      cases hx : F.declaration? d with
      | none => exact hzero (h.sprouts d y hx hy).not_stores _
      | some x =>
        have hb := h.frames.becomes hx hy
        rw [Forest.children_declaration hx]
        exact hb.content.count_children hn
  | expression e =>
    cases hy : p.forest.expression? e with
    | none =>
      refine hzero (fun b hb => ?_) _
      simp [Forest.children, hy] at hb
    | some y =>
      cases hx : F.expression? e with
      | none =>
        rw [Forest.children_expression hy]
        exact hzero (h.inserted e y hx hy).not_stores _
      | some x =>
        obtain rfl := Option.some.inj (hy.symm.trans (h.frames.expression? e x hx))
        exact Nat.le_of_eq (by rw [Forest.children_expression hy, Forest.children_expression hx])

theorem mem_children (h : p.Grafted I S F) {a n : Node} (hn : F.Stores n)
    (hmem : n ∈ p.forest.children a) : n ∈ F.children a :=
  List.count_pos_iff.mp (Nat.lt_of_lt_of_le (List.count_pos_iff.mpr hmem) (h.count_children a hn))

/-- below a known node all are known -/
theorem known_child (h : p.Grafted I S F) {a n : Node} (ha : F.Known roots a)
    (hmem : n ∈ p.forest.children a) : F.Known roots n := by
  intro hn
  have hchild : F.Child a n := h.mem_children hn hmem
  obtain ⟨d, hd, hreach⟩ := ha hchild.stores
  exact ⟨d, hd, hreach.tail hchild⟩

end Grafted

end

end Pass

end LinkRepair
