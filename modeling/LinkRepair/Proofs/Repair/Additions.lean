import LinkRepair.Proofs.Repair.Kinds

/-!
# What the sweep over declarations adds

In a kind-correct forest the sweep adds functions with parameters and type parameters of their own,
and initializers; their bodies are new calls.  Nothing that was there before hangs below them.

* `Forest.Fashioned`       the form of an added declaration;
* `Forest.Sprouts B G`     whatever `G` has over `B` is of that form;
* `exists_sprouts_copies`  the copies of a signature, before the function lists them;
* `sprouts_copyMember`     a copied member is, if the slots of its source hold what they are for;
* `Forest.Bears`           a source of copies: a function whose slots fit.
-/

namespace LinkRepair

namespace Forest

/-- a statement that was not there in `B` -/
def NewCall (B : Forest) (st : Statement) : Prop :=
  ∃ e, st = .expression e ∧ B.expression? e = none

/-- the form of a declaration that is added to `B`; its type parameters are stand-ins only if those
of its source are, which `S` allows -/
def Fashioned (S : Prop) (B F : Forest) (x : Declaration) : Prop :=
  match x.content with
  | .ofFunction f => x.origin = .unimplemented ∧ F.Fits (.ofFunction f)
      ∧ (∀ a ∈ (Content.ofFunction f).slots, B.declaration? a = none)
      ∧ ∀ st ∈ f.body.getD [], B.NewCall st
  | .ofParameter p => x.origin = .defined ∧ p.default = none
  | .ofTypeParameter _ => x.origin = .missing → S
  | .ofInitializer body => x.origin = .missing ∧ ∀ st ∈ body, B.NewCall st
  | _ => False

def Sprouts (S : Prop) (B G : Forest) : Prop :=
  ∀ d x, B.declaration? d = none → G.declaration? d = some x → B.Fashioned S G x

/-- a type parameter, which is a stand-in only if `S` allows it -/
def BearsTypeParameter (S : Prop) (F : Forest) (d : DeclarationId) : Prop :=
  ∃ x p, F.declaration? d = some x ∧ x.content = .ofTypeParameter p ∧ (x.origin = .missing → S)

/-- a function that can be copied -/
def Bears (S : Prop) (F : Forest) (f : FunctionInfo) : Prop :=
  (∀ t ∈ f.typeParameters, F.BearsTypeParameter S t) ∧ ∀ q ∈ f.parameters, F.HasParameter q

section
variable {S : Prop} {B F G H : Forest}

theorem Fashioned.keeps {x : Declaration} (h : B.Fashioned S F x) (hk : F.Keeps G) :
    B.Fashioned S G x := by
  unfold Fashioned at h ⊢
  cases hc : x.content with
  | ofFunction f =>
    rw [hc] at h
    exact ⟨h.1, h.2.1.keeps hk, h.2.2⟩
  | _ =>
    rw [hc] at h
    exact h

theorem sprouts_refl (B : Forest) : B.Sprouts S B := by
  intro d x h h'
  rw [h] at h'
  cases h'

theorem Sprouts.declare {kind : SymbolKind} {signature : Option Signature} {x : Declaration}
    (h : B.Sprouts S G)
    (hx : B.Fashioned S ((G.addSymbol kind signature).2.addDeclaration x).2 x) :
    B.Sprouts S ((G.addSymbol kind signature).2.addDeclaration x).2 := by
  intro d y hd hy
  have hkeeps : G.Keeps ((G.addSymbol kind signature).2.addDeclaration x).2 :=
    keeps_of_declaration? fun _ _ => declaration?_declare_of_some
  rw [declaration?_addDeclaration] at hy
  split at hy
  · obtain rfl := Option.some.inj hy
    exact hx
  · exact (h d y hd hy).keeps hkeeps

theorem Sprouts.build {d : DeclarationId} {g : Declaration → Declaration} (h : B.Sprouts S G)
    (hk : G.Keeps (G.updateDeclaration d g))
    (hg : ∀ x, G.declaration? d = some x → B.declaration? d = none →
      B.Fashioned S (G.updateDeclaration d g) (g x)) :
    B.Sprouts S (G.updateDeclaration d g) := by
  intro a y ha hy
  rw [declaration?_updateDeclaration] at hy
  split at hy
  · rename_i e
    obtain rfl := e
    obtain ⟨x, hx, rfl⟩ := Option.map_eq_some_iff.mp hy
    exact hg x hx ha
  · exact (h a y ha hy).keeps hk

/-! ## copies -/

theorem sprouts_copyTypeParameter (function : DeclarationId) {d : DeclarationId} (h : B.Sprouts S G)
    (hd : G.BearsTypeParameter S d) :
    B.Sprouts S (G.copyTypeParameter function d).2
      ∧ (∀ c ∈ (G.copyTypeParameter function d).1.2,
          (G.copyTypeParameter function d).2.HasTypeParameter c)
      ∧ ∀ a y, G.declaration? a = some y →
          (G.copyTypeParameter function d).2.declaration? a = some y := by
  obtain ⟨x, p, hx, hp, hS⟩ := hd
  unfold copyTypeParameter
  rw [hx]
  refine ⟨h.declare ?_, fun c hc => ?_, fun _ _ => declaration?_declare_of_some⟩
  · unfold Fashioned
    rw [hp]
    exact hS
  · rw [List.mem_singleton.mp hc]
    exact ⟨_, p, (declaration?_addDeclaration _ _ _).trans (if_pos rfl), hp⟩

theorem sprouts_copyTypeParameters (function : DeclarationId) : ∀ {ds : List DeclarationId}
    {G : Forest}, B.Sprouts S G → (∀ d ∈ ds, G.BearsTypeParameter S d) →
    B.Sprouts S (copyTypeParameters function G ds).2
      ∧ (∀ c ∈ (copyTypeParameters function G ds).1.2,
          (copyTypeParameters function G ds).2.HasTypeParameter c)
      ∧ ∀ a y, G.declaration? a = some y →
          (copyTypeParameters function G ds).2.declaration? a = some y := by
  intro ds
  induction ds with
  | nil => intro G h _; exact ⟨h, fun c hc => absurd hc List.not_mem_nil, fun _ _ h => h⟩
  | cons d ds ih =>
    intro G h hds
    obtain ⟨h₁, hc₁, hl₁⟩ := sprouts_copyTypeParameter function h
      (hds d List.mem_cons_self)
    have hrest : ∀ a ∈ ds, (G.copyTypeParameter function d).2.BearsTypeParameter S a := by
      intro a ha
      obtain ⟨x, p, hx, hp, hS⟩ := hds a (List.mem_cons_of_mem _ ha)
      exact ⟨x, p, hl₁ a x hx, hp, hS⟩
    obtain ⟨h₂, hc₂, hl₂⟩ := ih h₁ hrest
    refine ⟨h₂, fun c hc => ?_, fun a y hy => hl₂ a y (hl₁ a y hy)⟩
    rcases List.mem_append.mp hc with hc | hc
    · exact (keeps_of_declaration? hl₂).typeParameter c (hc₁ c hc)
    · exact hc₂ c hc

theorem keeps_mapTypeParameter {d : DeclarationId}
    {f : TypeParameterInfo → TypeParameterInfo} :
    G.Keeps (G.updateDeclaration d (Declaration.mapTypeParameter f)) := by
  refine keeps_updateDeclaration (fun x p hp => ⟨p, ?_⟩) fun x p hp => ⟨f p, ?_⟩
  · unfold Declaration.mapTypeParameter
    rw [hp]
    exact hp
  · unfold Declaration.mapTypeParameter
    rw [hp]

theorem sprouts_renameBounds (r : Renaming) : ∀ {copies : List DeclarationId} {G : Forest},
    B.Sprouts S G → B.Sprouts S (renameBounds r G copies) ∧ G.Keeps (renameBounds r G copies) := by
  intro copies
  induction copies with
  | nil => intro G h; exact ⟨h, .refl G⟩
  | cons d copies ih =>
    intro G h
    have hk : G.Keeps (G.updateDeclaration d <| Declaration.mapTypeParameter fun p =>
      ⟨p.bounds.map (TypeRef.rename r.apply)⟩) := keeps_mapTypeParameter
    obtain ⟨h', hk'⟩ := ih (h.build hk fun x hx hd => by
      have hf := (h d x hd hx).keeps hk
      unfold Fashioned at hf ⊢
      unfold Declaration.mapTypeParameter
      cases hc : x.content <;> simp only [hc] at hf ⊢ <;> exact hf)
    exact ⟨h', hk.trans hk'⟩

theorem sprouts_copyParameter (r : Renaming) (function : DeclarationId) {d : DeclarationId}
    (h : B.Sprouts S G) (hd : G.HasParameter d) :
    B.Sprouts S (copyParameter r function G d).2
      ∧ (∀ c ∈ (copyParameter r function G d).1, (copyParameter r function G d).2.HasParameter c)
      ∧ G.Keeps (copyParameter r function G d).2 := by
  obtain ⟨x, p, hx, hp⟩ := hd
  unfold copyParameter
  rw [hx]
  refine ⟨h.declare ?_, fun c hc => ?_,
    keeps_of_declaration? fun _ _ => declaration?_declare_of_some⟩
  · unfold Fashioned renamedParameter
    rw [hp]
    exact ⟨rfl, rfl⟩
  · rw [List.mem_singleton.mp hc]
    exact ⟨_, _, (declaration?_addDeclaration _ _ _).trans (if_pos rfl),
      congrArg (renamedParameter r) hp⟩

theorem sprouts_copyParameters (r : Renaming) (function : DeclarationId) :
    ∀ {ds : List DeclarationId} {G : Forest}, B.Sprouts S G → (∀ d ∈ ds, G.HasParameter d) →
    B.Sprouts S (copyParameters r function G ds).2
      ∧ (∀ c ∈ (copyParameters r function G ds).1,
          (copyParameters r function G ds).2.HasParameter c)
      ∧ G.Keeps (copyParameters r function G ds).2 := by
  intro ds
  induction ds with
  | nil => intro G h _; exact ⟨h, fun c hc => absurd hc List.not_mem_nil, .refl G⟩
  | cons d ds ih =>
    intro G h hds
    obtain ⟨h₁, hc₁, hk₁⟩ := sprouts_copyParameter r function h
      (hds d List.mem_cons_self)
    obtain ⟨h₂, hc₂, hk₂⟩ := ih h₁ fun a ha => hk₁.parameter a (hds a (List.mem_cons_of_mem _ ha))
    refine ⟨h₂, fun c hc => ?_, hk₁.trans hk₂⟩
    rcases List.mem_append.mp hc with hc | hc
    · exact hk₂.parameter c (hc₁ c hc)
    · exact hc₂ c hc

theorem keeps_mapFunction {d : DeclarationId} {g : FunctionInfo → FunctionInfo} :
    G.Keeps (G.updateDeclaration d (Declaration.mapFunction g)) := by
  refine keeps_updateDeclaration (fun x p hp => ⟨p, ?_⟩) fun x p hp => ⟨p, ?_⟩ <;>
    (unfold Declaration.mapFunction; rw [hp]; exact hp)

/-- a receiver of the type of its class -/
theorem sprouts_newOwnReceiver (owner : Declaration) (function : DeclarationId) (h : B.Sprouts S G) :
    B.Sprouts S (G.newOwnReceiver owner function).2
      ∧ (G.newOwnReceiver owner function).2.HasParameter (G.newOwnReceiver owner function).1
      ∧ G.Keeps (G.newOwnReceiver owner function).2 :=
  ⟨h.declare (by unfold Fashioned; exact ⟨rfl, rfl⟩),
    ⟨_, _, (declaration?_addDeclaration _ _ _).trans (if_pos rfl), rfl⟩,
    keeps_of_declaration? fun _ _ => declaration?_declare_of_some⟩

/-- a function with the copied parameters, in terms of them -/
def withCopies (r : Renaming) (types extension parameters : List DeclarationId)
    (dispatch : DeclarationId) : Declaration → Declaration :=
  Declaration.mapFunction fun g =>
    { g with
      returnType := g.returnType.rename r.apply
      typeParameters := types
      extensionReceiver := extension.head?
      valueParameters := parameters
      dispatchReceiver := some dispatch }

/-- the parameters of a function that can be copied are copied under a new function -/
theorem exists_sprouts_copies {D : DeclarationId → Prop} (owner : Declaration) {f : FunctionInfo}
    {function : DeclarationId} (hg : Grows D B G) (h : B.Sprouts S G)
    (hf : function.index < G.declarations.size) (hbears : G.Bears S f) :
    ∃ H r types extension parameters dispatch,
      G.copySignature owner f function
        = H.updateDeclaration function (withCopies r types extension parameters dispatch)
      ∧ B.Sprouts S H ∧ (∀ t ∈ types, H.HasTypeParameter t ∧ B.declaration? t = none)
      ∧ ∀ q ∈ dispatch :: (extension ++ parameters), H.HasParameter q ∧ B.declaration? q = none := by
  unfold copySignature
  dsimp only
  obtain ⟨g₁, n₁, s₁⟩ := grows_copyTypeParameters f.typeParameters hg hf
  obtain ⟨h₁, t₁, l₁⟩ := sprouts_copyTypeParameters function h hbears.1
  generalize copyTypeParameters function G f.typeParameters = types at g₁ n₁ s₁ h₁ t₁ l₁
  obtain ⟨g₂, s₂⟩ := grows_renameBounds (r := types.1.1) g₁ n₁
  obtain ⟨h₂, k₂⟩ := @sprouts_renameBounds S B types.1.1 types.1.2 _ h₁
  have hf₂ := s₂ ▸ Nat.lt_of_lt_of_le hf s₁
  have k₁₂ : G.Keeps (renameBounds types.1.1 types.2 types.1.2) :=
    (keeps_of_declaration? l₁).trans k₂
  generalize renameBounds types.1.1 types.2 types.1.2 = G₂ at g₂ s₂ h₂ k₂ hf₂ k₁₂
  obtain ⟨g₃, n₃, s₃⟩ := grows_copyParameters types.1.1 f.extensionReceiver.toList g₂ hf₂
  obtain ⟨h₃, p₃, k₃⟩ := sprouts_copyParameters types.1.1 function h₂ fun q hq =>
    k₁₂.parameter q (hbears.2 q (List.mem_append_left _ (List.mem_append_right _ hq)))
  have hf₃ := Nat.lt_of_lt_of_le hf₂ s₃
  generalize copyParameters types.1.1 function G₂ f.extensionReceiver.toList = extension
    at g₃ n₃ s₃ h₃ p₃ k₃ hf₃
  obtain ⟨g₄, n₄, s₄⟩ := grows_copyParameters types.1.1 f.valueParameters g₃ hf₃
  obtain ⟨h₄, p₄, k₄⟩ := sprouts_copyParameters types.1.1 function h₃ fun q hq =>
    (k₁₂.trans k₃).parameter q (hbears.2 q (List.mem_append_right _ hq))
  generalize copyParameters types.1.1 function extension.2 f.valueParameters = parameters
    at g₄ n₄ s₄ h₄ p₄ k₄
  -- the receiver comes last
  obtain ⟨h₅, p₅, k₅⟩ := sprouts_newOwnReceiver owner function h₄
  have n₅ : B.declaration? (parameters.2.newOwnReceiver owner function).1 = none := g₄.next
  refine ⟨_, types.1.1, types.1.2, extension.1, parameters.1, _, rfl, h₅, fun t ht => ⟨?_, n₁ t ht⟩,
    fun q hq => ?_⟩
  · exact (((k₂.trans k₃).trans k₄).trans k₅).typeParameter t (t₁ t ht)
  · rcases List.mem_cons.mp hq with rfl | hq
    · exact ⟨p₅, n₅⟩
    · rcases List.mem_append.mp hq with hq | hq
      · exact ⟨(k₄.trans k₅).parameter q (p₃ q hq), n₃ q hq⟩
      · exact ⟨k₅.parameter q (p₄ q hq), n₄ q hq⟩

/-- the signature of a function is copied under a function that is new itself -/
theorem sprouts_copySignature {D : DeclarationId → Prop} {owner : Declaration} {f : FunctionInfo}
    {function : DeclarationId} (hg : Grows D B G) (h : B.Sprouts S G)
    (hf : function.index < G.declarations.size)
    (hbears : G.Bears S f) : B.Sprouts S (G.copySignature owner f function) := by
  obtain ⟨H, r, types, extension, parameters, dispatch, e, h', htypes, hparameters⟩ :=
    exists_sprouts_copies owner hg h hf hbears
  have hlisted : ∀ q ∈ [dispatch] ++ extension.head?.toList ++ parameters,
      H.HasParameter q ∧ B.declaration? q = none := fun q hq => hparameters q <| by
    rcases List.mem_append.mp hq with hq | hq
    · rcases List.mem_append.mp hq with hq | hq
      · exact List.mem_cons.mpr (.inl (List.mem_singleton.mp hq))
      · exact List.mem_cons_of_mem _ (List.mem_append_left _
          (List.mem_of_head? (Option.mem_toList.mp hq)))
    · exact List.mem_cons_of_mem _ (List.mem_append_right _ hq)
  have hkeeps : H.Keeps (H.updateDeclaration function (withCopies r types extension parameters dispatch)) :=
    keeps_mapFunction
  rw [e]
  refine h'.build hkeeps fun x hx hd => ?_
  have hx' := (h' function x hd hx).keeps hkeeps
  unfold Fashioned at hx' ⊢
  unfold withCopies Declaration.mapFunction at hkeeps ⊢
  cases hc : x.content with
  | ofFunction info =>
    rw [hc] at hx'
    refine ⟨hx'.1, ⟨fun t ht => hkeeps.typeParameter t (htypes t ht).1,
      fun q hq => hkeeps.parameter q (hlisted q hq).1⟩, fun a ha => ?_, hx'.2.2.2⟩
    rcases List.mem_append.mp ha with ha | ha
    · exact (htypes a ha).2
    · exact (hlisted a ha).2
  | _ => simp [hc] at hx' ⊢ <;> exact hx'

theorem keeps_setParent {child : DeclarationId} {parent : Parent} :
    G.Keeps (G.updateDeclaration child fun x => { x with parent := some parent }) :=
  keeps_updateDeclaration (fun _ p hp => ⟨p, hp⟩) fun _ p hp => ⟨p, hp⟩

theorem keeps_addMember {d child : DeclarationId} :
    G.Keeps (G.updateDeclaration d (Declaration.addMember child)) := by
  refine keeps_updateDeclaration (fun x p hp => ⟨p, ?_⟩) fun x p hp => ⟨p, ?_⟩ <;>
    (unfold Declaration.addMember Declaration.mapClass; rw [hp]; exact hp)

/-- listing a new declaration in a class that was there -/
theorem Sprouts.attach {d child : DeclarationId} (h : B.Sprouts S G)
    (hd : (B.declaration? d).isSome) : B.Sprouts S (G.attach (.declaration d) child) := by
  refine Sprouts.build (h.build keeps_setParent fun x hx hc => ?_) keeps_addMember fun x _ hc => ?_
  · exact (h child x hc hx).keeps keeps_setParent
  · rw [hc] at hd
    cases hd

/-- a function can still be copied when there is more -/
theorem Bears.grows {D : DeclarationId → Prop} {f : FunctionInfo} (h : F.Bears S f)
    (hg : Grows D F G) : G.Bears S f := by
  have hkept : ∀ d x, F.declaration? d = some x → x.isClass = false → G.declaration? d = some x := by
    intro d x hx hc
    obtain ⟨added, hy, _⟩ := hg.declaration? d x hx
    rw [hy, Declaration.enlist_of_not_isClass hc]
  refine ⟨fun t ht => ?_, fun q hq => ?_⟩
  · obtain ⟨x, p, hx, hp, hS⟩ := h.1 t ht
    exact ⟨x, p, hkept t x hx (by simp [Declaration.isClass, Declaration.class?, hp]), hp, hS⟩
  · obtain ⟨x, p, hx, hp⟩ := h.2 q hq
    exact ⟨x, p, hkept q x hx (by simp [Declaration.isClass, Declaration.class?, hp]), hp⟩

/-- **A copied member has a form of its own**, parameters and type parameters included. -/
theorem sprouts_copyMember {d m : DeclarationId} (hm : ∀ f, F.function? m = some f → F.Bears S f) :
    F.Sprouts S (F.copyMember d m).2 := by
  unfold copyMember
  split
  · rename_i owner source f ho _ hf
    have hd : (F.declaration? d).isSome := Option.isSome_iff_exists.mpr ⟨owner, ho⟩
    dsimp only
    generalize hx : (⟨(F.addSymbol .function (F.memberSignature owner source.name)).1, source.name,
      .unimplemented, none, owner.span, .ofFunction (emptyCopy f source.symbol)⟩ : Declaration) = x
    have hnew : F.Sprouts S
        ((F.addSymbol .function (F.memberSignature owner source.name)).2.addDeclaration x).2 := by
      apply (sprouts_refl F).declare
      rw [← hx]
      unfold Fashioned
      exact ⟨rfl, ⟨fun t ht => absurd ht List.not_mem_nil, fun q hq => absurd hq List.not_mem_nil⟩,
        fun a ha => absurd ha List.not_mem_nil, fun st hst => absurd hst List.not_mem_nil⟩
    have hgrows : Grows (fun b => b = d) F
        ((F.addSymbol .function (F.memberSignature owner source.name)).2.addDeclaration x).2 := by
      refine (Grows.refl F).declare (by rw [← hx]) (fun p hp => ?_) fun _ c hc => ?_
      · rw [← hx] at hp
        cases hp
      · rw [← hx] at hc
        cases hc
    have hroutine : ((F.addSymbol .function (F.memberSignature owner source.name)).2.addDeclaration
        x).2.HasRoutine ⟨F.declarations.size⟩ :=
      ⟨x, (declaration?_addDeclaration _ _ _).trans (if_pos rfl), by rw [← hx]; rfl⟩
    have hsize := size_addDeclaration (G := (F.addSymbol .function
      (F.memberSignature owner source.name)).2) x
    have hnext : ((F.addSymbol .function (F.memberSignature owner source.name)).2.addDeclaration x).1
      = ⟨F.declarations.size⟩ := rfl
    generalize (F.addSymbol .function (F.memberSignature owner source.name)).2.addDeclaration x = made
      at hnew hgrows hroutine hsize hnext
    have hattach := hgrows.attach (hnext ▸ F.declaration?_size) (hnext ▸ hroutine) rfl hd
    refine sprouts_copySignature hattach (hnew.attach hd) ?_ ((hm f hf).grows hattach)
    rw [size_attach, hsize, hnext]
    exact Nat.lt_succ_self _
  · exact sprouts_refl F

end

end Forest

end LinkRepair
