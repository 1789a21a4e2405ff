import LinkRepair.Proofs.Repair.Inheritance
import LinkRepair.Repair.Basic

/-!
# The sweep over declarations as a chain of steps

* `Content.edited`          the declarations that a visit of a declaration may edit: itself, and its
                            parameters and type parameters;
* `Pass.scope`              these, with all that the visit adds;
* `chain_enterDeclaration`  a visit is a chain of steps within that scope;
* `chain_repairDeclarations`  so is the whole sweep, with everything in its scope.
-/

namespace LinkRepair

/-- what a visit of the declaration `d` with this content may edit -/
def Content.edited (d : DeclarationId) : Content → List DeclarationId
  | .ofClass c => d :: c.typeParameters
  | .ofFunction f => d :: (f.typeParameters ++ f.dispatchReceiver.toList
      ++ f.extensionReceiver.toList ++ f.valueParameters)
  | .ofProperty _ | .ofField _ | .ofVariable _ => [d]
  | .ofParameter _ | .ofTypeParameter _ | .ofEnumEntry _ | .ofInitializer _ => []

/-- the parts of a signature before the return type, and those after it -/
theorem FunctionInfo.signature_eq (f : FunctionInfo) :
    f.signature = (f.extensionReceiver.toList ++ f.valueParameters).map SignaturePart.parameter
      ++ .returnType :: (f.typeParameters.map SignaturePart.typeParameter
        ++ f.dispatchReceiver.toList.map SignaturePart.parameter) := by
  simp [FunctionInfo.signature]

/-- what a visit of the node `n` may edit, the first initializer of a class included -/
def Forest.Edits (F : Forest) (n : Node) (a : DeclarationId) : Prop :=
  ∃ d x, n = .declaration d ∧ F.declaration? d = some x
    ∧ (a ∈ x.content.edited d ∨ F.initializer? d = some a)

/-- every declaration may be edited, and every class may grow -/
def Scope.everything : Scope := ⟨fun _ => True, fun _ => True, fun _ => True⟩

namespace Pass

/-- what a visit of `n` has to do with -/
def scope (p : Pass) (n : Node) : Scope where
  touched a := p.forest.Edits n a ∨ p.forest.declaration? a = none
  growing a := a ∉ p.examined
  heirs a := n = .declaration a

section
variable {cx : Context} {c : Scope} {p q : Pass}

/-! ## questions -/

theorem chain_ask (l : List SymbolId) : Chain cx c p (p.ask l).2 := .single (.ask p l)

/-- a question that is answered with a cause leaves the reason in the memo -/
theorem blames_of_ask (p : Pass) (l : List SymbolId) (cause : Cause)
    (h : (p.ask l).1 = some cause) :
    (p.ask l).2.memo.Blames l cause := Forest.exists_find?_of_exploreFirst h

/-- the answer to one question is in the memo -/
theorem find?_ask (p : Pass) (s : SymbolId) : (p.ask [s]).2.memo.find? s = some (p.ask [s]).1 := by
  have hfind := p.forest.find?_explore p.memo s
  show (p.forest.exploreFirst p.memo [s]).2.find? s = some (p.forest.exploreFirst p.memo [s]).1
  cases hv : (p.forest.explore p.memo s).1 with
  | some k => rw [Forest.exploreFirst_cons_of_some hv, hfind, hv]
  | none =>
    rw [Forest.exploreFirst_cons_of_none hv]
    exact hfind.trans (congrArg some hv)

theorem linkedTypes_spec : ∀ (ts : List TypeRef) (p : Pass),
    (p.linkedTypes ts).1.Sublist ts ∧ (p.linkedTypes ts).2.forest = p.forest
      ∧ ∀ {cx c}, Chain cx c p (p.linkedTypes ts).2 := by
  intro ts
  induction ts with
  | nil => intro p; exact ⟨List.Sublist.refl _, rfl, fun {_ _} => .refl⟩
  | cons t ts ih =>
    intro p
    obtain ⟨hl, hf, hc⟩ := ih (p.ask t.mentioned).2
    refine ⟨?_, hf, fun {_ _} => (chain_ask t.mentioned).trans hc⟩
    show (if _ then _ else _ : List TypeRef).Sublist _
    split
    · exact hl.cons_cons t
    · exact hl.cons t

theorem keptIn_linkedTypes : ∀ (ts : List TypeRef) (p : Pass),
    p.memo.KeptIn (p.linkedTypes ts).2.memo := by
  intro ts
  induction ts with
  | nil => exact fun p => .refl p.memo
  | cons t ts ih =>
    exact fun p => (Forest.asked_exploreFirst p.forest t.mentioned p.memo).keptIn.trans
      (ih (p.ask t.mentioned).2)

/-- a type that is left out mentions a broken classifier -/
theorem mem_linkedTypes_or_blames : ∀ {ts : List TypeRef} {p : Pass} {t : TypeRef}, t ∈ ts →
    t ∈ (p.linkedTypes ts).1 ∨ ∃ k, (p.linkedTypes ts).2.memo.Blames t.mentioned k := by
  intro ts
  induction ts with
  | nil => intro p t ht; exact absurd ht List.not_mem_nil
  | cons u ts ih =>
    intro p t ht
    have hkept : (p.linkedTypes (u :: ts)).1 = if (p.ask u.mentioned).1.isNone
      then u :: ((p.ask u.mentioned).2.linkedTypes ts).1
      else ((p.ask u.mentioned).2.linkedTypes ts).1 := rfl
    rw [hkept]
    rcases List.mem_cons.mp ht with rfl | ht
    · cases hv : (p.ask t.mentioned).1 with
      | none => exact .inl List.mem_cons_self
      | some k => exact .inr ⟨k, (p.blames_of_ask t.mentioned k hv).mono (keptIn_linkedTypes ts _)⟩
    · refine (ih ht).imp_left fun h => ?_
      split
      · exact List.mem_cons_of_mem _ h
      · exact h

/-! ## signatures -/

theorem each_append {α : Type} (f : Pass → α → Verdict × Pass) : ∀ (l l' : List α) (p : Pass),
    each f p (l ++ l')
      = ((each f p l).1.or (each f (each f p l).2 l').1, (each f (each f p l).2 l').2) := by
  intro l l'
  induction l with
  | nil => intro p; rfl
  | cons a l ih =>
    intro p
    show ((f p a).1.or (each f (f p a).2 (l ++ l')).1, (each f (f p a).2 (l ++ l')).2) = _
    rw [ih]
    simp [each, Option.or_assoc]

theorem each_cons {α : Type} (f : Pass → α → Verdict × Pass) (a : α) (l : List α) (p : Pass) :
    each f p (a :: l) = ((f p a).1.or (each f (f p a).2 l).1, (each f (f p a).2 l).2) := rfl

/-- what is done to one thing after another, and what it keeps -/
theorem chain_each {α : Type} {f : Pass → α → Verdict × Pass} {P : Pass → Prop} :
    ∀ {l : List α} {p : Pass},
      (∀ q, ∀ a ∈ l, P q → Chain cx c q (f q a).2 ∧ P (f q a).2) → P p →
      Chain cx c p (each f p l).2 ∧ P (each f p l).2 := by
  intro l
  induction l with
  | nil => intro p _ hp; exact ⟨.refl, hp⟩
  | cons a l ih =>
    intro p h hp
    obtain ⟨h₁, hp₁⟩ := h p a List.mem_cons_self hp
    obtain ⟨h₂, hp₂⟩ := ih (fun q b hb => h q b (List.mem_cons_of_mem _ hb)) hp₁
    exact ⟨h₁.trans h₂, hp₂⟩

theorem chain_fixParameter (cx : Context) (p : Pass) {d : DeclarationId} (ht : c.touched d) :
    Chain cx c p (p.fixParameter cx d).2
      ∧ ∀ a, (p.fixParameter cx d).2.forest.function? a = p.forest.function? a := by
  unfold fixParameter
  split
  · exact ⟨.refl, fun _ => rfl⟩
  · rename_i info hinfo
    have hc : Chain cx c p _ := chain_ask (info.types.flatMap TypeRef.mentioned)
    have hb := fun k => p.blames_of_ask (info.types.flatMap TypeRef.mentioned) k
    have hf := ask_forest p (info.types.flatMap TypeRef.mentioned)
    generalize p.ask (info.types.flatMap TypeRef.mentioned) = answer at hc hb hf
    obtain ⟨_ | cause, p'⟩ := answer
    · exact ⟨hc, fun _ => by rw [hf]⟩
    · refine ⟨hc.tail (.amend ht fun x hx => .parameter fun info' hinfo' => ?_), fun a => ?_⟩
      · rw [hf] at hx
        simp only [Forest.parameter?, hx, Option.bind_some] at hinfo
        obtain rfl := Option.some.inj (hinfo.symm.trans hinfo')
        exact hb cause rfl
      · rw [← hf]
        refine Forest.function?_update fun x => ?_
        obtain ⟨_, _, _, _, _, content⟩ := x
        cases content <;> rfl

theorem chain_fixTypeParameter {d : DeclarationId} (ht : c.touched d) :
    Chain cx c p (p.fixTypeParameter cx d).2 := by
  unfold fixTypeParameter
  split
  · exact .refl
  · rename_i x hx
    have hc : Chain cx c p _ := chain_ask [x.symbol]
    have hb := fun k => p.blames_of_ask [x.symbol] k
    have hf := ask_forest p [x.symbol]
    generalize p.ask [x.symbol] = answer at hc hb hf
    obtain ⟨_ | cause, p'⟩ := answer
    · exact hc
    · refine hc.tail (.amend ht fun y hy => .bounds ?_)
      rw [hf] at hy
      obtain rfl := Option.some.inj (hx.symm.trans hy)
      obtain ⟨s, hs, hfind⟩ := hb cause rfl
      rwa [List.mem_singleton.mp hs] at hfind

theorem chain_fixReturnType {d : DeclarationId} {f : FunctionInfo} (ht : c.touched d)
    (hd : p.forest.function? d = some f) :
    Chain cx c p (p.fixReturnType cx d f.returnType).2 := by
  unfold fixReturnType
  have hc : Chain cx c p _ := chain_ask f.returnType.mentioned
  have hb := fun k => p.blames_of_ask f.returnType.mentioned k
  have hf := ask_forest p f.returnType.mentioned
  generalize p.ask f.returnType.mentioned = answer at hc hb hf
  obtain ⟨_ | cause, p'⟩ := answer
  · exact hc
  · refine hc.tail (.amend ht fun x hx => .returnType fun f' hf' => ?_)
    rw [hf] at hx
    simp only [Forest.function?, hx, Option.bind_some] at hd
    obtain rfl := Option.some.inj (hd.symm.trans hf')
    exact hb cause rfl

theorem chain_fixSignature {d : DeclarationId}
    (ht : ∀ x, p.forest.declaration? d = some x → ∀ a ∈ x.content.edited d, c.touched a) :
    Chain cx c p (p.fixSignature cx d).2 := by
  unfold fixSignature
  split
  · exact .refl
  · rename_i f hf
    obtain ⟨x, hx, hxf⟩ := Option.bind_eq_some_iff.mp hf
    have hcontent : x.content = .ofFunction f := by
      obtain ⟨_, _, _, _, _, content⟩ := x
      cases content <;> cases hxf
      rfl
    have htouch := ht x hx
    rw [hcontent] at htouch
    simp only [Content.edited, List.mem_cons, List.mem_append] at htouch
    rw [FunctionInfo.signature_eq, each_append]
    obtain ⟨h₁, hf₁⟩ := chain_each (f := fixPart cx d f.returnType)
      (P := fun q => q.forest.function? d = some f)
      (l := (f.extensionReceiver.toList ++ f.valueParameters).map SignaturePart.parameter)
      (p := p) (fun q part hpart hq => by
        obtain ⟨a, ha, rfl⟩ := List.mem_map.mp hpart
        have hta : c.touched a := htouch a (by
          rcases List.mem_append.mp ha with ha | ha
          · exact .inr (.inl (.inr ha))
          · exact .inr (.inr ha))
        obtain ⟨hc, hfun⟩ := chain_fixParameter cx q hta
        exact ⟨hc, (hfun d).trans hq⟩) hf
    apply h₁.trans
    rw [each_cons]
    apply (chain_fixReturnType (htouch d (.inl rfl)) hf₁).trans
    refine (chain_each (P := fun _ => True) (fun q part hpart _ => ⟨?_, trivial⟩) trivial).1
    rcases List.mem_append.mp hpart with hpart | hpart
    · obtain ⟨a, ha, rfl⟩ := List.mem_map.mp hpart
      exact chain_fixTypeParameter (htouch a (.inr (.inl (.inl (.inl ha)))))
    · obtain ⟨a, ha, rfl⟩ := List.mem_map.mp hpart
      exact (chain_fixParameter cx _ (htouch a (.inr (.inl (.inl (.inr ha)))))).1

theorem chain_fixValue {d : DeclarationId} (ht : c.touched d) :
    Chain cx c p (p.fixValue cx d).2 := by
  unfold fixValue
  split
  · exact .refl
  · rename_i type htype
    have hc : Chain cx c p _ := chain_ask type.mentioned
    have hb := fun k => p.blames_of_ask type.mentioned k
    have hf := ask_forest p type.mentioned
    generalize p.ask type.mentioned = answer at hc hb hf
    obtain ⟨_ | cause, p'⟩ := answer
    · exact hc
    · refine hc.tail (.amend ht fun x hx => .value fun t htx => ?_)
      rw [hf] at hx
      simp only [hx, Option.bind_some] at htype
      obtain rfl := Option.some.inj (htype.symm.trans htx)
      exact hb cause rfl

theorem chain_filterOverridden {d : DeclarationId} (ht : c.touched d) :
    Chain cx c p (p.filterOverridden d) :=
  .single (.amend ht fun _ _ => .overridden List.filter_sublist fun _ hs ho =>
    List.mem_filter.mpr ⟨hs, ho⟩)

/-! ## classes -/

/-- an edit that leaves the kinds of declarations and all classes as they are -/
theorem initializer?_update {F : Forest} {d a : DeclarationId} {g : Declaration → Declaration}
    (hc : ∀ x, (g x).class? = x.class?) (hi : ∀ x, (g x).isInitializer = x.isInitializer) :
    (F.updateDeclaration d g).initializer? a = F.initializer? a
      ∧ (F.updateDeclaration d g).class? a = F.class? a := by
  have hclass : ∀ b, (F.updateDeclaration d g).class? b = F.class? b := by
    intro b
    unfold Forest.class?
    rw [Forest.declaration?_updateDeclaration]
    split
    · cases F.declaration? b with
      | none => rfl
      | some x => exact hc x
    · rfl
  refine ⟨?_, hclass a⟩
  unfold Forest.initializer?
  rw [hclass]
  congr 1
  funext c
  congr 1
  funext m
  rw [Forest.declaration?_updateDeclaration]
  split
  · cases F.declaration? m with
    | none => rfl
    | some x => exact hi x
  · rfl

theorem fixTypeParameter_class (cx : Context) (p : Pass) (d a : DeclarationId) :
    (p.fixTypeParameter cx d).2.forest.initializer? a = p.forest.initializer? a
      ∧ (p.fixTypeParameter cx d).2.forest.class? a = p.forest.class? a := by
  unfold fixTypeParameter
  split
  · exact ⟨rfl, rfl⟩
  · rename_i x hx
    have hf := ask_forest p [x.symbol]
    generalize p.ask [x.symbol] = answer at hf
    obtain ⟨_ | cause, p'⟩ := answer
    · exact ⟨by rw [hf], by rw [hf]⟩
    · rw [← hf]
      refine initializer?_update (fun x => ?_) fun x => ?_ <;>
        (obtain ⟨_, _, _, _, _, content⟩ := x; cases content <;> rfl)

theorem chain_dropBrokenSuperTypes {d : DeclarationId} (ht : c.touched d)
    (hs : ∀ x, p.forest.declaration? d = some x → (p.memo.find? x.symbol).isSome) :
    Chain cx c p (p.dropBrokenSuperTypes d) := by
  unfold dropBrokenSuperTypes
  split
  · exact .refl
  · rename_i info hinfo
    obtain ⟨hl, hf, hc⟩ := linkedTypes_spec info.superTypes p
    refine hc.tail (.amend ht fun x hx => ?_)
    rw [hf] at hx
    obtain ⟨v, hv⟩ := Option.isSome_iff_exists.mp (hs x hx)
    have hasked : ((p.linkedTypes info.superTypes).2.memo.find? x.symbol).isSome :=
      Option.isSome_iff_exists.mpr ⟨v, keptIn_linkedTypes _ p _ _ hv⟩
    refine .superTypes (fun info' hinfo' => ?_) hasked
    obtain ⟨y, hy, hyc⟩ := Forest.class?_eq hinfo
    obtain rfl := Option.some.inj (hx.symm.trans hy)
    obtain rfl := Option.some.inj (hinfo'.symm.trans hyc)
    exact ⟨hl, fun t htm => (mem_linkedTypes_or_blames htm).imp_right fun hb => ⟨hasked, hb⟩⟩

theorem chain_initializerOf {d : DeclarationId} (ht : c.touched d) (hclass : (p.forest.class? d).isSome) :
    Chain cx c p (p.initializerOf d).2 := by
  unfold initializerOf
  split
  · exact .refl
  · exact .single (.initializer ht hclass)

/-- the problem of a class is raised in its initializer -/
theorem chain_raiseInitializer {d : DeclarationId} {problem : Problem} (ht : c.touched d)
    (hclass : (p.forest.class? d).isSome) (hi : ∀ a, p.forest.initializer? d = some a → c.touched a)
    (hnew : ∀ a, p.forest.declaration? a = none → c.touched a) :
    Chain cx c p ((p.initializerOf d).2.raiseIn cx problem (p.initializerOf d).1) := by
  have hmade : Chain cx c p (p.initializerOf d).2 := chain_initializerOf ht hclass
  unfold initializerOf at hmade ⊢
  split at hmade
  · rename_i m hm
    exact hmade.tail (.raise problem (hi m hm) (Forest.hasRoutine_of_initializer? hm))
  · exact hmade.tail (.raise problem (hnew _ p.forest.declaration?_size)
      (Forest.hasRoutine_newInitializer p.forest d .missing))

/-- what was asked about stays asked about -/
theorem Chain.asked (h : Chain cx c p q) {d : DeclarationId} (hd : (p.forest.class? d).isSome)
    (hs : ∀ x, p.forest.declaration? d = some x → (p.memo.find? x.symbol).isSome) :
    ∀ x, q.forest.declaration? d = some x → (q.memo.find? x.symbol).isSome := by
  intro y hy
  obtain ⟨info, hinfo⟩ := Option.isSome_iff_exists.mp hd
  obtain ⟨x, hx, _⟩ := Forest.class?_eq hinfo
  have hb := h.frames.becomes hx hy
  obtain ⟨v, hv⟩ := Option.isSome_iff_exists.mp (hs x hx)
  exact Option.isSome_iff_exists.mpr ⟨v, hb.symbol ▸ h.frames.memo _ _ hv⟩

/-- a declaration that was there keeps its symbol, so an answer about that one is about it -/
theorem Chain.asked_of_ask (h : Chain cx c p q) {d : DeclarationId} {x : Declaration}
    (hx : p.forest.declaration? d = some x) : ∀ y, (q.ask [x.symbol]).2.forest.declaration? d = some y →
      ((q.ask [x.symbol]).2.memo.find? y.symbol).isSome := by
  intro y hy
  have hb := h.frames.becomes hx hy
  rw [hb.symbol]
  exact Option.isSome_iff_exists.mpr ⟨_, q.find?_ask x.symbol⟩

theorem chain_breakClass {d : DeclarationId} {problem : Problem} (ht : c.touched d)
    (hclass : (p.forest.class? d).isSome) (hi : ∀ a, p.forest.initializer? d = some a → c.touched a)
    (hnew : ∀ a, p.forest.declaration? a = none → c.touched a)
    (hs : ∀ x, p.forest.declaration? d = some x → (p.memo.find? x.symbol).isSome) :
    Chain cx c p (p.breakClass cx d problem) := by
  have hraise : Chain cx c p ((p.initializerOf d).2.raiseIn cx problem (p.initializerOf d).1) :=
    chain_raiseInitializer ht hclass hi hnew
  exact hraise.trans (chain_dropBrokenSuperTypes ht (hraise.asked hclass hs))

/-- the repair of a class before it is given members -/
def mendClass (cx : Context) (p : Pass) (d : DeclarationId) (symbol : SymbolId) (info : ClassInfo) : Pass :=
  let bound := p.fixTypeParameters cx info.typeParameters
  let verdict := bound.2.ask [symbol]
  match classProblem d symbol verdict.1 bound.1 with
  | none => verdict.2
  | some problem => verdict.2.breakClass cx d problem

theorem repairClass_eq (d : DeclarationId) (symbol : SymbolId) (info : ClassInfo) :
    p.repairClass cx d symbol info = (p.mendClass cx d symbol info).implementMembers cx d := rfl

theorem chain_mendClass {d : DeclarationId} {x : Declaration} {info : ClassInfo}
    (hx : p.forest.declaration? d = some x) (hinfo : x.content = .ofClass info)
    (hedit : ∀ a, a = d ∨ a ∈ info.typeParameters → c.touched a)
    (hi : ∀ a, p.forest.initializer? d = some a → c.touched a)
    (hnew : ∀ a, p.forest.declaration? a = none → c.touched a) :
    Chain cx c p (p.mendClass cx d x.symbol info) := by
  have hclass : p.forest.class? d = some info := by
    simp [Forest.class?, hx, Declaration.class?, hinfo]
  obtain ⟨hbounds, hinit, hclass'⟩ := chain_each (f := fixTypeParameter cx) (l := info.typeParameters)
    (P := fun q => q.forest.initializer? d = p.forest.initializer? d
      ∧ q.forest.class? d = some info) (p := p) (fun q a ha hq => by
        obtain ⟨h₁, h₂⟩ := fixTypeParameter_class cx q a d
        exact ⟨chain_fixTypeParameter (hedit a (.inr ha)), h₁.trans hq.1, h₂.trans hq.2⟩)
    ⟨rfl, hclass⟩
  unfold mendClass
  generalize hq : p.fixTypeParameters cx info.typeParameters = bound
  rw [show each (fixTypeParameter cx) p info.typeParameters = bound from hq] at hbounds hinit hclass'
  have hask : Chain cx c p (bound.2.ask [x.symbol]).2 := hbounds.trans (chain_ask [x.symbol])
  dsimp only
  split
  · exact hask
  · refine hask.trans (chain_breakClass (hedit d (.inl rfl)) ?_ ?_ ?_ ?_)
    · rw [ask_forest, hclass']
      rfl
    · intro a ha
      rw [ask_forest, hinit] at ha
      exact hi a ha
    · exact fun a ha => hnew a (hask.frames.declaration?_none ha)
    · exact hbounds.asked_of_ask hx

theorem chain_repairClass {d : DeclarationId} {x : Declaration} {info : ClassInfo}
    (hx : p.forest.declaration? d = some x) (hinfo : x.content = .ofClass info) :
    Chain cx (p.scope (.declaration d)) p (p.repairClass cx d x.symbol info) := by
  have hmend : Chain cx (p.scope (.declaration d)) p (p.mendClass cx d x.symbol info) := by
    refine chain_mendClass hx hinfo (fun a ha => .inl ⟨d, x, rfl, hx, .inl ?_⟩)
      (fun a ha => .inl ⟨d, x, rfl, hx, .inr ha⟩) fun a ha => .inr ha
    rw [hinfo]
    exact List.mem_cons.mpr ha
  rw [repairClass_eq]
  exact hmend.trans ((chain_implementWithin ⟨d, rfl, .refl⟩).mono
    (fun a ha => .inr (hmend.frames.declaration?_none ha)) (fun a ha he => ha (hmend.frames.examined he))
    fun _ h => congrArg Node.declaration h)

/-! ## visits -/

theorem chain_repairFunction {d : DeclarationId} {x : Declaration} {f : FunctionInfo}
    (hx : p.forest.declaration? d = some x) (hf : x.content = .ofFunction f)
    (hedit : ∀ a ∈ x.content.edited d, c.touched a) : Chain cx c p (p.repairFunction cx d x).2 := by
  have hd : c.touched d := by
    apply hedit d
    rw [hf]
    exact List.mem_cons_self
  have hfix : Chain cx c p ((p.filterOverridden d).fixSignature cx d).2 := by
    refine .trans (chain_filterOverridden hd) (chain_fixSignature fun y hy a ha => hedit a ?_)
    replace hy : (p.forest.updateDeclaration d _).declaration? d = some y := hy
    rw [Forest.declaration?_updateDeclaration, if_pos rfl, hx] at hy
    obtain rfl := Option.some.inj hy
    rw [hf]
    simpa [Declaration.withOverridden, hf, Content.edited] using ha
  unfold repairFunction
  dsimp only
  split
  · exact hfix
  · refine hfix.tail (.raise _ hd (hfix.frames.hasRoutine (Forest.hasRoutine_of_function? ?_)))
    simp [Forest.function?, hx, Declaration.function?, hf]

/-- **A visit is a chain of steps**, which edits the declaration that it visits, its parameters and
type parameters, and what it adds. -/
theorem chain_enterDeclaration (n : Node) :
    Chain cx (p.scope n) p (enterDeclaration cx p n).1 := by
  unfold enterDeclaration
  cases n with
  | expression e => exact .refl
  | declaration d =>
    dsimp only
    split
    · exact .refl
    · rename_i x hx
      have hedit : ∀ a ∈ x.content.edited d, (p.scope (.declaration d)).touched a := fun a ha =>
        .inl ⟨d, x, rfl, hx, .inl ha⟩
      cases hc : x.content with
      | ofClass info => exact chain_repairClass hx hc
      | ofFunction f => exact chain_repairFunction hx hc hedit
      | ofProperty info =>
        exact chain_filterOverridden (hedit d (by rw [hc]; exact List.mem_cons_self))
      | ofField info => exact chain_fixValue (hedit d (by rw [hc]; exact List.mem_cons_self))
      | ofVariable info => exact chain_fixValue (hedit d (by rw [hc]; exact List.mem_cons_self))
      | ofParameter | ofTypeParameter | ofEnumEntry | ofInitializer => exact .refl

/-! ## the whole sweep -/

/-- whatever its scope, a chain may do anything -/
theorem Chain.widen (h : Chain cx c p q) : Chain cx Scope.everything p q :=
  h.mono (fun _ _ => trivial) (fun _ _ => trivial) fun _ _ => trivial

variable (cx) in
theorem chain_visit (p : Pass) (n : Node) :
    Chain cx Scope.everything p (enterDeclaration cx p n).1 := (chain_enterDeclaration n).widen

theorem chain_sweepDeclarations (cx : Context) (root : Root) (p : Pass) :
    Chain cx Scope.everything p (p.sweepDeclarations cx root) := by
  refine walkAll_invariant _ _ (walk_invariant _ (fun s n hs => ?_) _) _ _ .refl
  exact hs.trans (chain_visit cx s n)

/-- **The sweep over declarations is a chain of steps.** -/
theorem chain_repairDeclarations (cx : Context) : ∀ (roots : List Root) (p : Pass),
    Chain cx Scope.everything p (repairDeclarations cx roots p) := by
  intro roots
  induction roots with
  | nil => exact fun p => .refl
  | cons root roots ih => exact fun p => (chain_sweepDeclarations cx root p).trans (ih _)

end

end Pass

end LinkRepair
