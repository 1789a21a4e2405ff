import LinkRepair.Proofs.Repair.Dues

/-!
# What an added member is

A copy of an abstract function that is put into a class has the name of the function and as many
parameters, it overrides the function, and it is the last member of the class.  Its report does not
depend on the stage at which it is added.

* `Forest.copyMember_spec`     the new declaration, and its symbol;
* `Forest.dueText`             the wording of the report;
* `Pass.gifts`                 the outlines of the added members;
* `Plain.gifts_addMember`      one more gift, the same at every stage;
* `Plain.standsIn_addMember`   which stands in for the function;
* `memberFunctions_addMember`  and is the last function of the class.
-/

namespace LinkRepair

namespace Forest

section
variable {F : Forest} {d m a : DeclarationId} {owner source x : Declaration} {f k : FunctionInfo}

/-- a function that is given parameters is otherwise as it was, and so is all else -/
theorem declaration?_copySignature (owner : Declaration) (hx : F.declaration? a = some x)
    (hc : x.content = .ofFunction k) (hs : ∀ q ∈ f.valueParameters, (F.declaration? q).isSome) :
    ∃ g, (F.copySignature owner f a).declaration? a = some { x with content := .ofFunction g }
      ∧ (g.modality = k.modality ∧ g.overridden = k.overridden ∧ g.property = k.property
        ∧ g.valueParameters.length = f.valueParameters.length)
      ∧ (∀ b z, b ≠ a → F.declaration? b = some z → (F.copySignature owner f a).declaration? b = some z)
      ∧ ∀ s z, F.symbol? s = some z → (F.copySignature owner f a).symbol? s = some z := by
  have ha : a.index < F.declarations.size :=
    declaration?_isSome.mp (Option.isSome_iff_exists.mpr ⟨x, hx⟩)
  obtain ⟨H, g, e, hH, hg⟩ := exists_copySignature (D := fun _ => False) owner f (.refl F) ha
  obtain ⟨added, hy, _, _⟩ := hH.declaration? a x hx
  have hclass : x.isClass = false := by simp [Declaration.isClass, Declaration.class?, hc]
  rw [Declaration.enlist_of_not_isClass hclass] at hy
  obtain ⟨⟨hmodality, hoverridden, hproperty⟩, hlength, _⟩ := hg k
  refine ⟨g k, ?_, ⟨hmodality, hoverridden, hproperty, hlength hs⟩, fun b z hne hz => ?_, fun s z hz => ?_⟩
  · rw [e, declaration?_updateDeclaration, if_pos rfl, hy, Option.map_some, Declaration.mapFunction]
    simp only [hc]
  · obtain ⟨added, hz', _, hnone⟩ := hH.declaration? b z hz
    rw [e, declaration?_update_of_ne (Ne.symm hne), hz', hnone id, Declaration.enlist_nil]
  · rw [e]
    exact hH.symbol? s z hz

/-- **The copy of a member**: a function of the same name with as many parameters, which is not abstract
and overrides its source. -/
theorem copyMember_spec (hd : F.declaration? d = some owner) (hm : F.declaration? m = some source)
    (hf : source.content = .ofFunction f) (hs : ∀ q ∈ f.valueParameters, (F.declaration? q).isSome) :
    ∃ y g, (F.copyMember d m).2.declaration? (F.copyMember d m).1 = some y
      ∧ y.content = .ofFunction g
      ∧ (y.name = source.name ∧ y.origin = .unimplemented ∧ y.parent = some (.declaration d))
      ∧ (g.modality = .overridable ∧ g.overridden = [source.symbol] ∧ g.property = none
        ∧ g.valueParameters.length = f.valueParameters.length)
      ∧ (F.copyMember d m).2.symbol? y.symbol
        = some ⟨.function, F.memberSignature owner source.name, some (F.copyMember d m).1⟩
      ∧ ∀ c, F.class? d = some c → (F.copyMember d m).2.class? d
        = some { c with members := c.members ++ [(F.copyMember d m).1] } := by
  have hfun : F.function? m = some f := by simp [function?, hm, Declaration.function?, hf]
  simp only [copyMember, hd, hm, hfun]
  generalize hx : (⟨(F.addSymbol .function (F.memberSignature owner source.name)).1, source.name,
    .unimplemented, none, owner.span, .ofFunction (emptyCopy f source.symbol)⟩ : Declaration) = x
  have hsymbol : ((F.addSymbol .function (F.memberSignature owner source.name)).2.addDeclaration
      x).2.symbol? x.symbol
        = some ⟨.function, F.memberSignature owner source.name, some ⟨F.declarations.size⟩⟩ := by
    rw [symbol?_addDeclaration, if_pos rfl, symbol?_addSymbol, if_pos (by rw [← hx])]
    rfl
  have hattached := F.declaration?_attach_declare d .function
    (F.memberSignature owner source.name) (x := x) (by rw [← hx]; rfl)
  obtain ⟨g, hy, hg, hothers, hsymbols⟩ := declaration?_copySignature owner (f := f)
    (k := emptyCopy f source.symbol) hattached (by rw [← hx]) fun q hq => by
      obtain ⟨z, hz⟩ := Option.isSome_iff_exists.mp (hs q hq)
      exact isSome_declaration?_update (isSome_declaration?_update
        (Option.isSome_iff_exists.mpr ⟨z, declaration?_declare_of_some hz⟩))
  refine ⟨_, g, hy, rfl, ⟨by rw [← hx], by rw [← hx], rfl⟩, hg, hsymbols _ _ hsymbol, fun c hc => ?_⟩
  obtain ⟨z, hz, hzc⟩ := class?_eq (class?_attach_declare hc .function
    (F.memberSignature owner source.name) x)
  refine Option.bind_eq_some_iff.mpr ⟨z, hothers d z ?_ hz, hzc⟩
  rintro rfl
  rw [F.declaration?_size] at hd
  cases hd

/-! ## the report -/

/-- the name of a member of the class `d`, or else the one in its signature -/
def memberName (F : Forest) (d : DeclarationId) (name : String) : String :=
  (if name = "" then
    ((F.declaration? d).bind fun owner => F.memberSignature owner name).bind fun signature =>
      signature.guessName (if signature.isAccessor then 2 else 1)
  else some name).getD unknownName

/-- the wording of a member that is added to the class `d` for the function `m` -/
def dueText (F : Forest) (d m : DeclarationId) : String :=
  "Abstract " ++ (DeclarationNoun.function.text ++ " " ++ F.memberName d (F.nameOf m))
    ++ " is not implemented in non-abstract " ++ F.declarationText d

/-- the wording of a function that is no accessor -/
theorem declarationText_function {g : FunctionInfo} {signature : Option Signature}
    (hx : F.declaration? a = some x) (hg : x.content = .ofFunction g) (hp : g.property = none)
    (hs : F.symbol? x.symbol = some ⟨.function, signature, some a⟩) :
    F.declarationText a = DeclarationNoun.function.text ++ " "
      ++ (if x.name = "" then signature.bind fun s => s.guessName (if s.isAccessor then 2 else 1)
        else some x.name).getD unknownName := by
  have hdefinition : F.definition? x.symbol = some x := by
    simp [definition?, owner?, hs, hx]
  have hnoun : F.noun x.symbol = .function := by
    simp [noun, hs, hdefinition, declarationNoun, Declaration.function?, hg, hp]
  have hguess : F.guessedName x.symbol
      = signature.bind fun s => s.guessName (if s.isAccessor then 2 else 1) := by
    simp [guessedName, hs]
  simp [declarationText, hx, symbolText, hnoun, symbolName, hdefinition, hguess]

end

end Forest

namespace Pass

/-- the outlines of the added members -/
def gifts (p : Pass) : List (Bool × Bool × Report) :=
  (p.repairs.filter Repair.isAddedMember).map Repair.outline

/-- the outline of a member that is added to the class `d` for the function `m` -/
def gift (cx : Context) (F : Forest) (d m : DeclarationId) : Bool × Bool × Report :=
  (true, true, ⟨cx.severity, F.dueText d m, F.declarationLocation d⟩)

/-- a repair is a charge or a gift -/
theorem outlines_perm (p : Pass) : (p.repairs.map Repair.outline).Perm (p.gifts ++ p.charges) := by
  rw [gifts, charges, ← List.map_append]
  exact (List.filter_append_perm _ _).symm.map _

/-- a class gets a copied member, and no declaration that was there is edited -/
theorem frames_copyMember (cx : Context) (p : Pass) (d m : DeclarationId) :
    Frames cx.intrinsics (fun _ => False) (fun b => b = d) p
      { p with forest := (p.forest.copyMember d m).2 } :=
  frames_of_grows (D := fun b => b = d) (Forest.grows_copyMember rfl) fun _ h => .inr h

/-- what raises a problem in one declaration leaves the classes as they are -/
theorem class?_raiseIn (cx : Context) (p : Pass) (problem : Problem) (d b : DeclarationId) :
    (p.raiseIn cx problem d).forest.class? b = p.forest.class? b := by
  obtain ⟨_, _, e⟩ := Forest.raiseIn_forest cx p problem d
  rw [e]
  refine (initializer?_update (fun x => ?_) fun x => ?_).2 <;>
    (obtain ⟨_, _, _, _, _, content⟩ := x; cases content <;> rfl)

section
variable {cx : Context} {F : Forest} {p : Pass} {d m b : DeclarationId} {owner source : Declaration}
  {f : FunctionInfo} (h : p.Plain cx.intrinsics F) (hE : F.Entire)
include h hE

/-- every declaration at a stage has a symbol that is there -/
theorem Plain.knows_symbol (a : DeclarationId) (y : Declaration) (hy : p.forest.declaration? a = some y) :
    p.forest.Knows y.symbol := by
  cases hx : F.declaration? a with
  | none => exact Forest.isSome_symbol?_of_owner? (h.frames.fresh a y hx hy).owner
  | some x =>
    have hb := h.frames.becomes hx hy
    rw [hb.symbol]
    exact h.frames.isSome_symbol? (hE.symbols a x hx)

theorem Plain.memberSignature_eq (hd : F.declaration? d = some owner) {x : Declaration}
    (hx : p.forest.declaration? d = some x) (name : String) :
    p.forest.memberSignature x name = F.memberSignature owner name := by
  have hb := h.frames.becomes hd hx
  obtain ⟨z, hz⟩ := Option.isSome_iff_exists.mp (hE.symbols d owner hd)
  unfold Forest.memberSignature
  rw [hb.symbol, h.frames.symbol? _ z hz, hz]

omit hE in
theorem Plain.copyMember_new (hd : F.declaration? d = some owner) (hm : F.declaration? m = some source)
    (hf : source.content = .ofFunction f) :
    p.forest.declaration? (p.forest.copyMember d m).1 = none := by
  obtain ⟨x, hx, _⟩ := h.frames.declaration? d owner hd
  obtain ⟨z, hz, hb, _⟩ := h.frames.declaration? m source hm
  have hcontent := hb.content
  rw [hf] at hcontent
  generalize hzc : z.content = content at hcontent
  cases hcontent with
  | ofFunction =>
    rw [Forest.copyMember_fst hx hz hzc]
    exact p.forest.declaration?_size

/-- a function of `F` can be copied at every stage -/
theorem Plain.copyMember_spec (hd : F.declaration? d = some owner) (hm : F.declaration? m = some source)
    (hf : source.content = .ofFunction f) :
    ∃ y g, (p.forest.copyMember d m).2.declaration? (p.forest.copyMember d m).1 = some y
      ∧ y.content = .ofFunction g
      ∧ (y.name = source.name ∧ y.origin = .unimplemented ∧ y.parent = some (.declaration d))
      ∧ (g.modality = .overridable ∧ g.overridden = [source.symbol] ∧ g.property = none
        ∧ g.valueParameters.length = f.valueParameters.length)
      ∧ (p.forest.copyMember d m).2.symbol? y.symbol = some ⟨.function,
          F.memberSignature owner source.name, some (p.forest.copyMember d m).1⟩
      ∧ ∀ c, p.forest.class? d = some c → (p.forest.copyMember d m).2.class? d
        = some { c with members := c.members ++ [(p.forest.copyMember d m).1] } := by
  obtain ⟨x, hx, hbx, _⟩ := h.frames.declaration? d owner hd
  obtain ⟨z, hz, hbz, _⟩ := h.frames.declaration? m source hm
  have hcontent := hbz.content
  rw [hf] at hcontent
  generalize hzc : z.content = content at hcontent
  cases hcontent with
  | ofFunction =>
    have hstored : ∀ q ∈ f.valueParameters, (p.forest.declaration? q).isSome := fun q hq =>
      h.frames.isSome (d := q) (hE.children (.declaration m) (.declaration q)
        (Forest.child_of_slot hm hf (List.mem_append_right _ (List.mem_append_right _ hq))))
    obtain ⟨y, g, hy, hg, ⟨hname, hrest⟩, ⟨hmodality, hoverridden, hrest'⟩, hsymbol, hclass⟩ :=
      Forest.copyMember_spec hx hz hzc hstored
    rw [h.memberSignature_eq hE hd hx, hbz.name] at hsymbol
    exact ⟨y, g, hy, hg, ⟨hname.trans hbz.name, hrest⟩, ⟨hmodality, hbz.symbol ▸ hoverridden, hrest'⟩,
      hsymbol, hclass⟩

/-- **An added member is reported in the same way at every stage.** -/
theorem Plain.gifts_addMember (hd : F.declaration? d = some owner) (hclass : owner.isClass)
    (hm : F.declaration? m = some source) (hf : source.content = .ofFunction f) :
    (addMember cx d p m).gifts = p.gifts ++ [gift cx F d m] := by
  obtain ⟨y, g, hy, hg, ⟨hname, horigin, hparent⟩, ⟨_, _, hproperty, _⟩, hsymbol, _⟩ :=
    h.copyMember_spec hE hd hm hf
  have hwords : F.Words (p.forest.copyMember d m).2 :=
    Frames.words (h.frames.trans ((frames_copyMember cx p d m).mono (fun _ _ => trivial) fun _ _ =>
      trivial))
  have hstored : (F.declaration? d).isSome := Option.isSome_iff_exists.mpr ⟨owner, hd⟩
  have hnew := h.frames.declaration?_none (h.copyMember_new hd hm hf)
  have htext : (p.forest.copyMember d m).2.problemText (.unimplementedMember (p.forest.copyMember d m).1)
      = F.dueText d m := by
    have howner : (p.forest.copyMember d m).2.ownerText (p.forest.copyMember d m).1
        = F.declarationText d := by
      obtain ⟨z, hz, hresembles⟩ := hwords.declaration? d owner hd
      rw [Forest.ownerText, Forest.parentDeclaration?, hy, Option.bind_some,
        Declaration.parentDeclaration?, hparent]
      simp only [Option.bind_some, hz]
      rw [if_pos (hresembles.isClass.trans hclass), hresembles.symbol,
        hwords.symbolText hE.owners (hE.symbols d owner hd), Forest.declarationText, hd]
    have hname' : F.memberName d (F.nameOf m) = (if y.name = "" then
        (F.memberSignature owner source.name).bind fun s => s.guessName (if s.isAccessor then 2 else 1)
        else some y.name).getD unknownName := by
      simp only [Forest.memberName, Forest.nameOf, hm, hd, Option.bind_some, hname]
    have hfunction := Forest.declarationText_function hy hg hproperty hsymbol
    unfold Forest.problemText Forest.dueText
    dsimp only
    rw [howner, hname', hfunction]
  have hlocation : (p.forest.copyMember d m).2.declarationLocation (p.forest.copyMember d m).1
      = F.declarationLocation d :=
    hwords.addedLocation hE.parents hstored hnew hy (by rw [horigin]; rfl) hparent
  show ((p.repairs ++ [_]).filter _).map _ = _
  rw [List.filter_append, List.map_append]
  congr 1
  show [(true, true, _)] = _
  rw [gift, ← htext, ← hlocation]

/-- **An added member stands in for the function that it is a copy of.** -/
theorem Plain.standsIn_addMember (hd : F.declaration? d = some owner)
    (hm : F.declaration? m = some source) (hf : source.content = .ofFunction f) :
    (addMember cx d p m).StandsIn F (p.forest.copyMember d m).1 m := by
  obtain ⟨y, g, hy, hg, ⟨hname, horigin, _⟩, ⟨hmodality, hoverridden, _, hlength⟩, _⟩ :=
    h.copyMember_spec hE hd hm hf
  have hstands : StandsIn F { p with forest := (p.forest.copyMember d m).2 }
      (p.forest.copyMember d m).1 m := by
    refine ⟨⟨y, hy, horigin⟩, ?_, ?_, fun s hs => ⟨source, hm, ?_⟩⟩
    · show Forest.isAbstract _ _ = false
      simp [Forest.isAbstract, hy, Declaration.modality?, hg, hmodality]
    · show Forest.callKey _ _ = _
      simp [Forest.callKey, Forest.nameOf, Forest.function?, hy, hm, Declaration.function?, hg, hf, hname,
        hlength]
    · replace hs : s ∈ Forest.overriddenBy _ _ := hs
      simpa [Forest.overriddenBy, hy, Declaration.overridden, hg, hoverridden] using hs
  exact hstands.frames (frames_raiseIn (K := fun _ => True) (T := fun _ => True) _ trivial)

/-- **An added member is the last function of its class**, and the other classes keep theirs. -/
theorem Plain.memberFunctions_addMember (hC : p.forest.MembersKnown)
    (hd : F.declaration? d = some owner) (hclass : owner.isClass)
    (hm : F.declaration? m = some source) (hf : source.content = .ofFunction f)
    (hb : (F.declaration? b).isSome) : (addMember cx d p m).forest.memberFunctions b
      = p.forest.memberFunctions b ++ if b = d then [(p.forest.copyMember d m).1] else [] := by
  obtain ⟨y, g, hy, hg, _, ⟨_, _, hproperty, _⟩, hsymbol, hmembers⟩ := h.copyMember_spec hE hd hm hf
  have hcopy := frames_copyMember cx p d m
  have hraise : Frames cx.intrinsics (fun _ => True) (fun _ => True)
      { p with forest := (p.forest.copyMember d m).2 } (addMember cx d p m) :=
    frames_raiseIn (.unimplementedMember (p.forest.copyMember d m).1) trivial
  have hframes : Frames cx.intrinsics (fun _ => True) (fun _ => True) p (addMember cx d p m) :=
    (hcopy.mono (fun _ _ => trivial) fun _ _ => trivial).trans hraise
  have hclasses : ∀ b, (addMember cx d p m).forest.class? b = (p.forest.copyMember d m).2.class? b :=
    fun b => class?_raiseIn cx _ _ _ b
  have hb' := h.frames.isSome (d := b) hb
  cases hc : p.forest.class? b with
  | none =>
    have hne : b ≠ d := by
      rintro rfl
      obtain ⟨c, hc'⟩ := Option.isSome_iff_exists.mp hclass
      have := h.frames.isSome_class? (d := b) (by
        rw [show (start F).forest.class? b = some c from Option.bind_eq_some_iff.mpr ⟨owner, hd, hc'⟩]
        rfl)
      rw [hc] at this
      cases this
    unfold Forest.memberFunctions
    rw [hc, hframes.class?_none hb' hc, if_neg hne]
    rfl
  | some c =>
    by_cases e : b = d
    · obtain rfl := e
      have hplain : (addMember cx b p m).forest.isPlainFunction (p.forest.copyMember b m).1 = true := by
        rw [hraise.isPlainFunction_eq (fun x hx => ?_) (Option.isSome_iff_exists.mpr ⟨y, hy⟩)]
        · show Forest.isPlainFunction _ _ = true
          simp [Forest.isPlainFunction, hy, hsymbol, Declaration.function?, hg, hproperty]
        · obtain rfl := Option.some.inj (hy.symm.trans hx)
          exact Option.isSome_iff_exists.mpr ⟨_, hsymbol⟩
      rw [hframes.memberFunctions hC (h.knows_symbol hE) hc ((hclasses b).trans (hmembers c hc)) rfl,
        List.filter_singleton, hplain, if_pos rfl]
      rfl
    · obtain ⟨x, hx, hxc⟩ := Forest.class?_eq hc
      have hc' : (p.forest.copyMember d m).2.class? b = some c :=
        Option.bind_eq_some_iff.mpr ⟨x, hcopy.declaration?_eq hx id (.inl e), hxc⟩
      rw [if_neg e, hframes.memberFunctions hC (h.knows_symbol hE) hc ((hclasses b).trans hc')
        (List.append_nil _).symm]
      rfl

end

end Pass

end LinkRepair
