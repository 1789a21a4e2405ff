import LinkRepair.Proofs.Repair.Sweep
import LinkRepair.Repair.Basic

/-!
# The intrinsic declarations during a repair

A linkage error is raised by a call of an intrinsic function.  The call must not be flagged itself,
so the sweep over declarations has to leave alone what it refers to.

* `Intrinsics.Intact`     the intrinsic declarations are as they were installed;
* `Intrinsics.Ready`      nothing that a linkage error refers to is tainted;
* `Intact.chain`          they stay so through any chain of steps;
* `Intact.ready`          and they are ready after it;
* `intact_installIntrinsics`   what is installed in any forest is intact.
-/

namespace LinkRepair

/-- a class at top level that rests on nothing -/
def Forest.PlainClass (F : Forest) (file : FileId) (s : SymbolId) : Prop :=
  ∃ d x c, F.owner? s = some d ∧ F.declaration? d = some x ∧ x.origin = .defined
    ∧ x.parent = some (.file file) ∧ x.content = .ofClass c ∧ c.superTypes = []
    ∧ c.typeParameters = [] ∧ c.needsEnclosing = false

/-- the function that raises a linkage error with the message that it is given -/
def Forest.RaisesWith (F : Forest) (I : Intrinsics) : Prop :=
  ∃ d x f v y, F.owner? I.linkageError = some d ∧ F.declaration? d = some x
    ∧ x.origin = .defined ∧ x.content = .ofFunction f ∧ f.returnType = I.nothingType
    ∧ f.typeParameters = [] ∧ f.dispatchReceiver = none ∧ f.extensionReceiver = none
    ∧ f.valueParameters = [v] ∧ F.declaration? v = some y
    ∧ y.content = .ofParameter (.ofType I.stringType)

structure Intrinsics.Intact (I : Intrinsics) (F : Forest) : Prop where
  any : F.PlainClass I.file I.any
  nothing : F.PlainClass I.file I.nothing
  string : F.PlainClass I.file I.string
  unit : F.PlainClass I.file I.unit
  linkageError : F.RaisesWith I

structure Intrinsics.Ready (I : Intrinsics) (p : Pass) : Prop where
  nothing : ¬ p.forest.Tainted p.memo I.nothing
  string : ¬ p.forest.Tainted p.memo I.string
  linkageError : ∃ d x f, p.forest.owner? I.linkageError = some d
    ∧ p.forest.declaration? d = some x ∧ x.origin = .defined ∧ x.content = .ofFunction f
    ∧ ∀ s ∈ p.forest.signatureBlamed d, ¬ p.forest.Tainted p.memo s

section
variable {I : Intrinsics} {F : Forest}

theorem standing_of_plainClass {file : FileId} {s : SymbolId} (h : F.PlainClass file s) :
    F.standing s = .rests [] true := by
  obtain ⟨d, x, c, ho, hx, horigin, hparent, hc, hsuper, _, hneeds⟩ := h
  have henclosing : F.enclosingSymbol? d = none := by
    simp [Forest.enclosingSymbol?, Forest.enclosingClass, Forest.parentDeclaration?, hx,
      Declaration.parentDeclaration?, hparent]
  rw [Forest.standing_of_owner? ho hx]
  simp [Forest.standingOf, horigin, hc, hneeds, Forest.classNeeds, hsuper, henclosing]

theorem not_tainted_of_plainClass {file : FileId} {s : SymbolId} (h : F.PlainClass file s) :
    ¬ F.Tainted .empty s :=
  Forest.not_tainted_of_needs_nil (standing_of_plainClass h) fun c hc => by
    rw [Memo.find?_empty] at hc
    cases hc

theorem not_blames_of_not_tainted {m : Memo} {s : SymbolId} {c : Cause} (h : ¬ F.Tainted m s) :
    ¬ m.Blames [s] c := by
  rintro ⟨t, ht, hfind⟩
  rw [List.mem_singleton.mp ht] at hfind
  exact h (Forest.tainted_of_find? hfind)

/-- a class without super types keeps none -/
theorem Pass.Frames.plainClass {T K : DeclarationId → Prop} {p q : Pass} (h : Pass.Frames I T K p q)
    {file : FileId} {s : SymbolId} (hs : p.forest.PlainClass file s) : q.forest.PlainClass file s := by
  obtain ⟨d, x, c, ho, hx, horigin, hparent, hc, hsuper, htypes, hneeds⟩ := hs
  obtain ⟨y, hy, hb, _⟩ := h.declaration? d x hx
  have hcontent := hb.content
  rw [hc] at hcontent
  generalize hyc : y.content = content at hcontent
  cases hcontent with
  | ofClass hkept _ _ =>
    rw [hsuper, List.sublist_nil] at hkept
    exact ⟨d, y, _, h.owner? ho, hy, hb.origin.trans horigin, hb.parent.trans hparent, hyc, hkept,
      htypes, hneeds⟩

/-- the function that raises a linkage error keeps its types, if nothing is to blame for them -/
theorem Pass.Frames.raisesWith {T K : DeclarationId → Prop} {p q : Pass} (h : Pass.Frames I T K p q)
    (hnothing : ∀ c, ¬ q.memo.Blames [I.nothing] c) (hstring : ∀ c, ¬ q.memo.Blames [I.string] c)
    (hr : p.forest.RaisesWith I) : q.forest.RaisesWith I := by
  obtain ⟨d, x, f, v, y, ho, hx, horigin, hf, htype, htypes, hdispatch, hextension, hvalues, hv, hy⟩ := hr
  obtain ⟨x', hx', hbx, _⟩ := h.declaration? d x hx
  obtain ⟨y', hy', hby, _⟩ := h.declaration? v y hv
  have hcx := hbx.content
  have hcy := hby.content
  rw [hf] at hcx
  rw [hy] at hcy
  generalize hcx' : x'.content = content at hcx
  generalize hcy' : y'.content = content' at hcy
  cases hcx with
  | ofFunction ht _ _ =>
    cases hcy with
    | ofParameter hinfo =>
      refine ⟨d, x', _, v, y', h.owner? ho, hx', hbx.origin.trans horigin, hcx', ?_, htypes, hdispatch,
        hextension, hvalues, hy', ?_⟩
      · rcases ht with rfl | ⟨c, hc, _⟩
        · exact htype
        · rw [htype, Intrinsics.nothingType, TypeRef.mentioned_simple] at hc
          exact absurd hc (hnothing c)
      · rcases hinfo with rfl | ⟨c, hc, _⟩
        · exact hcy'
        · simp only [ParameterInfo.ofType, ParameterInfo.types, Intrinsics.stringType,
            Option.toList_none, List.flatMap_cons, List.flatMap_nil, List.append_nil,
            TypeRef.mentioned_simple] at hc
          exact absurd hc (hstring c)

/-- **Intact declarations stay intact.** -/
theorem Intrinsics.Intact.chain {cx : Context} {c : Scope} {p : Pass}
    (h : cx.intrinsics.Intact F) (hF : F.ParentsKnown) (hp : Pass.Chain cx c (.start F) p) :
    cx.intrinsics.Intact p.forest := by
  have htainted := (hp.sane (Pass.sane_start hF)).2
  have hblames : ∀ {s}, F.PlainClass cx.intrinsics.file s → ∀ c, ¬ p.memo.Blames [s] c := fun {s} hs _ =>
    not_blames_of_not_tainted fun ht => not_tainted_of_plainClass hs (htainted s ht)
  exact ⟨hp.frames.plainClass h.any, hp.frames.plainClass h.nothing, hp.frames.plainClass h.string,
    hp.frames.plainClass h.unit,
    hp.frames.raisesWith (hblames h.nothing) (hblames h.string) h.linkageError⟩

/-- **What a linkage error refers to stays sound.** -/
theorem Intrinsics.Intact.ready {cx : Context} {c : Scope} {p : Pass}
    (h : cx.intrinsics.Intact F) (hF : F.ParentsKnown) (hp : Pass.Chain cx c (.start F) p) :
    cx.intrinsics.Ready p := by
  have htainted := (hp.sane (Pass.sane_start hF)).2
  have hnothing := fun ht => not_tainted_of_plainClass h.nothing (htainted _ ht)
  have hstring := fun ht => not_tainted_of_plainClass h.string (htainted _ ht)
  refine ⟨hnothing, hstring, ?_⟩
  obtain ⟨d, x, f, v, y, ho, hx, horigin, hf, htype, htypes, hdispatch, hextension, hvalues, hv, hy⟩ :=
    (h.chain hF hp).linkageError
  refine ⟨d, x, f, ho, hx, horigin, hf, ?_⟩
  intro s hs
  have hparameter : p.forest.parameter? v = some (.ofType cx.intrinsics.stringType) := by
    simp [Forest.parameter?, hv, Declaration.parameter?, hy]
  have hfunction : p.forest.function? d = some f := by
    simp [Forest.function?, hx, Declaration.function?, hf]
  simp [Forest.signatureBlamed, hfunction, FunctionInfo.signature, hextension, hdispatch,
    htypes, hvalues, Forest.partTypes, hparameter, ParameterInfo.types, ParameterInfo.ofType,
    htype, Intrinsics.stringType, Intrinsics.nothingType, TypeRef.simple, TypeRef.blamed,
    TypeRef.mentioned, TypeArgument.mentioned] at hs
  rcases hs with rfl | rfl
  · exact hstring
  · exact hnothing

end

/-! ## what is installed -/

/-- what is installed in any forest is intact -/
theorem intact_installIntrinsics (F : Forest) : F.installIntrinsics.1.Intact F.installIntrinsics.2 := by
  have hclass : ∀ {I : Intrinsics} {G : Forest} {s : SymbolId} (i : Nat) (name : String)
      (modality : Modality), G.owner? s = some ⟨i⟩ →
      G.declaration? ⟨i⟩ = some ⟨s, name, .defined, some (.file I.file), .undefined,
        .ofClass { ClassInfo.blank with modality := modality }⟩ → G.PlainClass I.file s :=
    fun _ _ _ hs hx => ⟨_, _, _, hs, hx, rfl, rfl, rfl, rfl, rfl, rfl⟩
  refine ⟨hclass F.declarations.size "Any" .overridable ?_ ?_,
    hclass (F.declarations.size + 1) "Nothing" .final ?_ ?_,
    hclass (F.declarations.size + 2) "String" .final ?_ ?_,
    hclass (F.declarations.size + 3) "Unit" .final ?_ ?_,
    ⟨F.declarations.size + 4⟩, ⟨⟨F.symbols.size + 4⟩, linkageErrorName, .defined,
      some (.file ⟨F.files.size⟩), .undefined, .ofFunction _⟩,
    { FunctionInfo.returning (.simple ⟨F.symbols.size + 1⟩) with
      body := none, valueParameters := [⟨F.declarations.size + 5⟩] }, ⟨F.declarations.size + 5⟩,
    ⟨⟨F.symbols.size + 5⟩, "message", .defined, some (.declaration ⟨F.declarations.size + 4⟩),
      .undefined, .ofParameter (.ofType (.simple ⟨F.symbols.size + 2⟩))⟩,
    ?_, ?_, rfl, rfl, ?_, rfl, rfl, rfl, rfl, ?_, ?_⟩
  all_goals simp [Forest.installIntrinsics, Forest.addIntrinsicClass, Forest.addIntrinsic, Forest.newFile,
    Forest.addFile, Forest.addSymbol, Forest.addDeclaration, Forest.updateSymbol, Forest.attach,
    Forest.newValueParameter, Forest.declareLocal, Forest.updateDeclaration, Forest.updateFile,
    Forest.declaration?, Declaration.mapFunction, FunctionInfo.returning, Forest.owner?, Forest.symbol?,
    Intrinsics.nothingType, Intrinsics.stringType, Array.getElem_modify, Array.getElem_push, Nat.add_assoc]

/-- what is intact stays so in a forest that has more -/
theorem Intrinsics.Intact.mono {I : Intrinsics} {F G : Forest} (h : I.Intact F)
    (hd : F.declarations.toList <+: G.declarations.toList) (hs : F.symbols.toList <+: G.symbols.toList) :
    I.Intact G := by
  have hkept : ∀ {α : Type} {l l' : Array α} {i : Nat} {x : α}, l.toList <+: l'.toList →
      l[i]? = some x → l'[i]? = some x := by
    intro α l l' i x hl hx
    rw [← Array.getElem?_toList] at hx ⊢
    obtain ⟨hlt, rfl⟩ := List.getElem?_eq_some_iff.mp hx
    exact List.prefix_iff_getElem?.mp hl i hlt
  have howner : ∀ {s d}, F.owner? s = some d → G.owner? s = some d := fun {s d} hx => by
    obtain ⟨x, hx, hd⟩ := Option.bind_eq_some_iff.mp hx
    exact Option.bind_eq_some_iff.mpr ⟨x, hkept hs hx, hd⟩
  have hclass : ∀ {s}, F.PlainClass I.file s → G.PlainClass I.file s := by
    rintro s ⟨d, x, c, hs, hx, hrest⟩
    exact ⟨d, x, c, howner hs, hkept hd hx, hrest⟩
  obtain ⟨d, x, f, v, y, hs, hx, horigin, hf, hreturn, htype, hdispatch, hextension, hvalue, hy, hstring⟩ :=
    h.linkageError
  exact ⟨hclass h.any, hclass h.nothing, hclass h.string, hclass h.unit, d, x, f, v, y, howner hs,
    hkept hd hx, horigin, hf, hreturn, htype, hdispatch, hextension, hvalue, hkept hd hy, hstring⟩

end LinkRepair
