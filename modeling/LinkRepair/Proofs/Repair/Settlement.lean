import LinkRepair.Proofs.Repair.Signatures
import LinkRepair.Proofs.Repair.Visits

/-!
# What is settled by the sweep over declarations

Each visited function, field and variable has one visit, which settles its types; before and after
it these are left alone.  So what a visit settled is settled when the sweep is over.

* `settled_function`   the signature of a visited function;
* `settled_value`      the type of a visited field or variable;
* `problemsOf_function`, `bodyOf_function`   what the account says about a function, and its body.
-/

namespace LinkRepair

namespace Forest

/-- a function with the same parts has the same types -/
theorem signatureTypes_of_edited {F G : Forest} {d : DeclarationId} {x : Declaration}
    {f : FunctionInfo} (hx : F.declaration? d = some x) (hc : x.content = .ofFunction f)
    (hfits : F.Fits x.content) (h : ∀ a ∈ x.content.edited d, ∀ z, F.declaration? a = some z →
      z.isClass = false → G.declaration? a = some z) :
    G.signatureTypes d = F.signatureTypes d := by
  rw [hc] at hfits h
  have hxf : x.function? = some f := function?_eq_some.mpr hc
  have hFd : F.function? d = some f := Option.bind_eq_some_iff.mpr ⟨x, hx, hxf⟩
  have hGx : G.declaration? d = some x := by
    apply h d List.mem_cons_self x hx
    simp [Declaration.isClass, Declaration.class?, hc]
  have hGd : G.function? d = some f := Option.bind_eq_some_iff.mpr ⟨x, hGx, hxf⟩
  have hslot : ∀ a, a ∈ (Content.ofFunction f).slots → G.declaration? a = F.declaration? a := by
    intro a ha
    obtain ⟨z, hz, hzc⟩ : ∃ z, F.declaration? a = some z ∧ z.isClass = false := by
      rcases hfits.of_mem_slots ha with ⟨z, _, hz, hzc⟩ | ⟨z, _, hz, hzc⟩ <;>
        exact ⟨z, hz, by simp [Declaration.isClass, Declaration.class?, hzc]⟩
    rw [hz]
    exact h a (Content.mem_edited.mpr ⟨rfl, .inr ha⟩) z hz hzc
  rw [signatureTypes_of_function? hFd, signatureTypes_of_function? hGd]
  apply List.flatMap_congr
  intro part hpart
  cases part with
  | parameter a =>
    have ha : a ∈ (Content.ofFunction f).slots :=
      List.mem_append_right _ (FunctionInfo.parameter_mem_signature.mp hpart)
    simp [typesOf, parameter?, hslot a ha]
  | returnType => simp [typesOf, hFd, hGd]
  | typeParameter a =>
    have ha : a ∈ (Content.ofFunction f).slots :=
      List.mem_append_left _ (FunctionInfo.typeParameter_mem_signature.mp hpart)
    simp [typesOf, bounds, hslot a ha]

end Forest

namespace Pass

/-- the problems in the account that are those of a declaration -/
def problemsOf (p : Pass) (d : DeclarationId) : List Problem :=
  (p.repairs.filter fun r => r.node = .declaration d).map Repair.problem

section
variable {cx : Context} {S : Prop} {F : Forest} {roots : List Root} {p : Pass} {d : DeclarationId}
  {x : Declaration} {f : FunctionInfo}

/-! ## one visit -/

/-- the cause that a visit finds in a signature -/
def signatureVerdict (cx : Context) (p : Pass) (d : DeclarationId) : Verdict :=
  ((p.filterOverridden d).fixSignature cx d).1

variable (cx) in
/-- the visit of a function -/
theorem enterDeclaration_function (hx : p.forest.declaration? d = some x)
    (hc : x.content = .ofFunction f) : (enterDeclaration cx p (.declaration d)).1
      = match functionProblem d x (p.signatureVerdict cx d) with
        | none => ((p.filterOverridden d).fixSignature cx d).2
        | some problem => ((p.filterOverridden d).fixSignature cx d).2.raiseIn cx problem d := by
  unfold enterDeclaration
  simp only [hx, hc, below]
  unfold repairFunction signatureVerdict
  dsimp only
  cases functionProblem d x ((p.filterOverridden d).fixSignature cx d).1 <;> rfl

variable (cx) in
/-- **The visit of a function settles its signature.** -/
theorem settled_visit_function (hp : p.Sane) (hx : p.forest.declaration? d = some x)
    (hc : x.content = .ofFunction f) (hnd : f.signature.Nodup)
    (ht : ∀ a, .typeParameter a ∈ f.signature →
      p.forest.HasTypeParameter a ∧ p.forest.symbolOwner? a = some a) :
    (enterDeclaration cx p (.declaration d)).1.Settled (p.forest.signatureTypes d)
      ((enterDeclaration cx p (.declaration d)).1.forest.signatureTypes d)
      (p.signatureVerdict cx d) := by
  have hfilter : Chain cx Scope.everything p (p.filterOverridden d) := chain_filterOverridden trivial
  have hd : p.forest.function? d = some f :=
    Option.bind_eq_some_iff.mpr ⟨x, hx, Forest.function?_eq_some.mpr hc⟩
  obtain ⟨f', hd', hsig⟩ := exists_function?_chain hd hfilter
  have hsane := (hfilter.sane hp).1
  obtain ⟨hfix, hsettled⟩ := settled_fixSignature cx hsane hd' (hsig ▸ hnd) fun a ha =>
    ⟨hfilter.frames.keeps.typeParameter a (ht a (hsig ▸ ha)).1,
      hfilter.frames.symbolOwner? (ht a (hsig ▸ ha)).2⟩
  rw [Forest.signatureTypes_filterOverridden] at hsettled
  rw [enterDeclaration_function cx hx hc]
  cases functionProblem d x (p.signatureVerdict cx d) with
  | none => exact hsettled
  | some problem =>
    have hraise : Chain cx Scope.everything ((p.filterOverridden d).fixSignature cx d).2
        (((p.filterOverridden d).fixSignature cx d).2.raiseIn cx problem d) :=
      .single (.raise problem trivial (hfix.frames.hasRoutine (hfilter.frames.hasRoutine
        (Forest.hasRoutine_of_function? (Option.isSome_iff_exists.mpr ⟨f, hd⟩)))))
    dsimp only
    rw [Forest.signatureTypes_raiseIn]
    exact hsettled.chain (hfix.sane hsane).1 hraise

/-- the visit of a field or a variable -/
theorem enterDeclaration_value (hx : p.forest.declaration? d = some x) (hv : x.valueType?.isSome)
    (hc : x.parameter? = none) :
    (enterDeclaration cx p (.declaration d)).1 = (p.fixValue cx d).2 := by
  unfold enterDeclaration
  simp only [hx]
  unfold Declaration.parameter? at hc
  unfold Declaration.valueType? at hv
  cases hcontent : x.content with
  | ofField => rfl
  | ofVariable => rfl
  | ofParameter =>
    rw [hcontent] at hc
    cases hc
  | _ =>
    rw [hcontent] at hv
    cases hv

/-- a broken value, with a marker for its cause -/
def markedValue (I : Intrinsics) (x : Declaration) (v : Verdict) : Declaration :=
  match v with
  | none => x
  | some k => x.breakValue (I.markerType k.symbol)

variable (cx) in
theorem declaration?_fixValue (hx : p.forest.declaration? d = some x) (hv : x.valueType?.isSome) :
    (p.fixValue cx d).2.forest.declaration? d
      = some (markedValue cx.intrinsics x (p.fixValue cx d).1) := by
  obtain ⟨type, htype⟩ := Option.isSome_iff_exists.mp hv
  have hf := ask_forest p type.mentioned
  unfold fixValue
  simp only [hx, Option.bind_some, htype]
  generalize p.ask type.mentioned = answer at hf
  obtain ⟨_ | k, q⟩ := answer
  · show q.forest.declaration? d = some x
    rw [show q.forest = p.forest from hf, hx]
  · show (q.forest.updateDeclaration d _).declaration? d = _
    rw [show q.forest = p.forest from hf, Forest.declaration?_updateDeclaration, if_pos rfl, hx]
    rfl

/-! ## the whole sweep -/

variable (hF : F.Planted) (hB : F.Bequests S roots) (hP : F.ParentsKnown)
  (hroots : roots.Subperm F.fileRoots) (hk : F.KindCorrect roots) {pre post : List (Pass × Node)}
  (hvs : declarationVisits cx roots (.start F) = pre ++ (p, .declaration d) :: post)

/-- the sweep goes on after a visit -/
theorem chain_after {n : Node} (hvs : declarationVisits cx roots (.start F) = pre ++ (p, n) :: post) :
    Chain cx Scope.everything (enterDeclaration cx p n).1 (repairDeclarations cx roots (.start F)) := by
  have hrun := run_sweep cx F roots
  rw [hvs] at hrun
  exact hrun.after (R := Chain cx Scope.everything) (fun _ => .refl) (fun h h' => h.trans h')
    fun v _ => chain_visit cx v.1 v.2

theorem mem_edited_function (hc : x.content = .ofFunction f) : d ∈ x.content.edited d :=
  Content.mem_edited.mpr ⟨by rw [hc]; rfl, .inl rfl⟩

theorem isClass_function (hc : x.content = .ofFunction f) : x.isClass = false := by
  simp [Declaration.isClass, Declaration.class?, hc]

include hF hB hP hroots hk hvs

section
variable (hx : F.declaration? d = some x) (hc : x.content = .ofFunction f)
include hx hc

/-- until its visit a function is as it was -/
theorem function_before : p.forest.declaration? d = some x :=
  declaration?_before hF hB hP hroots hk hx hvs (mem_edited_function hc) hx (isClass_function hc)

/-- the type parameters of a function that is visited own their symbols -/
theorem owned_typeParameter {a : DeclarationId} (ha : .typeParameter a ∈ f.signature) :
    p.forest.HasTypeParameter a ∧ p.forest.symbolOwner? a = some a := by
  obtain ⟨⟨hg, _⟩, hknown⟩ := grafted_of_visits cx hB hP hvs
  have hd : F.Reaches roots (.declaration d) := hknown (Option.isSome_iff_exists.mpr ⟨x, hx⟩)
  have hreached := Forest.reached_of_reaches hroots.subset hd
  obtain ⟨htype, howner⟩ := hF.owned_typeParameter hreached hx hc (hk.slots d x hd hx) ha
  exact ⟨hg.frames.keeps.typeParameter a htype, hg.frames.symbolOwner? howner⟩

/-- after its visit the signature of a function is left alone -/
theorem signatureTypes_after :
    (repairDeclarations cx roots (.start F)).forest.signatureTypes d
      = (enterDeclaration cx p (.declaration d)).1.forest.signatureTypes d := by
  obtain ⟨⟨hg, _⟩, hknown⟩ := grafted_of_visits cx hB hP hvs
  have hd : F.Reaches roots (.declaration d) := hknown (Option.isSome_iff_exists.mpr ⟨x, hx⟩)
  have hx' := function_before hF hB hP hroots hk hvs hx hc
  have henter := (chain_visit cx p (.declaration d)).frames
  obtain ⟨y, hy, hb, _⟩ := henter.declaration? d x hx'
  have hfits := hb.content.fits (((hk.slots d x hd hx).keeps hg.frames.keeps).keeps henter.keeps)
  have hyc := hb.content
  rw [hc] at hyc
  generalize hyc' : y.content = content at hyc
  cases hyc with
  | @ofFunction f' type overridden body =>
    apply Forest.signatureTypes_of_edited hy hyc' hfits
    intro a ha z hz hzc
    refine declaration?_after hF hB hP hroots hk hx hvs ?_ hz hzc
    rw [Content.mem_edited] at ha ⊢
    rwa [hb.content.slots, hb.content.isEdited] at ha

/-- **What the visit of a function settled is settled when the sweep is over.** -/
theorem settled_function : p.forest.declaration? d = some x
    ∧ (repairDeclarations cx roots (.start F)).Settled (F.signatureTypes d)
      ((repairDeclarations cx roots (.start F)).forest.signatureTypes d)
      (p.signatureVerdict cx d) := by
  have hstores : F.Stores (.declaration d) := Option.isSome_iff_exists.mpr ⟨x, hx⟩
  obtain ⟨⟨hg, hsane⟩, hknown⟩ := grafted_of_visits cx hB hP hvs
  have hd := hknown hstores
  have hfits := hk.slots d x hd hx
  have hreached := Forest.reached_of_reaches hroots.subset hd
  have hx' := function_before hF hB hP hroots hk hvs hx hc
  have hbefore := Forest.signatureTypes_of_edited hx hc hfits fun a ha z hz hzc =>
    declaration?_before hF hB hP hroots hk hx hvs ha hz hzc
  have hown := settled_visit_function cx hsane hx' hc (hF.signature_nodup hreached hx hc) fun a ha =>
    owned_typeParameter hF hB hP hroots hk hvs hx hc ha
  refine ⟨hx', ?_⟩
  rw [signatureTypes_after hF hB hP hroots hk hvs hx hc, ← hbefore]
  exact hown.chain ((chain_visit cx p _).sane hsane).1 (chain_after hvs)

end

/-- **What the visit of a field or variable settled is settled when the sweep is over.** -/
theorem settled_value (hx : F.declaration? d = some x) (hv : x.valueType?.isSome)
    (hc : x.parameter? = none) : p.forest.declaration? d = some x
      ∧ (repairDeclarations cx roots (.start F)).Settled (F.valueTypes d)
        ((repairDeclarations cx roots (.start F)).forest.valueTypes d) (p.fixValue cx d).1
      ∧ (repairDeclarations cx roots (.start F)).forest.declaration? d
        = some (markedValue cx.intrinsics x (p.fixValue cx d).1) := by
  have hedited : x.content.isEdited ∧ x.isClass = false := by
    unfold Declaration.parameter? at hc
    unfold Declaration.valueType? at hv
    unfold Declaration.isClass Declaration.class?
    cases hcontent : x.content with
    | ofField => exact ⟨rfl, rfl⟩
    | ofVariable => exact ⟨rfl, rfl⟩
    | ofParameter =>
      rw [hcontent] at hc
      cases hc
    | _ =>
      rw [hcontent] at hv
      cases hv
  have hmem : d ∈ x.content.edited d := Content.mem_edited.mpr ⟨hedited.1, .inl rfl⟩
  have hx' := declaration?_before hF hB hP hroots hk hx hvs hmem hx hedited.2
  obtain ⟨⟨_, hsane⟩, _⟩ := grafted_of_visits cx hB hP hvs
  have hp : p.forest.parameter? d = none := by simp [Forest.parameter?, hx', hc]
  obtain ⟨hfix, hsettled⟩ := settled_fixValue cx hsane hp
  have hchain := chain_after hvs
  have hown := declaration?_fixValue cx hx' hv
  rw [← enterDeclaration_value hx' hv hc] at hown hsettled hfix
  have hclass : (markedValue cx.intrinsics x (p.fixValue cx d).1).isClass = false := by
    unfold markedValue
    split
    · exact hedited.2
    · obtain ⟨_, _, _, _, _, content⟩ := x
      cases content <;> first | rfl | exact hedited.2
  have hafter := declaration?_after hF hB hP hroots hk hx hvs hmem hown hclass
  refine ⟨hx', ?_, hafter⟩
  have htypes : (repairDeclarations cx roots (.start F)).forest.valueTypes d
      = (enterDeclaration cx p (.declaration d)).1.forest.valueTypes d := by
    unfold Forest.valueTypes
    rw [hafter, hown]
  have hbefore : p.forest.valueTypes d = F.valueTypes d := by
    unfold Forest.valueTypes
    rw [hx', hx]
  rw [htypes, ← hbefore]
  exact hsettled.chain (hfix.sane hsane).1 hchain

/-! ## the account -/

omit hF hB hP hroots hk hvs in
theorem problemsOf_frames {I : Intrinsics} {T K : DeclarationId → Prop} {p q : Pass}
    (h : Frames I T K p q) (hd : ¬ T d) : q.problemsOf d = p.problemsOf d := by
  obtain ⟨l, e, hl⟩ := h.repairs
  have hnil : (l.filter fun r => r.node = .declaration d) = [] := by
    apply List.filter_eq_nil_iff.mpr
    intro r hr hrd
    obtain ⟨b, hb, hT⟩ := hl r hr
    obtain rfl := Node.declaration.inj (hb.symm.trans (of_decide_eq_true hrd))
    exact hd hT
  unfold problemsOf
  rw [e, List.filter_append, hnil, List.append_nil]

omit hF hB hP hroots hk hvs in
theorem problemsOf_raiseIn (p : Pass) (problem : Problem) :
    (p.raiseIn cx problem d).problemsOf d = p.problemsOf d ++ [problem] := by
  simp [problemsOf, raiseIn, complain]

/-- **What the account says about a function is what its visit found.** -/
theorem problemsOf_function (hx : F.declaration? d = some x) (hc : x.content = .ofFunction f) :
    (repairDeclarations cx roots (.start F)).problemsOf d
      = (functionProblem d x (p.signatureVerdict cx d)).toList := by
  have hmem : d ∈ x.content.edited d := mem_edited_function hc
  have hx' := function_before hF hB hP hroots hk hvs hx hc
  have hother := not_touched_of_visits hF hB hP hroots hk hx hvs hmem
  have hrun := run_sweep cx F roots
  rw [hvs] at hrun
  have hbefore : p.problemsOf d = (start F).problemsOf d :=
    (hrun.of_append_cons.1.relates (R := fun p q => q.problemsOf d = p.problemsOf d) (fun _ => rfl)
      (by intro _ _ _ h h'; exact h'.trans h) fun v hv =>
        problemsOf_frames (chain_enterDeclaration v.2).frames (hother v (List.mem_append_left _ hv))).1
  have hafter : (repairDeclarations cx roots (.start F)).problemsOf d
      = (Pass.enterDeclaration cx p (.declaration d)).1.problemsOf d :=
    hrun.after (R := fun p q => q.problemsOf d = p.problemsOf d) (fun _ => rfl)
      (by intro _ _ _ h h'; exact h'.trans h) fun v hv =>
        problemsOf_frames (chain_enterDeclaration v.2).frames (hother v (List.mem_append_right _ hv))
  have hfix : ((p.filterOverridden d).fixSignature cx d).2.problemsOf d = [] := by
    unfold problemsOf
    rw [repairs_fixSignature]
    exact hbefore
  rw [hafter, enterDeclaration_function cx hx' hc]
  cases functionProblem d x (p.signatureVerdict cx d) with
  | none => exact hfix
  | some problem =>
    dsimp only
    rw [problemsOf_raiseIn, hfix]
    rfl

/-! ## bodies -/

omit hF hB hP hroots hk hvs in
/-- the body of a function is one call that raises a linkage error -/
def Raises (I : Intrinsics) (p : Pass) (d : DeclarationId) : Prop :=
  ∃ e y, p.bodyOf d = some [.expression e] ∧ p.forest.expression? e = some y
    ∧ y.isLinkageError = true ∧ I.isLinkageErrorCall y = true

omit hF hB hP hroots hk hvs in
variable (cx) in
/-- a function that is given a new body raises the problem, by a call that was not there -/
theorem raises_raiseIn (problem : Problem) (hd : (p.forest.function? d).isSome) :
    Raises cx.intrinsics (p.raiseIn cx problem d) d
      ∧ ∃ e, (p.raiseIn cx problem d).bodyOf d = some [.expression e]
        ∧ p.forest.expression? e = none := by
  obtain ⟨span, message, e⟩ := Forest.raiseIn_forest cx p problem d
  obtain ⟨g, hg⟩ := Option.isSome_iff_exists.mp hd
  obtain ⟨x, hx, hxg⟩ := Option.bind_eq_some_iff.mp hg
  have hxc := Forest.function?_eq_some.mp hxg
  have hbody : (p.raiseIn cx problem d).bodyOf d
      = some [.expression ⟨p.forest.expressions.size + 1⟩] := by
    unfold bodyOf Forest.function?
    rw [declaration?_raiseIn, if_pos rfl, hx]
    simp [Declaration.withBody, hxc, Declaration.function?]
  refine ⟨⟨⟨p.forest.expressions.size + 1⟩, cx.intrinsics.callWith span ⟨p.forest.expressions.size⟩,
    hbody, ?_, rfl, cx.intrinsics.isLinkageErrorCall_callWith span _⟩, _, hbody, ?_⟩
  · rw [e, Forest.expression?_updateDeclaration, Forest.expression?_addExpression, if_pos]
    simp [Forest.addExpression]
  · simp [Forest.expression?]

/-- **A function has the body that it had, or it raises the problem that its visit found.** -/
theorem bodyOf_function (hx : F.declaration? d = some x) (hc : x.content = .ofFunction f) :
    match functionProblem d x (p.signatureVerdict cx d) with
    | none => (repairDeclarations cx roots (.start F)).bodyOf d = f.body
    | some _ => Raises cx.intrinsics (repairDeclarations cx roots (.start F)) d
      ∧ ∃ e, (repairDeclarations cx roots (.start F)).bodyOf d = some [.expression e]
        ∧ F.expression? e = none := by
  have hmem : d ∈ x.content.edited d := mem_edited_function hc
  have hx' := function_before hF hB hP hroots hk hvs hx hc
  have hchain := chain_after hvs
  have henter : Chain cx Scope.everything p (enterDeclaration cx p (.declaration d)).1 :=
    chain_visit cx p _
  obtain ⟨y, hy, hb, _⟩ := henter.frames.declaration? d x hx'
  have hafter := declaration?_after hF hB hP hroots hk hx hvs hmem hy (hb.isClass.trans (isClass_function hc))
  have hbody : (repairDeclarations cx roots (.start F)).bodyOf d
      = (enterDeclaration cx p (.declaration d)).1.bodyOf d := by
    unfold bodyOf Forest.function?
    rw [hafter, hy]
  have hp : p.forest.function? d = some f :=
    Option.bind_eq_some_iff.mpr ⟨x, hx', Forest.function?_eq_some.mpr hc⟩
  have hfilter : (p.filterOverridden d).bodyOf d = f.body := by
    have : (p.filterOverridden d).bodyOf d = p.bodyOf d := by
      apply bodyOf_update rfl
      intro z
      obtain ⟨_, _, _, _, _, content⟩ := z
      cases content <;> rfl
    rw [this, bodyOf, hp]
    rfl
  have hown := enterDeclaration_function cx hx' hc
  cases hproblem : functionProblem d x (p.signatureVerdict cx d) with
  | none =>
    rw [hproblem] at hown
    dsimp only at hown ⊢
    rw [hbody, hown, bodyOf_fixSignature, hfilter]
  | some problem =>
    rw [hproblem] at hown
    dsimp only at hown ⊢
    have hfix : Chain cx Scope.everything p ((p.filterOverridden d).fixSignature cx d).2 :=
      (chain_filterOverridden trivial).trans (chain_fixSignature fun _ _ _ _ => trivial)
    have hsome : (((p.filterOverridden d).fixSignature cx d).2.forest.function? d).isSome := by
      obtain ⟨g, hg, _⟩ := exists_function?_chain hp hfix
      exact Option.isSome_iff_exists.mpr ⟨g, hg⟩
    obtain ⟨⟨e, z, hez, hz, hl⟩, e', hez', hnone⟩ := raises_raiseIn cx problem hsome
    rw [← hown] at hez hz hez'
    refine ⟨⟨e, z, hbody.trans hez, hchain.frames.expression? e z hz, hl⟩, e', hbody.trans hez', ?_⟩
    obtain ⟨⟨hg, _⟩, _⟩ := grafted_of_visits cx hB hP hvs
    exact hg.frames.expression?_none (hfix.frames.expression?_none hnone)

end

end Pass

end LinkRepair
