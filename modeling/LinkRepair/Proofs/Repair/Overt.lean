import LinkRepair.Proofs.Repair.Remains

/-!
# What is wrong with a parameter shows

Uses of a function are judged by the types of its signature, and uses of a parameter by its type.  But
a parameter is repaired when the type of one element is broken, and a type parameter when its own
symbol is.  What the first sweep has repaired shows in the types: they are markers then.

* `Forest.Overt`       what is wrong with a parameter or type parameter shows in its types;
* `Pass.Marked`        a parameter or type parameter that was repaired, or had no need of it;
* `marked_visit`       a visit leaves all that is in the slots of its declaration so;
* `marked_of_visits`   and so it is when the first sweep is over;
* `overt_of_reaches`   in the end it is overt, unless the slot is below a default value that was kept.
-/

namespace LinkRepair

namespace Forest

/-- what is broken about a type parameter shows in its bounds, and what is broken about a parameter in
its type -/
structure Overt (F : Forest) (m : Memo) (a : DeclarationId) : Prop where
  bounds : ∀ x info, F.declaration? a = some x → x.content = .ofTypeParameter info →
    F.Tainted m x.symbol → F.SomeTainted m (info.bounds.flatMap TypeRef.blamed)
  type : ∀ info, F.parameter? a = some info →
    F.SomeTainted m (info.types.flatMap TypeRef.mentioned) → F.SomeTainted m info.type.blamed

end Forest

namespace Forest

section
variable {F : Forest} {m m' : Memo} {l l' : List SymbolId} {a : DeclarationId}

theorem SomeTainted.subset (h : F.SomeTainted m l) (hl : l ⊆ l') : F.SomeTainted m l' :=
  h.imp fun _ hs => ⟨hl hs.1, hs.2⟩

theorem SomeTainted.keptIn (h : F.SomeTainted m l) (hk : m.KeptIn m') : F.SomeTainted m' l :=
  h.imp fun _ hs => ⟨hs.1, hs.2.keptIn hk⟩

theorem keptIn_of_empty (m : Memo) : Memo.empty.KeptIn m := by
  intro s v h
  rw [Memo.find?_empty] at h
  cases h

/-- other expressions taint nothing -/
theorem tainted_expressions (es : Array Expression) {s : SymbolId} :
    ({ F with expressions := es } : Forest).Tainted m s ↔ F.Tainted m s := by
  have heases : F.Eases { F with expressions := es } := fun _ needs _ h =>
    ⟨needs, h, List.Subset.refl _⟩
  have heases' : Eases { F with expressions := es } F := fun _ needs _ h =>
    ⟨needs, h, List.Subset.refl _⟩
  exact ⟨fun h => h.of_eases heases, fun h => h.of_eases heases'⟩

/-- a parameter that takes one value is overt, and so is a type parameter that is no stand-in -/
theorem overt_of_plain (howned : F.symbolOwner? a = some a)
    (hplain : ∀ x, F.declaration? a = some x → x.origin ≠ .missing
      ∧ ∀ info, x.content = .ofParameter info → info.element = none) : F.Overt .empty a where
  bounds := fun x info hx hc ⟨n, hn⟩ => by
    have howner : F.owner? x.symbol = some a := by
      simpa [symbolOwner?, hx] using howned
    have hdef := definition?_of_owner? howner hx
    have hst : F.standing x.symbol = .rests (info.bounds.flatMap TypeRef.mentioned) false :=
      standing_typeParameter hdef (hplain x hx).1 (by simp [Declaration.typeParameter?, hc])
    cases n with
    | zero =>
      rcases hn with hb | ⟨c, hc⟩
      · obtain ⟨c, hb⟩ := broken_iff.mp hb
        rw [hst] at hb
        cases hb
      · rw [Memo.find?_empty] at hc
        cases hc
    | succ n =>
      obtain ⟨t, ht, hn⟩ := hn
      rw [hst] at ht
      obtain ⟨u, hu, ht⟩ := List.mem_flatMap.mp ht
      exact ⟨t, List.mem_flatMap.mpr ⟨u, hu, u.mentioned_subset_blamed ht⟩, n, hn⟩
  type := fun info hinfo h => by
    obtain ⟨x, hx, hp⟩ := Option.bind_eq_some_iff.mp hinfo
    have helement := (hplain x hx).2 info (parameter?_eq_some.mp hp)
    refine h.subset ?_
    simpa [ParameterInfo.types, helement] using info.type.mentioned_subset_blamed

end

end Forest

namespace Pass

/-- a parameter whose types mention nothing broken, or a type parameter that was asked about, with a
marker for its bounds if it is broken -/
inductive Marked (I : Intrinsics) (p : Pass) (a : DeclarationId) : Prop
  | parameter {x : Declaration} {info : ParameterInfo} (hx : p.forest.declaration? a = some x)
      (hc : x.content = .ofParameter info) (h : p.Clean info.types)
  | typeParameter {x : Declaration} {info : TypeParameterInfo} {v : Verdict}
      (hx : p.forest.declaration? a = some x) (hc : x.content = .ofTypeParameter info)
      (hv : p.memo.find? x.symbol = some v)
      (h : ∀ k, v = some k → info.bounds = [I.markerType k.symbol])

section
variable {cx : Context} {I : Intrinsics} {c : Scope} {F : Forest} {roots : List Root}
  {p q : Pass} {d a : DeclarationId} {x : Declaration}

/-- **What was marked stays so.** -/
theorem Marked.chain (h : p.Marked cx.intrinsics a) (hp : p.Sane) (hc : Chain cx c p q) :
    q.Marked cx.intrinsics a := by
  cases h with
  | @parameter x info hx hxc h =>
    obtain ⟨y, hy, hb, _⟩ := hc.frames.declaration? a x hx
    have hcontent := hb.content
    rw [hxc] at hcontent
    generalize hyc : y.content = content at hcontent
    cases hcontent with
    | ofParameter hchange =>
      rcases hchange with rfl | ⟨k, _, rfl⟩
      · exact .parameter hy hyc (h.chain hp hc)
      · refine .parameter hy hyc (clean_of_flatMap fun s hs => ?_)
        rw [ParameterInfo.mentioned_broken] at hs
        exact absurd hs List.not_mem_nil
  | @typeParameter x info v hx hxc hv h =>
    obtain ⟨y, hy, hb, _⟩ := hc.frames.declaration? a x hx
    have hcontent := hb.content
    rw [hxc] at hcontent
    have hkept := hc.frames.memo _ _ hv
    rw [← hb.symbol] at hkept
    generalize hyc : y.content = content at hcontent
    cases hcontent with
    | ofTypeParameter hchange =>
      rcases hchange with rfl | ⟨k, hk, rfl⟩
      · exact .typeParameter hy hyc hkept h
      · rw [hb.symbol] at hkept
        obtain rfl := Option.some.inj (hkept.symm.trans hk)
        exact .typeParameter hy hyc (hb.symbol ▸ hk) fun k' e => by rw [Option.some.inj e]

/-- what is marked is overt -/
theorem Marked.overt (h : p.Marked I a) (hp : p.Sane) : p.forest.Overt p.memo a := by
  cases h with
  | @parameter x info hx hxc h =>
    refine ⟨fun y info' hy hyc => ?_, fun info' hinfo' ⟨s, hs, ht⟩ => ?_⟩
    · obtain rfl := Option.some.inj (hx.symm.trans hy)
      rw [hxc] at hyc
      cases hyc
    · have : info' = info := by
        simpa [Forest.parameter?, hx, Declaration.parameter?, hxc] using hinfo'.symm
      subst this
      obtain ⟨t, ht', hs⟩ := List.mem_flatMap.mp hs
      exact absurd ht (h t ht' s hs)
  | @typeParameter x info v hx hxc hv h =>
    refine ⟨fun y info' hy hyc ht => ?_, fun info' hinfo' => ?_⟩
    · obtain rfl := Option.some.inj (hx.symm.trans hy)
      obtain rfl := Content.ofTypeParameter.inj (hxc.symm.trans hyc)
      cases v with
      | none => exact absurd ht (hp.sound _ hv)
      | some k =>
        rw [h k rfl, List.flatMap_singleton, Intrinsics.markerType, TypeRef.blamed_marker]
        exact ⟨k.symbol, List.mem_singleton_self _, Forest.tainted_of_find? (hp.closed _ k hv)⟩
    · simp [Forest.parameter?, hx, Declaration.parameter?, hxc] at hinfo'

/-- the second sweep leaves overt what was so -/
theorem Rewrites.overt (h : Rewrites I roots p q) (hp : p.Sane) (ha : p.forest.Overt p.memo a) :
    q.forest.Overt q.memo a := by
  have htaint : ∀ s, q.forest.Tainted q.memo s ↔ p.forest.Tainted p.memo s := fun s => by
    rw [h.forest, Forest.tainted_expressions]
    exact h.asked.tainted_iff hp.sound
  have hsome : ∀ l, q.forest.SomeTainted q.memo l ↔ p.forest.SomeTainted p.memo l := fun l => by
    simp only [Forest.SomeTainted, htaint]
  have hd : ∀ d, q.forest.declaration? d = p.forest.declaration? d := fun d => by
    rw [h.forest]
    rfl
  constructor
  · intro x info hx hc ht
    exact (hsome _).mpr (ha.bounds x info ((hd a).symm.trans hx) hc ((htaint _).mp ht))
  · intro info hinfo hs
    refine (hsome _).mpr (ha.type info ?_ ((hsome _).mp hs))
    rw [← hinfo, Forest.parameter?, Forest.parameter?, hd]

/-! ## one visit -/

variable (cx) in
theorem marked_fixParameter (hp : p.Sane) (ha : p.forest.HasParameter a) :
    (p.fixParameter cx a).2.Marked cx.intrinsics a := by
  have hchain : Chain cx Scope.everything p (p.fixParameter cx a).2 :=
    (chain_fixParameter cx p trivial).1
  obtain ⟨y, info, hy, hc⟩ := hchain.frames.keeps.parameter a ha
  refine .parameter hy hc ?_
  have hclean : (p.fixParameter cx a).2.Clean ((p.fixParameter cx a).2.forest.typesOf a (.parameter a)) :=
    (settled_fixParameter hp a a).clean
  simpa [Forest.typesOf, Forest.parameter?, hy, Declaration.parameter?, hc] using hclean

variable (cx) in
theorem marked_fixTypeParameter (ha : p.forest.HasTypeParameter a) :
    (p.fixTypeParameter cx a).2.Marked cx.intrinsics a := by
  obtain ⟨x, info, hx, hc⟩ := ha
  have hf := ask_forest p [x.symbol]
  have hfind := find?_ask p x.symbol
  unfold fixTypeParameter
  rw [hx]
  dsimp only
  generalize p.ask [x.symbol] = answer at hf hfind
  obtain ⟨_ | k, q⟩ := answer
  · exact .typeParameter (hf ▸ hx) hc hfind fun k e => by cases e
  · generalize hy : x.mapTypeParameter (fun _ => ⟨[cx.intrinsics.markerType k.symbol]⟩) = y
    obtain ⟨hsymbol, hyc⟩ : y.symbol = x.symbol
        ∧ y.content = .ofTypeParameter ⟨[cx.intrinsics.markerType k.symbol]⟩ := by
      simp [← hy, Declaration.mapTypeParameter, hc]
    refine .typeParameter (x := y) (v := some k) ?_ hyc (hsymbol ▸ hfind) fun k' e => ?_
    · show (q.forest.updateDeclaration a _).declaration? a = _
      rw [Forest.declaration?_updateDeclaration, if_pos rfl, show q.forest = p.forest from hf, hx,
        Option.map_some, hy]
    · rw [Option.some.inj e]

variable (cx) in
/-- what is in the slots of a function is marked when its signature is repaired -/
theorem marked_fixSignature (hp : p.Sane) {f : FunctionInfo} (hd : p.forest.function? d = some f)
    (hfits : p.forest.Fits (.ofFunction f)) :
    ∀ a ∈ (Content.ofFunction f).slots, (p.fixSignature cx d).2.Marked cx.intrinsics a := by
  have hmarked : ∀ part ∈ f.signature, ∀ a, part = .parameter a ∨ part = .typeParameter a →
      (p.fixSignature cx d).2.Marked cx.intrinsics a := by
    refine fixSignature_establishes (P := fun part q => ∀ a, part = .parameter a ∨
      part = .typeParameter a → q.Marked cx.intrinsics a) hd fun q part hq hpart hf => ?_
    have hchain : Chain cx Scope.everything q (fixPart cx d f.returnType q part).2 := by
      cases part with
      | parameter a => exact (chain_fixParameter cx q trivial).1
      | returnType => exact chain_fixReturnType trivial (hf rfl)
      | typeParameter a => exact chain_fixTypeParameter trivial
    refine ⟨hchain, ?_, fun other h a ha => (h a ha).chain (hq.sane hp).1 hchain⟩
    rintro a (rfl | rfl)
    · have ha : a ∈ f.parameters := FunctionInfo.parameter_mem_signature.mp hpart
      exact marked_fixParameter cx (hq.sane hp).1 (hq.frames.keeps.parameter a (hfits.2 a ha))
    · have ha : a ∈ f.typeParameters := FunctionInfo.typeParameter_mem_signature.mp hpart
      exact marked_fixTypeParameter cx (hq.frames.keeps.typeParameter a (hfits.1 a ha))
  intro a ha
  rcases mem_signature_of_mem_slots ha with ⟨_, hpart⟩ | ⟨_, hpart⟩
  · exact hmarked _ hpart a (.inr rfl)
  · exact hmarked _ hpart a (.inl rfl)

variable (cx) in
/-- **The visit of a function leaves its parameters marked.** -/
theorem marked_visit_function (hp : p.Sane) {f : FunctionInfo}
    (hx : p.forest.declaration? d = some x) (hc : x.content = .ofFunction f)
    (hfits : p.forest.Fits x.content) :
    ∀ a ∈ x.content.slots, (enterDeclaration cx p (.declaration d)).1.Marked cx.intrinsics a := by
  rw [hc] at hfits ⊢
  have hfilter : Chain cx Scope.everything p (p.filterOverridden d) := chain_filterOverridden trivial
  have hfix : Chain cx Scope.everything (p.filterOverridden d)
      ((p.filterOverridden d).fixSignature cx d).2 := chain_fixSignature fun _ _ _ _ => trivial
  have hd : (p.filterOverridden d).forest.function? d
      = some { f with overridden := x.overridden.filter p.forest.isOverridable } := by
    rw [Forest.function?, (declaration?_filterOverridden hx).1, Option.bind_some]
    simp [Declaration.withOverridden, hc, Declaration.function?]
  intro a ha
  exact (marked_fixSignature cx (hfilter.sane hp).1 hd (hfits.keeps hfilter.frames.keeps) a ha).chain
    (Chain.sane (hfilter.trans hfix) hp).1 (chain_fixSignature_enterDeclaration cx hx hc)

variable (cx) in
/-- once the bounds of its type parameters are repaired, a class is repaired, and given members -/
theorem chain_fixTypeParameters_repairClass {info : ClassInfo}
    (hx : p.forest.declaration? d = some x) (hc : x.content = .ofClass info) :
    Chain cx Scope.everything (p.fixTypeParameters cx info.typeParameters).2
      (p.repairClass cx d x.symbol info) := by
  have hclass : p.forest.class? d = some info := by
    simp [Forest.class?, hx, Declaration.class?, hc]
  obtain ⟨hbounds, hclass'⟩ := chain_each (c := Scope.everything) (f := fixTypeParameter cx)
    (l := info.typeParameters) (P := fun q => q.forest.class? d = some info) (p := p)
    (fun q a _ hq => ⟨chain_fixTypeParameter trivial, (fixTypeParameter_class cx q a d).2.trans hq⟩) hclass
  unfold repairClass
  generalize hb : p.fixTypeParameters cx info.typeParameters = bound
  rw [show each (fixTypeParameter cx) p info.typeParameters = bound from hb] at hbounds hclass'
  have hask : Chain cx Scope.everything bound.2 (bound.2.ask [x.symbol]).2 := chain_ask [x.symbol]
  have hmembers : ∀ {q : Pass}, Chain cx Scope.everything bound.2 q →
      Chain cx Scope.everything bound.2 (q.implementMembers cx d) := fun {q} hq =>
    hq.trans (Chain.widen (c := q.fringe fun _ => True) (chain_implementWithin ⟨d, trivial, .refl⟩))
  apply hmembers
  split
  · exact hask
  · refine hask.trans (chain_breakClass trivial ?_ (fun _ _ => trivial) (fun _ _ => trivial)
      (hbounds.asked_of_ask hx))
    rw [ask_forest, hclass']
    rfl

variable (cx) in
/-- **The visit of a class leaves its type parameters marked.** -/
theorem marked_visit_class (hp : p.Sane) {info : ClassInfo}
    (hx : p.forest.declaration? d = some x) (hc : x.content = .ofClass info)
    (hfits : p.forest.Fits x.content) :
    ∀ a ∈ x.content.slots, (enterDeclaration cx p (.declaration d)).1.Marked cx.intrinsics a := by
  rw [hc] at hfits ⊢
  obtain ⟨hbounds, hmarked, _⟩ := each_establishes (f := fixTypeParameter cx)
    (l := info.typeParameters) (p := p) (P := fun a q => q.Sane ∧ q.Marked cx.intrinsics a)
    (Q := Chain cx Scope.everything p) (fun q a ha hq => by
      have hstep : Chain cx Scope.everything q (q.fixTypeParameter cx a).2 :=
        chain_fixTypeParameter trivial
      have hsane := (Chain.sane (hq.trans hstep) hp).1
      have hkind := hq.frames.keeps.typeParameter a (hfits a ha)
      exact ⟨hq.trans hstep, ⟨hsane, marked_fixTypeParameter cx hkind⟩, fun b hb =>
        ⟨hsane, hb.2.chain hb.1 hstep⟩⟩) .refl
  rw [enterDeclaration_class hx hc]
  intro a ha
  obtain ⟨hsane, hmarked⟩ := hmarked a ha
  exact hmarked.chain hsane (chain_fixTypeParameters_repairClass cx hx hc)

variable (cx) in
/-- **A visit leaves all that is in the slots of its declaration marked.** -/
theorem marked_visit (hp : p.Sane) (hx : p.forest.declaration? d = some x)
    (hfits : p.forest.Fits x.content) :
    ∀ a ∈ x.content.slots, (enterDeclaration cx p (.declaration d)).1.Marked cx.intrinsics a := by
  intro a ha
  cases hc : x.content with
  | ofClass info => exact marked_visit_class cx hp hx hc hfits a ha
  | ofFunction f => exact marked_visit_function cx hp hx hc hfits a ha
  | _ =>
    rw [hc] at ha
    exact absurd ha List.not_mem_nil

/-! ## the whole sweep -/

section
variable (hF : F.Planted) (hP : F.ParentsKnown) (hroots : roots.Subperm F.fileRoots)
  (hk : F.KindCorrect roots)
include hF hP hroots hk

/-- **What is in a slot of something visited is marked when the sweep is over.** -/
theorem marked_of_visits (hv : (p, .declaration d) ∈ declarationVisits cx roots (.start F))
    (hx : (repairDeclarations cx roots (.start F)).forest.declaration? d = some x)
    (ha : a ∈ x.content.slots) :
    (repairDeclarations cx roots (.start F)).Marked cx.intrinsics a := by
  obtain ⟨⟨hg, hsane⟩, hknown⟩ := (grafted_visit cx hk.bequests hP).2 _ hv
  obtain ⟨pre, post, hvs⟩ := List.append_of_mem hv
  obtain ⟨y, hy⟩ := Option.isSome_iff_exists.mp (isSome_of_visits hF hk.bequests hP hroots hvs)
  have henter := chain_visit cx p (.declaration d)
  have hb := (Chain.frames (henter.trans (chain_after hvs))).becomes hy hx
  rw [hb.content.slots] at ha
  exact (marked_visit cx hsane hy (hg.fits hk hknown hy) a ha).chain (henter.sane hsane).1
    (chain_after hvs)

end

/-! ## both sweeps -/

section
variable (hF : F.defects = []) (hP : F.ParentsKnown) (hI : cx.intrinsics.Intact F)
  (hk : F.KindCorrect (F.userRoots cx.intrinsics))
include hF hP hI hk

/-- **What is in a slot of something that is reached in the end is overt**, unless that is below a
default value that was kept. -/
theorem overt_of_reaches
    (hd : (repairForest cx F).forest.Reaches (F.userRoots cx.intrinsics) (.declaration d))
    (hx : (repairForest cx F).forest.declaration? d = some x) (ha : a ∈ x.content.slots) :
    (repairForest cx F).forest.Overt (repairForest cx F).memo a
      ∨ (repairForest cx F).Kept (F.userRoots cx.intrinsics) (.declaration d) := by
  have hplanted := Forest.planted_of_defects_nil hF
  have hroots := F.userRoots_subperm cx.intrinsics
  have hq := rewrites_repairForest hP hI
  have hsane := ((chain_repairDeclarations cx (F.userRoots cx.intrinsics) (.start F)).sane
    (sane_start hP)).1
  obtain ⟨⟨hr, _⟩, _⟩ := grafted_visit cx hk.bequests hP
  rw [hq.declaration?] at hx
  rcases reaches_cases hplanted hP hroots hk hq
    (fun d => problemsOf_repairExpressions cx _ d _) hd with hled | hslot | ⟨e, he, _⟩ | hkept
  · obtain ⟨p, hv⟩ := hled.visit hplanted hP hroots hk
    exact .inl (hq.overt hsane ((marked_of_visits hplanted hP hroots hk hv hx ha).overt hsane))
  · -- what is in a slot has no slots
    obtain ⟨b, f, c, hled, _, _, hf, hc, e⟩ := hslot
    obtain rfl := Node.declaration.inj e
    obtain ⟨y, hy, hyf⟩ := Option.bind_eq_some_iff.mp hf
    have hfits := hr.fits hk (hled.known hplanted hP hroots hk) hy
    rw [Forest.function?_eq_some.mp hyf] at hfits
    rcases hfits.of_mem_slots hc with ⟨z, info, hz, hzc⟩ | ⟨z, info, hz, hzc⟩ <;>
    · obtain rfl := Option.some.inj (hx.symm.trans hz)
      rw [hzc] at ha
      exact absurd ha List.not_mem_nil
  · cases he
  · exact .inr hkept

end

end

end Pass

end LinkRepair
