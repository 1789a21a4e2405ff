import LinkRepair.Proofs.Repair.Idle
import LinkRepair.Proofs.Repair.Overt
import LinkRepair.Proofs.Repair.WellFormed

/-!
# A repair of what a repair left

The expressions that a repair leaves have no demand that is not met.  A second repair knows nothing of
the first, but it taints nothing that was not tainted at the end of the first one.  It makes markers of
types that mention something broken, which is to blame for them already; so a demand that was met stays
met, unless what is wrong with a parameter did not show before.

* `someTainted_signatureBlamed`, `someTainted_valueBlamed`   what is to blame later was to blame before;
* `met_later`                  a demand that was met stays met while signatures are repaired;
* `Intact.chain`, `bequests_repairForest`   what a repair leaves can be repaired;
* `exists_visit_of_changed`    a parameter is edited only by a visit of what has it in a slot;
* `summary_repairForest_again` so the second repair replaces no expression.
-/

namespace LinkRepair

namespace Pass

/-! ## demands while signatures are repaired -/

section
variable {cx : Context} {c : Scope} {G : Forest} {r : Pass} {m : Memo} {d a : DeclarationId}
  {x y : Declaration} {s : SymbolId}

/-- what is tainted in a repair was so before it, whatever the memo -/
theorem tainted_before (hP : G.ParentsKnown) (hr : Chain cx c (start G) r) (m : Memo)
    (h : r.forest.Tainted r.memo s) : G.Tainted m s :=
  ((hr.sane (sane_start hP)).2 s h).keptIn (Forest.keptIn_of_empty m)

/-- a type that was replaced by a marker had something to blame -/
theorem someTainted_of_blames (types : List TypeRef) (hP : G.ParentsKnown)
    (hr : Chain cx c (start G) r) {k : Cause} (h : r.memo.Blames (types.flatMap TypeRef.mentioned) k) :
    G.SomeTainted m (types.flatMap TypeRef.blamed) := by
  obtain ⟨s, hs, hfind⟩ := h
  obtain ⟨t, ht, hs⟩ := List.mem_flatMap.mp hs
  exact ⟨s, List.mem_flatMap.mpr ⟨t, ht, t.mentioned_subset_blamed hs⟩,
    tainted_before hP hr m (Forest.tainted_of_find? hfind)⟩

variable (hP : G.ParentsKnown) (hr : Chain cx c (start G) r)
  (hov : ∀ a, r.forest.declaration? a = G.declaration? a ∨ G.Overt .empty a ∨ G.Overt m a)
include hP hr

/-- what is to blame for a parameter later was to blame for it before -/
theorem someTainted_parameter (ha : (G.declaration? a).isSome)
    (h : r.forest.SomeTainted r.memo ((r.forest.typesOf d (.parameter a)).flatMap TypeRef.blamed)) :
    G.SomeTainted m ((G.typesOf d (.parameter a)).flatMap TypeRef.blamed) := by
  obtain ⟨x, hx⟩ := Option.isSome_iff_exists.mp ha
  obtain ⟨y, hy, hb, _⟩ := hr.frames.declaration? a x hx
  obtain ⟨s, hs, ht⟩ := h
  have hcontent := hb.content
  simp only [Forest.typesOf, Forest.parameter?, hx, hy, Option.bind_some] at hs ⊢
  unfold Declaration.parameter? at hs ⊢
  generalize x.content = cx at hcontent ⊢
  generalize y.content = cy at hcontent hs
  cases hcontent with
  | ofParameter hchange =>
    rcases hchange with rfl | ⟨k, hk, rfl⟩
    · exact ⟨s, hs, tainted_before hP hr m ht⟩
    · simpa using someTainted_of_blames _ hP hr hk
  | _ => simp at hs

/-- so it is for the type that a function returns -/
theorem someTainted_returnType (hd : (G.declaration? d).isSome)
    (h : r.forest.SomeTainted r.memo ((r.forest.typesOf d .returnType).flatMap TypeRef.blamed)) :
    G.SomeTainted m ((G.typesOf d .returnType).flatMap TypeRef.blamed) := by
  obtain ⟨x, hx⟩ := Option.isSome_iff_exists.mp hd
  obtain ⟨y, hy, hb, _⟩ := hr.frames.declaration? d x hx
  obtain ⟨s, hs, ht⟩ := h
  have hcontent := hb.content
  simp only [Forest.typesOf, Forest.function?, hx, hy, Option.bind_some] at hs ⊢
  unfold Declaration.function? at hs ⊢
  generalize x.content = cx at hcontent ⊢
  generalize y.content = cy at hcontent hs
  cases hcontent with
  | @ofFunction f _ _ _ htype =>
    rcases htype with rfl | ⟨k, hk, rfl⟩
    · exact ⟨s, hs, tainted_before hP hr m ht⟩
    · have := someTainted_of_blames [f.returnType] (m := m) hP hr (by simpa using hk)
      simpa using this
  | _ => simp at hs

include hov

/-- so it is for the bounds of a type parameter, if what is wrong with it showed -/
theorem someTainted_bounds (ha : (G.declaration? a).isSome)
    (h : r.forest.SomeTainted r.memo ((r.forest.typesOf d (.typeParameter a)).flatMap TypeRef.blamed)) :
    G.SomeTainted m ((G.typesOf d (.typeParameter a)).flatMap TypeRef.blamed) := by
  obtain ⟨x, hx⟩ := Option.isSome_iff_exists.mp ha
  obtain ⟨y, hy, hb, _⟩ := hr.frames.declaration? a x hx
  obtain ⟨s, hs, ht⟩ := h
  have hcontent := hb.content
  have hbounds : ∀ info, x.content = .ofTypeParameter info → G.Tainted .empty x.symbol →
      y = x ∨ G.SomeTainted m (info.bounds.flatMap TypeRef.blamed) := by
    intro info hc htaint
    rcases hov a with hsame | hovert | hovert
    · rw [hx, hy] at hsame
      exact .inl (Option.some.inj hsame)
    · exact .inr ((hovert.bounds x info hx hc htaint).keptIn (Forest.keptIn_of_empty m))
    · exact .inr (hovert.bounds x info hx hc (htaint.keptIn (Forest.keptIn_of_empty m)))
  simp only [Forest.typesOf, Forest.bounds_eq, hx, hy, Option.bind_some] at hs ⊢
  unfold Declaration.typeParameter? at hs ⊢
  generalize hxc : x.content = content at hcontent hs ⊢
  generalize hyc : y.content = content' at hcontent hs
  cases hcontent with
  | @ofTypeParameter info _ hchange =>
    rcases hchange with rfl | ⟨k, hk, rfl⟩
    · exact ⟨s, hs, tainted_before hP hr m ht⟩
    · rcases hbounds info hxc (tainted_before hP hr .empty (Forest.tainted_of_find? hk)) with rfl | h
      · obtain rfl := Content.ofTypeParameter.inj (hxc.symm.trans hyc)
        exact ⟨s, hs, tainted_before hP hr m ht⟩
      · simpa using h
  | _ => simp at hs

/-- **What is to blame for a signature later was to blame for it before.** -/
theorem someTainted_signatureBlamed (hC : G.ChildrenKnown) (hd : (G.declaration? d).isSome)
    (h : r.forest.SomeTainted r.memo (r.forest.signatureBlamed d)) :
    G.SomeTainted m (G.signatureBlamed d) := by
  obtain ⟨x, hx⟩ := Option.isSome_iff_exists.mp hd
  obtain ⟨y, hy, hb, _⟩ := hr.frames.declaration? d x hx
  obtain ⟨s, hs, ht⟩ := h
  rw [Forest.signatureBlamed_eq] at hs ⊢
  obtain ⟨t, htypes, hs⟩ := List.mem_flatMap.mp hs
  -- the parts of the signature are what they were
  obtain ⟨g, hg, hpart⟩ := List.mem_flatMap.mp htypes
  obtain ⟨part, hpart, htype⟩ := List.mem_flatMap.mp hpart
  have hfun : ∃ f, G.function? d = some f ∧ f.signature = g.signature ∧ x.content = .ofFunction f := by
    have hcontent := hb.content
    have hgc := Forest.function?_eq_some.mp
      (show y.function? = some g by simpa [Forest.function?, hy] using hg)
    rw [hgc] at hcontent
    generalize hxc : x.content = content at hcontent
    cases hcontent with
    | @ofFunction f => exact ⟨f, by simp [Forest.function?, hx, Declaration.function?, hxc], rfl, rfl⟩
  obtain ⟨f, hf, hsignature, hxc⟩ := hfun
  rw [← hsignature] at hpart
  have hthere : ∀ a, .parameter a ∈ f.signature ∨ .typeParameter a ∈ f.signature →
      (G.declaration? a).isSome :=
    fun a ha => hC (.declaration d) (.declaration a)
      (Forest.child_of_content hx hxc (FunctionInfo.mem_children_of_mem_signature ha))
  have hlater : r.forest.SomeTainted r.memo ((r.forest.typesOf d part).flatMap TypeRef.blamed) :=
    ⟨s, List.mem_flatMap.mpr ⟨t, htype, hs⟩, ht⟩
  have hbefore : G.SomeTainted m ((G.typesOf d part).flatMap TypeRef.blamed) := by
    cases part with
    | parameter a => exact someTainted_parameter hP hr (hthere a (.inl hpart)) hlater
    | returnType => exact someTainted_returnType hP hr hd hlater
    | typeParameter a => exact someTainted_bounds hP hr hov (hthere a (.inr hpart)) hlater
  rw [Forest.signatureTypes_of_function? hf]
  refine hbefore.subset fun u hu => ?_
  obtain ⟨t, ht, hu⟩ := List.mem_flatMap.mp hu
  exact List.mem_flatMap.mpr ⟨t, List.mem_flatMap.mpr ⟨part, hpart, ht⟩, hu⟩

/-- **What is to blame for the type of a value later was to blame for it before.** -/
theorem someTainted_valueBlamed (hd : (G.declaration? d).isSome)
    (h : r.forest.SomeTainted r.memo (r.forest.valueBlamed d)) : G.SomeTainted m (G.valueBlamed d) := by
  obtain ⟨x, hx⟩ := Option.isSome_iff_exists.mp hd
  obtain ⟨y, hy, hb, _⟩ := hr.frames.declaration? d x hx
  obtain ⟨s, hs, ht⟩ := h
  have hcontent := hb.content
  have hone : ∀ {t : TypeRef} {k : Cause}, r.memo.Blames t.mentioned k → G.SomeTainted m t.blamed :=
    fun {t k} hk => by
      have := someTainted_of_blames [t] (m := m) hP hr (by simpa using hk)
      simpa using this
  have hshown : ∀ info, x.content = .ofParameter info →
      G.SomeTainted .empty (info.types.flatMap TypeRef.mentioned) →
        y = x ∨ G.SomeTainted m info.type.blamed := by
    intro info hc hsome
    have hinfo : G.parameter? d = some info := by
      simp [Forest.parameter?, hx, Declaration.parameter?, hc]
    rcases hov d with hsame | hovert | hovert
    · rw [hx, hy] at hsame
      exact .inl (Option.some.inj hsame)
    · exact .inr ((hovert.type info hinfo hsome).keptIn (Forest.keptIn_of_empty m))
    · exact .inr (hovert.type info hinfo (hsome.keptIn (Forest.keptIn_of_empty m)))
  simp only [Forest.valueBlamed, hx, hy, Option.bind_some] at hs ⊢
  unfold Declaration.valueType? at hs ⊢
  generalize hxc : x.content = content at hcontent hs ⊢
  generalize hyc : y.content = content' at hcontent hs
  cases hcontent with
  | ofField hchange =>
    rcases hchange with rfl | ⟨k, hk, rfl⟩
    · exact ⟨s, hs, tainted_before hP hr m ht⟩
    · exact hone hk
  | ofVariable hchange =>
    rcases hchange with rfl | ⟨k, hk, rfl⟩
    · exact ⟨s, hs, tainted_before hP hr m ht⟩
    · exact hone hk
  | @ofParameter info _ hchange =>
    rcases hchange with rfl | ⟨k, ⟨u, hu, hfind⟩, rfl⟩
    · exact ⟨s, hs, tainted_before hP hr m ht⟩
    · have hsome : G.SomeTainted .empty (info.types.flatMap TypeRef.mentioned) :=
        ⟨u, hu, tainted_before hP hr .empty (Forest.tainted_of_find? hfind)⟩
      rcases hshown info hxc hsome with rfl | h
      · rw [Content.ofParameter.inj (hyc.symm.trans hxc)] at hs
        exact ⟨s, hs, tainted_before hP hr m ht⟩
      · exact h
  | _ => simp at hs

/-- what is behind a symbol and tainted later was tainted before -/
theorem someTainted_suspects (hC : G.ChildrenKnown) (hx : G.declaration? d = some x)
    (hy : r.forest.declaration? d = some y)
    (h : r.forest.SomeTainted r.memo (r.forest.suspects s d y)) :
    G.SomeTainted m (G.suspects s d x) := by
  have hb := hr.frames.becomes hx hy
  have hd : (G.declaration? d).isSome := Option.isSome_iff_exists.mpr ⟨x, hx⟩
  have hsame : ∀ l, r.forest.SomeTainted r.memo l → G.SomeTainted m l := fun l ⟨u, hu, ht⟩ =>
    ⟨u, hu, tainted_before hP hr m ht⟩
  have hbelow : ∀ b, .declaration b ∈ x.content.children → (G.declaration? b).isSome := fun b hbelow =>
    hC (.declaration d) (.declaration b) (Forest.child_of_content hx rfl hbelow)
  have hentry : ∀ entry, x.content = .ofEnumEntry entry →
      r.forest.entryClassSymbol? d entry = G.entryClassSymbol? d entry := fun _ =>
    hr.frames.entryClassSymbol?_eq hP hx (hC (.declaration d))
  have hcontent := hb.content
  unfold Forest.suspects at h ⊢
  generalize x.content = content at hcontent hbelow hentry ⊢
  generalize y.content = content' at hcontent h
  cases hcontent with
  | ofClass | ofTypeParameter => exact hsame _ h
  | ofFunction => exact someTainted_signatureBlamed hP hr hov hC hd h
  | ofField | ofVariable | ofParameter => exact someTainted_valueBlamed hP hr hov hd h
  | ofInitializer => exact hsame _ h
  | @ofEnumEntry entry =>
    dsimp only at h ⊢
    rw [hentry entry rfl] at h
    exact hsame _ h
  | @ofProperty info =>
    obtain ⟨u, hu, ht⟩ := h
    simp only [List.mem_append, List.mem_flatMap, Option.mem_toList] at hu
    rcases hu with (⟨b, hbm, hu⟩ | ⟨b, hbm, hu⟩) | ⟨b, hbm, hu⟩
    · have hthere := hbelow b (by simp [Content.children, hbm])
      refine (someTainted_valueBlamed hP hr hov hthere ⟨u, hu, ht⟩).subset ?_
      simp [Option.mem_def.mp hbm]
    · have hthere := hbelow b (by simp [Content.children, hbm])
      refine (someTainted_signatureBlamed hP hr hov hC hthere ⟨u, hu, ht⟩).subset ?_
      simp [Option.mem_def.mp hbm]
    · have hthere := hbelow b (by simp [Content.children, hbm])
      refine (someTainted_signatureBlamed hP hr hov hC hthere ⟨u, hu, ht⟩).subset ?_
      simp [Option.mem_def.mp hbm]

/-- **A demand that is met stays met while signatures are repaired.** -/
theorem met_later (hC : G.ChildrenKnown) {demand : Demand} (h : ¬ G.Unmet m demand) :
    ¬ r.forest.Unmet r.memo demand := by
  cases demand with
  | type t => exact fun ⟨s, hs, ht⟩ => h ⟨s, hs, tainted_before hP hr m ht⟩
  | symbol s =>
    have hmissing : G.isMissing s = false := by
      cases hm : G.isMissing s with
      | false => rfl
      | true => exact absurd (.inl hm) h
    rintro (hm | ⟨d, y, ho, hy, hsome⟩)
    · rw [hr.frames.isMissing_eq_false hmissing] at hm
      cases hm
    · cases ho' : G.owner? s with
      | none =>
        rw [Forest.isMissing_of_owner?_none _ ho'] at hmissing
        cases hmissing
      | some d' =>
        obtain rfl := Option.some.inj (ho.symm.trans (hr.frames.owner? ho'))
        cases hx : G.declaration? d with
        | none => simp [Forest.isMissing, Forest.definition?, ho', hx] at hmissing
        | some x => exact h (.inr ⟨d, x, ho', hx, someTainted_suspects hP hr hov hC hx hy hsome⟩)

end

/-! ## what a repair leaves -/

section
variable {cx : Context} {I : Intrinsics} {F G : Forest} {roots : List Root} {p q : Pass}
  {d a : DeclarationId}

/-- the memo at the end can be relied on -/
theorem Rewrites.sound (h : Rewrites I roots p q) (hp : p.memo.Sound p.forest) :
    q.memo.Sound q.forest := by
  intro s hs ht
  rw [h.forest, Forest.tainted_expressions] at ht
  exact h.asked.sound hp s hs ht

theorem Rewrites.parentsKnown (h : Rewrites I roots p q) (hp : p.forest.ParentsKnown) :
    q.forest.ParentsKnown := by
  rw [h.forest]
  exact hp

theorem Rewrites.intact (h : Rewrites I roots p q) (hp : I.Intact p.forest) : I.Intact q.forest := by
  rw [h.forest]
  exact ⟨hp.any, hp.nothing, hp.string, hp.unit, hp.linkageError⟩

/-- a function that is inherited in a stage of the repair can be copied -/
theorem Grafted.bears_of_inherits (h : p.Grafted I True F) (hB : F.Bequests True roots)
    {b : DeclarationId} (ha : F.Known roots (.declaration a)) (hab : p.forest.Inherits a b)
    {c : ClassInfo} (hb : p.forest.class? b = some c) (hd : d ∈ c.members) {x : Declaration}
    {f : FunctionInfo} (hx : p.forest.declaration? d = some x) (hc : x.content = .ofFunction f) :
    p.forest.Bears True f := by
  cases hx₀ : F.declaration? d with
  | none =>
    have hfashioned := h.sprouts d x hx₀ hx
    unfold Forest.Fashioned at hfashioned
    rw [hc] at hfashioned
    obtain ⟨_, hfits, _⟩ := hfashioned
    exact ⟨fun t ht => (hfits.1 t ht).imp fun y hy => hy.imp fun info hinfo => ⟨hinfo.1, hinfo.2,
      fun _ => trivial⟩, hfits.2⟩
  | some x₀ =>
    obtain ⟨info, added, hinfo, _, hmembers, hadded⟩ := h.of_class? hb
    have hold : d ∈ info.members := by
      rw [hmembers] at hd
      refine (List.mem_append.mp hd).resolve_right fun hnew => ?_
      rw [hadded d hnew] at hx₀
      cases hx₀
    -- a class with something above it is a class, and so it was there
    have hthere : (F.declaration? a).isSome := by
      have hinherits := h.inherits hab
      rcases Relation.ReflTransGen.cases_head hinherits with rfl | ⟨b', hb', _⟩
      · obtain ⟨y, hy, _⟩ := Option.bind_eq_some_iff.mp hinfo
        exact Option.isSome_iff_exists.mpr ⟨y, hy⟩
      · unfold Forest.bases at hb'
        split at hb'
        · exact absurd hb' List.not_mem_nil
        · rename_i hclass
          obtain ⟨y, hy, _⟩ := Option.bind_eq_some_iff.mp hclass
          exact Option.isSome_iff_exists.mpr ⟨y, hy⟩
    have hbecomes := h.frames.becomes hx₀ hx
    have hcontent := hbecomes.content
    rw [hc] at hcontent
    generalize hc₀ : x₀.content = content at hcontent
    cases hcontent with
    | @ofFunction f₀ =>
      exact h.bears (f := f₀) (hB d x₀ f₀ ⟨a, b, info, ha hthere, h.inherits hab, hinfo, hold, hx₀, hc₀⟩)

/-- so it is when only expressions were edited since -/
theorem Rewrites.bequests (h : Rewrites I roots p q) (hp : p.Grafted I True F)
    (hB : F.Bequests True roots) (hknown : ∀ {n}, q.forest.Reaches roots n → F.Known roots n) :
    q.forest.Bequests True roots := by
  rintro m x f ⟨a, b, c, ha, hab, hb, hm, hx, hc⟩
  rw [h.forest] at hab hb hx ⊢
  exact hp.bears_of_inherits hB (hknown ha) hab hb hm hx hc

/-- **A parameter is edited only by a visit of what has it in a slot.** -/
theorem exists_visit_of_changed (hP : G.ParentsKnown) (hB : G.Bequests True roots)
    (ha : G.HasParameter a ∨ G.HasTypeParameter a)
    (hne : (repairDeclarations cx roots (.start G)).forest.declaration? a ≠ G.declaration? a) :
    ∃ d x, G.Reaches roots (.declaration d) ∧ G.declaration? d = some x ∧ a ∈ x.content.slots := by
  obtain ⟨z, hz, hclass⟩ : ∃ z, G.declaration? a = some z ∧ z.isClass = false := by
    rcases ha with ⟨z, info, hz, hc⟩ | ⟨z, info, hz, hc⟩ <;>
      exact ⟨z, hz, by simp [Declaration.isClass, Declaration.class?, hc]⟩
  obtain ⟨v, hv, htouched⟩ : ∃ v ∈ declarationVisits cx roots (.start G),
      (v.1.scope v.2).touched a := by
    by_contra hnone
    push Not at hnone
    refine hne ((((run_sweep cx G roots).relates (R := Leaves a z) (fun _ h => h)
      (fun h h' hp => h' (h hp)) fun v hv hp => ?_).1 hz).trans hz.symm)
    exact (chain_enterDeclaration v.2).frames.declaration?_eq hp (hnone v hv) (.inr hclass)
  obtain ⟨⟨hg, _⟩, hknown⟩ := (grafted_visit cx hB hP).2 v hv
  obtain ⟨w, hw, _⟩ := hg.frames.declaration? a z hz
  have hkind := ha.imp (hg.frames.keeps.parameter a) (hg.frames.keeps.typeParameter a)
  rcases htouched with ⟨d, x, hn, hx, hedited⟩ | hnone
  · rw [hn] at hknown
    have hslot : a ∈ x.content.slots := by
      rcases hedited with hedited | hinit
      · obtain ⟨hkind', rfl | hslot⟩ := Content.mem_edited.mp hedited
        · exact absurd hkind' (Forest.not_isEdited hx hkind)
        · exact hslot
      · obtain ⟨c, _, hfind⟩ := Option.bind_eq_some_iff.mp hinit
        have hinitializer := List.find?_some hfind
        rw [hw] at hinitializer
        exact absurd hinitializer (Forest.not_isInitializer hw hkind)
    cases hx₀ : G.declaration? d with
    | none =>
      have := (hg.sprouts d x hx₀ hx).slots_none a hslot
      rw [hz] at this
      cases this
    | some x₀ =>
      have hb := hg.frames.becomes hx₀ hx
      exact ⟨d, x₀, hknown (Option.isSome_iff_exists.mpr ⟨x₀, hx₀⟩), hx₀, hb.content.slots ▸ hslot⟩
  · rw [hw] at hnone
    cases hnone

/-! ## the second repair -/

/-- **A repair replaces no expression where all demands are met**, with some memo, and all that is wrong
with parameters shows. -/
theorem rewritten_repair_eq_nil {m : Memo} (hP : G.ParentsKnown) (hC : G.ChildrenKnown)
    (hI : cx.intrinsics.Intact G) (hB : G.Bequests True roots) (hm : m.Sound G)
    (hmet : ∀ e, G.Reaches roots (.expression e) → (G.expressionProblem m e).1 = none)
    (hov : ∀ d x a, G.Reaches roots (.declaration d) → G.declaration? d = some x →
      a ∈ x.content.slots → G.Overt .empty a ∨ G.Overt m a) :
    (repair cx roots G).rewritten = [] := by
  have hchain := chain_repairDeclarations cx roots (.start G)
  have hsane := (hchain.sane (sane_start hP)).1
  have hready := hI.ready hP hchain
  obtain ⟨⟨hg, _⟩, _⟩ := grafted_visit cx hB hP
  have hover : ∀ a, (repairDeclarations cx roots (.start G)).forest.declaration? a = G.declaration? a
      ∨ G.Overt .empty a ∨ G.Overt m a := by
    intro a
    by_cases hkind : G.HasParameter a ∨ G.HasTypeParameter a
    · by_cases hsame : (repairDeclarations cx roots (.start G)).forest.declaration? a = G.declaration? a
      · exact .inl hsame
      · obtain ⟨d, x, hd, hx, ha⟩ := exists_visit_of_changed hP hB hkind hsame
        exact .inr (hov d x a hd hx ha)
    · -- other declarations have nothing to show
      refine .inr (.inl ⟨fun x info hx hc _ => absurd (.inr ⟨x, info, hx, hc⟩) hkind,
        fun info hinfo _ => ?_⟩)
      obtain ⟨x, hx, hp⟩ := Option.bind_eq_some_iff.mp hinfo
      exact absurd (.inl ⟨x, info, hx, Forest.parameter?_eq_some.mp hp⟩) hkind
  apply List.eq_nil_iff_forall_not_mem.mpr
  intro e he
  obtain ⟨hfaulty, top, htop, hpath⟩ := (mem_rewritten_repair hI hP roots e).mp he
  have hknown : G.Known roots (.expression e) := by
    have htops : (repairDeclarations cx roots (.start G)).forest.tops roots = G.tops roots :=
      List.flatMap_congr fun root _ => Forest.rootDeclarations_of_files hg.frames.files root
    generalize Node.expression e = n at hpath
    induction hpath with
    | refl => exact fun _ => ⟨top, htops ▸ htop, .refl⟩
    | tail _ h ih => exact hg.known_child ih h.2
  refine hfaulty ((Forest.expressionProblem_fst_eq_none_iff hsane.sound).mpr fun x hx demand hd => ?_)
  cases hx₀ : G.expression? e with
  | some x₀ =>
    obtain rfl := Option.some.inj (hx.symm.trans (hg.frames.expression? e x₀ hx₀))
    have hnone := hmet e (hknown (Option.isSome_iff_exists.mpr ⟨x, hx₀⟩))
    exact met_later hP hchain hover hC
      ((Forest.expressionProblem_fst_eq_none_iff hm).mp hnone x hx₀ demand hd)
  | none =>
    cases hg.inserted e x hx₀ hx with
    | call span => exact hready.not_unmet_callWith span _ demand hd
    | argument span message => exact hready.not_unmet_messageArgument span message demand hd

/-- **A second repair replaces no expression.**  It starts with an empty memo in the forest that the
first one left.  The condition is about what the first sweep did not come to, functions and classes
below default values that were kept: what is wrong with their parameters shows in the types of these. -/
theorem summary_repairForest_again (hF : F.defects = []) (hC : F.ChildrenKnown) (hP : F.ParentsKnown)
    (hI : cx.intrinsics.Intact F) (hk : F.KindCorrect (F.userRoots cx.intrinsics))
    (hkept : ∀ d x a, (repairForest cx F).Kept (F.userRoots cx.intrinsics) (.declaration d) →
      (repairForest cx F).forest.declaration? d = some x → a ∈ x.content.slots →
      (repairForest cx F).forest.Overt .empty a) :
    (repairForest cx (repairForest cx F).forest).summary.expressions = 0 := by
  have hq := rewrites_repairForest hP hI
  have hchain := chain_repairDeclarations cx (F.userRoots cx.intrinsics) (.start F)
  have hsane := (hchain.sane (sane_start hP)).1
  obtain ⟨⟨hr, _⟩, _⟩ := grafted_visit cx hk.bequests hP
  have hbranches : F.Branches (repairForest cx F).forest :=
    branches_repairExpressions (F.userRoots cx.intrinsics) (branches_visit cx hk.bequests hC).1
  have hroots : (repairForest cx F).forest.userRoots cx.intrinsics = F.userRoots cx.intrinsics := by
    have hfiles : (repairForest cx F).forest.files = F.files := by
      rw [hq.forest]
      exact hr.frames.files
    simp only [Forest.userRoots, Forest.fileIds, hfiles]
  unfold repairForest at hroots ⊢
  rw [hroots, summary_expressions, List.length_eq_zero_iff]
  refine rewritten_repair_eq_nil (hq.parentsKnown hsane.parents) hbranches.childrenKnown
    (hq.intact (hI.chain hP hchain)) (hq.bequests hr hk.bequests (known_of_reaches hP hI hk))
    (hq.sound hsane.sound) (fun e => ?_) fun d x a hd hx ha => ?_
  · exact expressionProblem_repair hI hP (F.userRoots cx.intrinsics) .refl
  · rcases overt_of_reaches hF hP hI hk hd hx ha with h | h
    · exact .inr h
    · exact .inl (hkept d x a h hx ha)

end

end Pass

/-! ## a call in a default value that is kept -/

namespace Forest

/-- the function `make` has a parameter whose type is gone, so it is given a new body; the default value
of its other parameter holds the function `local`, which the first sweep does not come to.  Its types
are gone, too, so its call is replaced. -/
def keptLocal : Forest :=
  let base := (named "lib").installIntrinsics
  let unit := base.1.unitType
  let file := base.2.newFile "pkg" "a.kt" ""
  let gone := file.2.newMissingSymbol "pkg" .classLike "Gone"
  let make := gone.2.newFunction "pkg" (.file file.1) "make" unit
  let first := make.2.newValueParameter make.1 "first" (.simple gone.1)
  let second := first.2.newValueParameter make.1 "second" unit
  let inner := second.2.newFunction "pkg" (.declaration second.1) "local" unit
  let item := inner.2.newValueParameter inner.1 "item" (.simple gone.1)
  let bounded := item.2.newTypeParameter inner.1 "T" [.simple gone.1]
  let call := bounded.2.newExpression (.call ⟨⟨10⟩, [], none, none, []⟩ none) unit
  let block := call.2.newExpression (.block [.declaration inner.1, .expression call.1] none) unit
  block.2.updateDeclaration second.1 <| Declaration.mapParameter fun p =>
    { p with default := some block.1 }

/-- the context of a repair of `keptLocal` -/
def keptLocalContext : Context := ⟨(named "lib").installIntrinsics.1, .warning⟩

theorem intact_keptLocal : keptLocalContext.intrinsics.Intact keptLocal :=
  (intact_installIntrinsics _).mono ⟨_, rfl⟩ ⟨_, rfl⟩

end Forest

namespace Pass

open Forest in
/-- the second repair gives `local` a new body, and leaves the call that was put in the place of its
call -/
theorem summary_keptLocal_again :
    let roots := keptLocal.userRoots keptLocalContext.intrinsics
    let q := repairForest keptLocalContext keptLocal
    keptLocal.defects = [] ∧ keptLocal.ChildrenKnown ∧ keptLocal.ParentsKnown
      ∧ keptLocalContext.intrinsics.Intact keptLocal ∧ keptLocal.KindCorrect roots
      ∧ q.Kept roots (.declaration ⟨9⟩)
      ∧ (∀ d x a, q.Kept roots (.declaration d) → q.forest.declaration? d = some x →
        a ∈ x.content.slots → q.forest.Overt .empty a)
      ∧ q.summary = ⟨1, 1, 0⟩
      ∧ (repairForest keptLocalContext q.forest).summary.declarations = 1
      ∧ (repairForest keptLocalContext q.forest).summary.expressions = 0 := by
  intro roots q
  have hF : keptLocal.defects = [] := by decide +kernel
  have hC : keptLocal.ChildrenKnown := by decide +kernel
  have hP : keptLocal.ParentsKnown := by decide +kernel
  have hk : keptLocal.KindCorrect roots := kindCorrect_of_kindsFit (by decide +kernel)
  have hchild : ∀ a b, b ∈ q.forest.children a → q.forest.Child a b := fun _ _ h => h
  have hkept : q.Kept roots (.declaration ⟨9⟩) :=
    ⟨⟨6⟩, _, ⟨8⟩, _, ⟨1⟩, ⟨⟨6⟩, by decide +kernel, .refl⟩, rfl, by decide +kernel, by decide +kernel, rfl, rfl,
      .single (hchild _ _ (by decide +kernel))⟩
  -- no parameter takes several values, and no type parameter is a stand-in
  have hplain : ∀ x ∈ q.forest.declarations.toList, ∀ a ∈ x.content.slots,
      q.forest.symbolOwner? a = some a ∧ ∀ y ∈ (q.forest.declaration? a).toList, y.origin ≠ .missing
        ∧ ∀ info ∈ y.parameter?.toList, info.element = none := by
    decide +kernel
  have hovert : ∀ d x a, q.Kept roots (.declaration d) → q.forest.declaration? d = some x →
      a ∈ x.content.slots → q.forest.Overt .empty a := fun d x a _ hx ha => by
    obtain ⟨howner, hy⟩ := hplain x (Array.mem_toList_iff.mpr (Array.mem_of_getElem? hx)) a ha
    refine overt_of_plain howner fun y hya => ?_
    obtain ⟨horigin, helement⟩ := hy y (Option.mem_toList.mpr hya)
    exact ⟨horigin, fun info hc => helement info (by simp [Declaration.parameter?, hc])⟩
  exact ⟨hF, hC, hP, intact_keptLocal, hk, hkept, hovert, by decide +kernel, by decide +kernel,
    summary_repairForest_again hF hC hP intact_keptLocal hk hovert⟩

end Pass

end LinkRepair
