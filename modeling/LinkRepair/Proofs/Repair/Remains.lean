import LinkRepair.Proofs.Repair.Linked
import LinkRepair.Proofs.Repair.Rewriting

/-!
# What remains unlinked

After both sweeps the nodes below the roots mention nothing that is missing, but for what the first
sweep does not come to and the second one does not edit: declarations below a default value of a
function that was given a new body, and type parameters that were copied from stand-ins.

* `Expression.mem_demands_iff`            an expression demands what it mentions;
* `Pass.Led`                              what the first sweep is led to;
* `Pass.Slotted`                          a parameter of a function where it stops;
* `Pass.Kept`                             what is below a default value of a function with a new body;
* `reaches_cases`                         there is nothing else in the end but new calls;
* `linked_of_led`                         what the first sweep is led to is linked in the end;
* `mem_unlinkedSymbols_repair`            the symbols that remain unlinked;
* `unlinkedSymbols_repair_eq_nil`         there are none if default values hold no declarations.
-/

namespace LinkRepair

/-! ## expressions -/

def Demand.mentioned : Demand → List SymbolId
  | .type t => t.mentioned
  | .symbol s => [s]

theorem Demand.flatMap_mentioned_symbol (l : List SymbolId) :
    (l.map Demand.symbol).flatMap Demand.mentioned = l := by
  simp [List.flatMap_map, Demand.mentioned]

theorem Access.flatMap_mentioned_typeDemands (a : Access) (t : TypeRef) :
    (a.typeDemands t).flatMap Demand.mentioned
      = t.mentioned ++ a.types.flatMap TypeRef.mentioned := by
  simp [Access.typeDemands, List.flatMap_map, Demand.mentioned]

/-- **An expression demands what it mentions**, and no more. -/
theorem Expression.mem_demands_iff (x : Expression) (s : SymbolId) :
    s ∈ x.demands.flatMap Demand.mentioned ↔ s ∈ x.mentioned := by
  obtain ⟨operation, type, _, _⟩ := x
  cases operation <;>
    simp only [Expression.demands, Expression.mentioned, Operation.demands, Operation.mentioned,
      Operation.accessMentioned, List.flatMap_append, List.flatMap_cons, List.flatMap_nil,
      Demand.flatMap_mentioned_symbol, Access.flatMap_mentioned_typeDemands, Demand.mentioned,
      List.mem_append, List.mem_cons, List.not_mem_nil, or_false, false_or] <;>
    tauto

namespace Forest

section
variable {F : Forest} {m : Memo}

/-- a demand that mentions a missing symbol is not met -/
theorem unmet_of_isMissing {d : Demand} {s : SymbolId} (hs : s ∈ d.mentioned)
    (hm : F.isMissing s = true) : F.Unmet m d := by
  cases d with
  | type t => exact ⟨s, hs, tainted_of_isMissing hm⟩
  | symbol u =>
    obtain rfl := List.mem_singleton.mp hs
    exact .inl hm

/-- an expression whose demands are met mentions nothing that is missing -/
theorem noneMissing_mentioned {x : Expression} (h : ∀ d ∈ x.demands, ¬ F.Unmet m d) :
    F.NoneMissing x.mentioned := by
  intro s hs
  obtain ⟨d, hd, hsd⟩ := List.mem_flatMap.mp ((x.mem_demands_iff s).mpr hs)
  cases hm : F.isMissing s with
  | false => rfl
  | true => exact absurd (unmet_of_isMissing hsd hm) (h d hd)

theorem not_hasRoutine {a : DeclarationId} (h : F.HasParameter a ∨ F.HasTypeParameter a) :
    ¬ F.HasRoutine a := by
  rintro ⟨x, hx, hr⟩
  rcases h with ⟨y, _, hy, hyc⟩ | ⟨y, _, hy, hyc⟩ <;>
    (obtain rfl := Option.some.inj (hx.symm.trans hy)
     simp [Declaration.isRoutine, Declaration.function?, Declaration.isInitializer, hyc] at hr)

end

/-- below no default value of a parameter is a declaration -/
def PlainDefaults (F : Forest) (roots : List Root) : Prop :=
  ∀ a info e d, F.Reaches roots (.declaration a) → F.parameter? a = some info →
    info.default = some e → ¬ Relation.ReflTransGen F.Child (.expression e) (.declaration d)

end Forest

theorem Declaration.not_isInitializer_of_typeParameter {x : Declaration}
    (h : x.typeParameter?.isSome) : x.isInitializer = false := by
  unfold typeParameter? at h
  unfold isInitializer
  cases hc : x.content <;> simp_all

namespace Pass

/-! ## the account of the second sweep -/

section
variable (cx : Context) (q : Pass) (d : DeclarationId)

theorem problemsOf_enterExpression (file : Option FileId) (n : Node) :
    (enterExpression cx file q n).1.problemsOf d = q.problemsOf d := by
  unfold enterExpression
  cases n with
  | declaration => rfl
  | expression e =>
    dsimp only
    split
    · rfl
    · simp [problemsOf, replaceExpression, complain]

/-- **The second sweep finds no more problems with declarations.** -/
theorem problemsOf_repairExpressions (roots : List Root) :
    (repairExpressions cx roots q).problemsOf d = q.problemsOf d := by
  unfold repairExpressions
  induction roots generalizing q with
  | nil => rfl
  | cons root roots ih =>
    apply (ih (q.sweepExpressions cx root)).trans
    exact walkAll_invariant (P := fun p : Pass => p.problemsOf d = q.problemsOf d) _ _
      (walk_invariant _ (fun s n hs => (problemsOf_enterExpression cx s d _ n).trans hs) _) _ _ rfl

end

/-! ## what is reached in the end -/

/-- what the first sweep is led to -/
def Led (F : Forest) (r : Pass) (roots : List Root) (n : Node) : Prop :=
  ∃ d ∈ F.tops roots, Relation.ReflTransGen (Leads F r) (.declaration d) n

/-- below a default value of a function that was given a new body -/
def Kept (q : Pass) (roots : List Root) (n : Node) : Prop :=
  ∃ d f a info e, q.forest.Reaches roots (.declaration d) ∧ q.forest.function? d = some f
    ∧ q.problemsOf d ≠ [] ∧ a ∈ f.parameters ∧ q.forest.parameter? a = some info
    ∧ info.default = some e ∧ Relation.ReflTransGen q.forest.Child (.expression e) n

/-- in a slot of a function that the first sweep is led to, and stops at -/
def Slotted (F : Forest) (r q : Pass) (roots : List Root) (n : Node) : Prop :=
  ∃ d f a, Led F r roots (.declaration d) ∧ Stops F r (.declaration d)
    ∧ q.forest.Reaches roots (.declaration d) ∧ r.forest.function? d = some f
    ∧ a ∈ (Content.ofFunction f).slots ∧ n = .declaration a

section
variable {cx : Context} {F : Forest} {roots : List Root} {p q r : Pass} {d a : DeclarationId}
  {x : Declaration} {S : Prop}

theorem reaches_of_mem_parameters {G : Forest} {f : FunctionInfo}
    (hd : G.Reaches roots (.declaration d)) (hf : G.function? d = some f) (ha : a ∈ f.parameters) :
    G.Reaches roots (.declaration a) := by
  obtain ⟨top, htop, hpath⟩ := hd
  obtain ⟨x, hx, hxc⟩ := Option.bind_eq_some_iff.mp hf
  exact ⟨top, htop, hpath.tail (Forest.child_of_slot hx (Forest.function?_eq_some.mp hxc)
    (List.mem_append_right _ ha))⟩

/-- what is below a kept default value is reached -/
theorem Kept.reaches {n : Node} (h : q.Kept roots n) : q.forest.Reaches roots n := by
  obtain ⟨d, f, a, info, e, hd, hf, _, ha, hinfo, he, hpath⟩ := h
  obtain ⟨top, htop, hreach⟩ := reaches_of_mem_parameters hd hf ha
  obtain ⟨y, hy, hyc⟩ := Option.bind_eq_some_iff.mp hinfo
  have hdefault : q.forest.Child (.declaration a) (.expression e) :=
    Forest.child_of_content hy (Forest.parameter?_eq_some.mp hyc)
      (List.mem_map_of_mem (Option.mem_toList.mpr he))
  exact ⟨top, htop, (hreach.tail hdefault).trans hpath⟩

/-- the roots stand for what they stood for -/
theorem Rewrites.tops (h : Rewrites cx.intrinsics roots r q) (hr : r.Grafted cx.intrinsics S F) :
    q.forest.tops roots = F.tops roots := by
  have hfiles : q.forest.files = F.files := by
    rw [h.forest]
    exact hr.frames.files
  unfold Forest.tops
  rw [funext (Forest.rootDeclarations_of_files hfiles)]

/-- below a node is what was below it before the second sweep, or the argument of a new call -/
theorem Rewrites.child (h : Rewrites cx.intrinsics roots r q) {a n : Node}
    (hn : q.forest.Child a n) : r.forest.Child a n ∨ r.forest.AddedExpression n := by
  unfold Forest.Child at hn ⊢
  cases a with
  | declaration d => exact .inl (by rwa [h.children_declaration] at hn)
  | expression e =>
    rcases h.children_expression (e := e) with ⟨_, hch⟩ | hnew
    · exact .inl (hch ▸ hn)
    · exact .inr (hnew n hn)

theorem Frames.added {I : Intrinsics} {T K : DeclarationId → Prop} (h : Frames I T K p q) {n : Node}
    (hn : q.forest.AddedExpression n) : p.forest.AddedExpression n := by
  obtain ⟨e, rfl, he⟩ := hn
  exact ⟨e, rfl, h.expression?_none he⟩

/-- below a new call are only new calls and their arguments -/
theorem added_child (hr : r.Grafted cx.intrinsics S F) (hq : Rewrites cx.intrinsics roots r q)
    {a n : Node} (ha : F.AddedExpression a) (hn : q.forest.Child a n) : F.AddedExpression n := by
  obtain ⟨e, rfl, he⟩ := ha
  rcases hq.child hn with hn | hn
  · apply (hr.child_expression hn).resolve_left
    intro hchild
    have hstores : (F.expression? e).isSome := hchild.stores
    rw [he] at hstores
    cases hstores
  · exact hr.frames.added hn

/-- on a way down from an expression, the first declaration was below it before -/
theorem exists_declaration_below (hr : r.Grafted cx.intrinsics S F)
    (hq : Rewrites cx.intrinsics roots r q) {e : ExpressionId} {n : Node}
    (h : Relation.ReflTransGen q.forest.Child (.expression e) n) :
    F.AddedExpression n ∨ ∃ m, Relation.ReflTransGen F.Child (.expression e) m
      ∧ (m = n ∨ ∃ d, m = .declaration d) := by
  induction h with
  | refl => exact .inr ⟨_, .refl, .inl rfl⟩
  | @tail b c _ hb ih =>
    rcases ih with hadded | ⟨m, hm, rfl | hd⟩
    · exact .inl (added_child hr hq hadded hb)
    · cases m with
      | declaration d => exact .inr ⟨_, hm, .inr ⟨d, rfl⟩⟩
      | expression e' =>
        rcases hq.child hb with hchild | hadded
        · rcases hr.child_expression hchild with hchild | hadded
          · exact .inr ⟨c, hm.tail hchild, .inl rfl⟩
          · exact .inl hadded
        · exact .inl (hr.frames.added hadded)
    · exact .inr ⟨m, hm, .inr hd⟩

/-- a default value was one before -/
theorem Grafted.default_before (hr : r.Grafted cx.intrinsics S F) {info : ParameterInfo}
    {e : ExpressionId} (ha : r.forest.parameter? a = some info) (he : info.default = some e) :
    ∃ before, F.parameter? a = some before ∧ before.default = some e := by
  obtain ⟨y, hy, hyc⟩ := Option.bind_eq_some_iff.mp ha
  have hyc' := Forest.parameter?_eq_some.mp hyc
  cases hx : F.declaration? a with
  | none =>
    have hf := hr.sprouts a y hx hy
    unfold Forest.Fashioned at hf
    rw [hyc'] at hf
    rw [hf.2] at he
    cases he
  | some x =>
    have hb := hr.frames.becomes hx hy
    have hc := hb.content
    rw [hyc'] at hc
    generalize hxc : x.content = content at hc
    cases hc with
    | @ofParameter before _ hp =>
      refine ⟨before, Option.bind_eq_some_iff.mpr ⟨x, hx, Forest.parameter?_eq_some.mpr hxc⟩, ?_⟩
      rcases hp with rfl | ⟨_, _, rfl⟩
      · exact he
      · cases he

/-- a function that was given a new body has nothing below it but what is in its slots, and a call -/
theorem children_of_stops (hF : F.Planted) (hB : F.Bequests S roots) (hP : F.ParentsKnown)
    (hroots : roots.Subperm F.fileRoots) (hk : F.KindCorrect roots)
    (hv : (p, .declaration d) ∈ declarationVisits cx roots (.start F))
    (hs : Stops F (repairDeclarations cx roots (.start F)) (.declaration d)) {n : Node}
    (hn : (repairDeclarations cx roots (.start F)).forest.Child (.declaration d) n) :
    F.AddedExpression n ∨ ∃ f a, (repairDeclarations cx roots (.start F)).forest.function? d = some f
      ∧ a ∈ (Content.ofFunction f).slots ∧ n = .declaration a := by
  obtain ⟨d', x, f, hd, hx, hc, hproblems⟩ := hs
  obtain rfl := Node.declaration.inj hd
  obtain ⟨pre, post, hvs⟩ := List.append_of_mem hv
  have hbody := bodyOf_function hF hB hP hroots hk hvs hx hc
  rw [problemsOf_function hF hB hP hroots hk hvs hx hc] at hproblems
  cases hproblem : functionProblem d x (p.signatureVerdict cx d) with
  | none => exact absurd (by rw [hproblem]; rfl) hproblems
  | some problem =>
    rw [hproblem] at hbody
    obtain ⟨_, e, hbody, he⟩ := hbody
    obtain ⟨f', hf', hb⟩ := Option.bind_eq_some_iff.mp hbody
    obtain ⟨y, hy, hyc⟩ := Option.bind_eq_some_iff.mp hf'
    unfold Forest.Child at hn
    rw [Forest.children_declaration hy, Forest.function?_eq_some.mp hyc] at hn
    rcases List.mem_append.mp hn with hn | hn
    · obtain ⟨a, ha, rfl⟩ := List.mem_map.mp hn
      exact .inr ⟨f', a, hf', by simpa [Content.slots, FunctionInfo.parameters] using ha, rfl⟩
    · rw [hb] at hn
      exact .inl ⟨e, by simpa [Statement.node] using hn, he⟩

variable (hF : F.Planted) (hP : F.ParentsKnown) (hroots : roots.Subperm F.fileRoots)
  (hk : F.KindCorrect roots)
include hF hP hroots hk

theorem Led.visit {n : Node} (h : Led F (repairDeclarations cx roots (.start F)) roots n) :
    ∃ p, (p, n) ∈ declarationVisits cx roots (.start F) := by
  obtain ⟨d, hd, hreach⟩ := h
  exact mem_visits_of_leads hF hk.bequests hP hroots hk hd hreach

theorem Led.known {n : Node} (h : Led F (repairDeclarations cx roots (.start F)) roots n) :
    F.Known roots n := by
  obtain ⟨p, hv⟩ := h.visit hF hP hroots hk
  exact ((grafted_visit cx hk.bequests hP).2 _ hv).2

variable (hq : Rewrites cx.intrinsics roots (repairDeclarations cx roots (.start F)) q)
include hq

/-- below what the first sweep is led to it goes on, or it has stopped at a function -/
theorem Led.child {a b : Node} (ha : Led F (repairDeclarations cx roots (.start F)) roots a)
    (hreach : q.forest.Reaches roots a) (hb : q.forest.Child a b) :
    Led F (repairDeclarations cx roots (.start F)) roots b
      ∨ Slotted F (repairDeclarations cx roots (.start F)) q roots b ∨ F.AddedExpression b := by
  obtain ⟨⟨hr, _⟩, _⟩ := grafted_visit cx hk.bequests hP
  rcases hq.child hb with hchild | hadded
  · by_cases hs : Stops F (repairDeclarations cx roots (.start F)) a
    · obtain ⟨d, _, _, rfl, _⟩ := id hs
      obtain ⟨p, hv⟩ := ha.visit hF hP hroots hk
      rcases children_of_stops hF hk.bequests hP hroots hk hv hs hchild with
        hadded | ⟨f, c, hf, hc, rfl⟩
      · exact .inr (.inr hadded)
      · exact .inr (.inl ⟨d, f, c, ha, hs, hreach, hf, hc, rfl⟩)
    · by_cases hadded : F.AddedExpression b
      · exact .inr (.inr hadded)
      · obtain ⟨d, hd, hpath⟩ := ha
        exact .inl ⟨d, hd, hpath.tail ⟨hs, hchild, hadded⟩⟩
  · exact .inr (.inr (hr.frames.added hadded))

/-- below a parameter is its default value -/
theorem Slotted.child (hp : ∀ d, q.problemsOf d = (repairDeclarations cx roots (.start F)).problemsOf d)
    {a b : Node} (ha : Slotted F (repairDeclarations cx roots (.start F)) q roots a)
    (hb : q.forest.Child a b) : q.Kept roots b := by
  obtain ⟨d, f, c, hled, ⟨_, _, _, e, _, _, hproblems⟩, hreach, hf, hc, rfl⟩ := ha
  obtain rfl := Node.declaration.inj e
  obtain ⟨⟨hr, _⟩, _⟩ := grafted_visit cx hk.bequests hP
  obtain ⟨x, hx, hxc⟩ := Option.bind_eq_some_iff.mp hf
  have hfits := hr.fits hk (hled.known hF hP hroots hk) hx
  rw [Forest.function?_eq_some.mp hxc] at hfits
  unfold Forest.Child at hb
  rw [hq.children_declaration] at hb
  rcases List.mem_append.mp hc with hc | hc
  · obtain ⟨y, info, hy, hyc⟩ := hfits.1 c hc
    rw [Forest.children_declaration hy, hyc] at hb
    exact absurd hb List.not_mem_nil
  · obtain ⟨y, info, hy, hyc⟩ := hfits.2 c hc
    rw [Forest.children_declaration hy, hyc] at hb
    obtain ⟨e, he, rfl⟩ := List.mem_map.mp hb
    refine ⟨d, f, c, info, e, hreach, ?_, (hp d).trans_ne hproblems, hc, ?_, Option.mem_toList.mp he,
      .refl⟩
    · rw [Forest.function?, hq.declaration?]
      exact hf
    · rw [Forest.parameter?, hq.declaration?, hy, Option.bind_some, Declaration.parameter?, hyc]

/-- **What is reached in the end** is what the first sweep was led to, what is in a slot of a function
where it stopped, a new call or its argument, or what is below a default value that was kept. -/
theorem reaches_cases
    (hp : ∀ d, q.problemsOf d = (repairDeclarations cx roots (.start F)).problemsOf d) {n : Node}
    (hn : q.forest.Reaches roots n) :
    Led F (repairDeclarations cx roots (.start F)) roots n
      ∨ Slotted F (repairDeclarations cx roots (.start F)) q roots n
      ∨ F.AddedExpression n ∨ q.Kept roots n := by
  obtain ⟨⟨hr, _⟩, _⟩ := grafted_visit cx hk.bequests hP
  obtain ⟨top, htop, hreach⟩ := hn
  induction hreach with
  | refl =>
    exact .inl ⟨top, hq.tops hr ▸ htop, .refl⟩
  | @tail a b hab hb ih =>
    rcases ih with hled | hslot | hadded | hkept
    · rcases hled.child hF hP hroots hk hq ⟨top, htop, hab⟩ hb with h | h | h
      · exact .inl h
      · exact .inr (.inl h)
      · exact .inr (.inr (.inl h))
    · exact .inr (.inr (.inr (hslot.child hF hP hroots hk hq hp hb)))
    · exact .inr (.inr (.inl (added_child hr hq hadded hb)))
    · obtain ⟨d, f, c, info, e, hd, hf, hproblems, hc, hinfo, he, hpath⟩ := hkept
      exact .inr (.inr (.inr ⟨d, f, c, info, e, hd, hf, hproblems, hc, hinfo, he, hpath.tail hb⟩))

/-! ## what the first sweep is led to -/

omit hF hP hroots hk hq in
/-- what is a parameter at a later stage was one before -/
theorem Frames.hasParameter_or {I : Intrinsics} {T K : DeclarationId → Prop} (h : Frames I T K p q)
    (hx : p.forest.declaration? d = some x)
    (hd : q.forest.HasParameter d ∨ q.forest.HasTypeParameter d) :
    p.forest.HasParameter d ∨ p.forest.HasTypeParameter d := by
  obtain ⟨y, hy, hb, _⟩ := h.declaration? d x hx
  have hc := hb.content
  rcases hd with ⟨z, info, hz, hzc⟩ | ⟨z, info, hz, hzc⟩
  · obtain rfl := Option.some.inj (hy.symm.trans hz)
    rw [hzc] at hc
    generalize hxc : x.content = content at hc
    cases hc
    exact .inl ⟨x, _, hx, hxc⟩
  · obtain rfl := Option.some.inj (hy.symm.trans hz)
    rw [hzc] at hc
    generalize hxc : x.content = content at hc
    cases hc
    exact .inr ⟨x, _, hx, hxc⟩

omit hq in
/-- what is in a slot of something visited is linked -/
theorem linked_of_mem_slots (hv : (p, .declaration d) ∈ declarationVisits cx roots (.start F))
    (hx : (repairDeclarations cx roots (.start F)).forest.declaration? d = some x)
    (ha : a ∈ x.content.slots) : (repairDeclarations cx roots (.start F)).forest.Linked a := by
  obtain ⟨y, hy, _, hslots⟩ := linked_of_visits hF hP hroots hk hv
  obtain ⟨pre, post, hvs⟩ := List.append_of_mem hv
  have henter := (chain_visit cx p (.declaration d)).frames
  obtain ⟨z, hz, hb, _⟩ := henter.declaration? d y hy
  have hb' := (chain_after hvs).frames.becomes hz hx
  rw [hb'.content.slots, hb.content.slots] at ha
  exact hslots a ha

omit hq in
/-- a parameter that the first sweep is led to is in a slot of something visited -/
theorem Led.exists_slot (hb : Led F (repairDeclarations cx roots (.start F)) roots (.declaration a))
    (hkind : (repairDeclarations cx roots (.start F)).forest.HasParameter a
      ∨ (repairDeclarations cx roots (.start F)).forest.HasTypeParameter a) :
    ∃ d x, Led F (repairDeclarations cx roots (.start F)) roots (.declaration d)
      ∧ (repairDeclarations cx roots (.start F)).forest.declaration? d = some x
      ∧ a ∈ x.content.slots := by
  obtain ⟨⟨hr, _⟩, _⟩ := grafted_visit cx hk.bequests hP
  have hknown := hb.known hF hP hroots hk
  obtain ⟨top, htop, hpath⟩ := hb
  have hreached : ∀ {n}, F.Reaches roots n → F.Reached n :=
    Forest.reached_of_reaches hroots.subset
  cases hx : F.declaration? a with
  | some x =>
    -- it was in a slot before, so that is where the sweep came from
    have hreach := hknown (Option.isSome_iff_exists.mpr ⟨x, hx⟩)
    obtain ⟨c, y, hc, hy, hslot⟩ := hk.places a hreach (hr.frames.hasParameter_or hx hkind)
    have hchild : F.Child (.declaration c) (.declaration a) := Forest.child_of_slot hy rfl hslot
    rcases Relation.ReflTransGen.cases_tail hpath with e | ⟨u, hu, hlead⟩
    · obtain rfl := Node.declaration.inj e
      exact absurd hchild (hF.not_below a _ (Forest.tops_subset hroots.subset htop) (hreached hc))
    · have hu' : Led F _ roots u := ⟨top, htop, hu⟩
      have huchild : F.Child u (.declaration a) :=
        hr.mem_children (Option.isSome_iff_exists.mpr ⟨x, hx⟩) hlead.2.1
      obtain rfl := hF.container u _ _ (hreached (hu'.known hF hP hroots hk huchild.stores))
        (hreached hc) huchild hchild
      obtain ⟨z, hz, hbz, _⟩ := hr.frames.declaration? c y hy
      exact ⟨c, z, hu', hz, hbz.content.slots ▸ hslot⟩
  | none =>
    have hnot : ¬ F.Reached (.declaration a) := fun h => by
      have := hF.owner a h
      simp [Forest.symbolOwner?, hx] at this
    rcases Relation.ReflTransGen.cases_tail hpath with e | ⟨u, hu, hlead⟩
    · obtain rfl := Node.declaration.inj e
      exact absurd (hreached ⟨a, htop, .refl⟩) hnot
    · have hu' : Led F _ roots u := ⟨top, htop, hu⟩
      rcases hr.child_cases hlead.2.1 with hchild | hadded | ⟨_, b, e, hroutine⟩
        | ⟨c, y, b, rfl, e, _, hy, _, hslot, _⟩
      · exact absurd ((hreached (hu'.known hF hP hroots hk hchild.stores)).child hchild) hnot
      · exact absurd hadded hlead.2.2
      · obtain rfl := Node.declaration.inj e
        exact absurd hroutine (Forest.not_hasRoutine hkind)
      · obtain rfl := Node.declaration.inj e
        exact ⟨c, y, hu', hy, hslot⟩

omit hq in
/-- **What the first sweep is led to is linked in the end.** -/
theorem linked_of_led (hd : Led F (repairDeclarations cx roots (.start F)) roots (.declaration d)) :
    (repairDeclarations cx roots (.start F)).forest.Linked d := by
  by_cases hkind : (repairDeclarations cx roots (.start F)).forest.HasParameter d
      ∨ (repairDeclarations cx roots (.start F)).forest.HasTypeParameter d
  · obtain ⟨c, y, hc, hy, hslot⟩ := hd.exists_slot hF hP hroots hk hkind
    obtain ⟨p, hv⟩ := hc.visit hF hP hroots hk
    exact linked_of_mem_slots hF hP hroots hk hv hy hslot
  · obtain ⟨p, hv⟩ := hd.visit hF hP hroots hk
    obtain ⟨x, _, hlinked, _⟩ := linked_of_visits hF hP hroots hk hv
    obtain ⟨pre, post, hvs⟩ := List.append_of_mem hv
    have henter := (chain_visit cx p (.declaration d)).frames
    have hkeeps := henter.keeps.trans (chain_after hvs).frames.keeps
    exact hlinked (fun h => hkind (.inl (hkeeps.parameter d h)))
      fun h => hkind (.inr (hkeeps.typeParameter d h))

omit hq in
/-- **A missing symbol that is still mentioned** by what the first sweep is led to, or by a parameter
there, is the own symbol of a type parameter that was copied from a stand-in. -/
theorem copied_of_mentioned (hm : ∀ d x, F.Reaches roots (.declaration d) → F.declaration? d = some x →
      x.origin = .missing → x.isInitializer) {s : SymbolId}
    (hd : Led F (repairDeclarations cx roots (.start F)) roots (.declaration d)
      ∨ Slotted F (repairDeclarations cx roots (.start F)) q roots (.declaration d))
    (hx : (repairDeclarations cx roots (.start F)).forest.declaration? d = some x)
    (hs : s ∈ x.mentioned)
    (hmissing : (repairDeclarations cx roots (.start F)).forest.isMissing s = true) :
    F.declaration? d = none ∧ x.typeParameter?.isSome ∧ x.origin = .missing ∧ s = x.symbol := by
  obtain ⟨⟨hr, _⟩, _⟩ := grafted_visit cx hk.bequests hP
  -- what is found below the roots was known, and it is linked
  obtain ⟨hknown, hlinked⟩ : F.Known roots (.declaration d)
      ∧ (repairDeclarations cx roots (.start F)).forest.Linked d := by
    rcases hd with hled | ⟨c, f, a, hled, _, _, hf, ha, e⟩
    · exact ⟨hled.known hF hP hroots hk, linked_of_led hF hP hroots hk hled⟩
    · obtain rfl := Node.declaration.inj e
      obtain ⟨p, hv⟩ := hled.visit hF hP hroots hk
      obtain ⟨y, hy, hyc⟩ := Option.bind_eq_some_iff.mp hf
      rw [← Forest.function?_eq_some.mp hyc] at ha
      exact ⟨hr.known_child (hled.known hF hP hroots hk) (Forest.child_of_slot hy rfl ha),
        linked_of_mem_slots hF hP hroots hk hv hy ha⟩
  rcases List.mem_append.mp hs with hs | hs
  · split at hs
    · rename_i hstandin
      obtain ⟨horigin, hinit⟩ := hstandin
      obtain rfl := List.mem_singleton.mp hs
      cases hx₀ : F.declaration? d with
      | some x₀ =>
        -- it was a stand-in before, which only initializers are
        have hb := hr.frames.becomes hx₀ hx
        have hinit₀ := hm d x₀ (hknown (Option.isSome_iff_exists.mpr ⟨x₀, hx₀⟩)) hx₀
          (hb.origin.symm.trans horigin)
        rw [hb.isInitializer, hinit₀] at hinit
        cases hinit
      | none =>
        refine ⟨rfl, ?_, horigin, rfl⟩
        have hf := hr.sprouts d x hx₀ hx
        unfold Forest.Fashioned at hf
        unfold Declaration.isInitializer at hinit
        unfold Declaration.typeParameter?
        cases hc : x.content <;> rw [hc] at hf hinit <;> simp_all
    · exact absurd hs List.not_mem_nil
  · rw [hlinked x hx s hs] at hmissing
    cases hmissing

end

/-! ## both sweeps -/

section
variable {cx : Context} {F : Forest} (hP : F.ParentsKnown) (hI : cx.intrinsics.Intact F)
include hP hI

theorem rewrites_repairForest :
    Rewrites cx.intrinsics (F.userRoots cx.intrinsics)
      (repairDeclarations cx (F.userRoots cx.intrinsics) (.start F)) (repairForest cx F) :=
  rewrites_repair hI hP _

/-- **An expression that is still reached mentions nothing that is missing.** -/
theorem noneMissing_of_reaches {e : ExpressionId} {x : Expression}
    (hreach : (repairForest cx F).forest.Reaches (F.userRoots cx.intrinsics) (.expression e))
    (hx : (repairForest cx F).forest.expression? e = some x) :
    (repairForest cx F).forest.NoneMissing x.mentioned := by
  have hq := rewrites_repairForest hP hI
  have hsane := ((chain_repairDeclarations cx (F.userRoots cx.intrinsics) (.start F)).sane
    (sane_start hP)).1
  have hnone := expressionProblem_repair hI hP (F.userRoots cx.intrinsics) .refl hreach
  intro s hs
  rw [hq.isMissing]
  exact Forest.noneMissing_mentioned ((hq.expressionProblem hsane.sound hq.asked).1.mp hnone x hx) s hs

variable (hk : F.KindCorrect (F.userRoots cx.intrinsics))
include hk

/-- what is reached in the end and was there before was below the roots before -/
theorem known_of_reaches {n : Node}
    (hn : (repairForest cx F).forest.Reaches (F.userRoots cx.intrinsics) n) :
    F.Known (F.userRoots cx.intrinsics) n := by
  have hq := rewrites_repairForest hP hI
  obtain ⟨⟨hr, _⟩, _⟩ := grafted_visit cx hk.bequests hP
  obtain ⟨top, htop, hpath⟩ := hn
  induction hpath with
  | refl => exact fun _ => ⟨top, hq.tops hr ▸ htop, .refl⟩
  | @tail a b _ hb ih =>
    rcases hq.child hb with hchild | hadded
    · exact hr.known_child ih hchild
    · exact fun hstores => absurd hstores (hr.frames.added hadded).not_stores

/-- a kept default value was one before, and had a declaration below it if it has one -/
theorem Kept.not_plainDefaults {d : DeclarationId}
    (h : (repairForest cx F).Kept (F.userRoots cx.intrinsics) (.declaration d)) :
    ¬ F.PlainDefaults (F.userRoots cx.intrinsics) := by
  have hq := rewrites_repairForest hP hI
  obtain ⟨⟨hr, _⟩, _⟩ := grafted_visit cx hk.bequests hP
  obtain ⟨c, f, a, info, e, hc, hf, _, ha, hinfo, he, hpath⟩ := h
  rw [Forest.parameter?, hq.declaration?] at hinfo
  obtain ⟨before, hbefore, he'⟩ := hr.default_before hinfo he
  have hknown := known_of_reaches hP hI hk (reaches_of_mem_parameters hc hf ha)
  have hreach : F.Reaches (F.userRoots cx.intrinsics) (.declaration a) := by
    obtain ⟨x, hx, _⟩ := Option.bind_eq_some_iff.mp hbefore
    exact hknown (Option.isSome_iff_exists.mpr ⟨x, hx⟩)
  rcases exists_declaration_below hr hq hpath with ⟨_, e, _⟩ | ⟨m, hm, rfl | ⟨b, rfl⟩⟩
  · cases e
  · exact fun hplain => hplain a before e d hreach hbefore he' hm
  · exact fun hplain => hplain a before e b hreach hbefore he' hm

variable (hF : F.defects = []) (hm : ∀ d x, F.Reaches (F.userRoots cx.intrinsics) (.declaration d) →
  F.declaration? d = some x → x.origin = .missing → x.isInitializer)
include hF hm

/-- a symbol that remains unlinked is mentioned by a declaration of one of two sorts -/
theorem kept_or_copied {s : SymbolId}
    (hs : s ∈ (repairForest cx F).forest.unlinkedSymbols (F.userRoots cx.intrinsics)) :
    ∃ d x, (repairForest cx F).forest.declaration? d = some x
      ∧ ((repairForest cx F).Kept (F.userRoots cx.intrinsics) (.declaration d) ∧ s ∈ x.mentioned
        ∨ (repairForest cx F).forest.Reaches (F.userRoots cx.intrinsics) (.declaration d)
          ∧ F.declaration? d = none ∧ x.typeParameter?.isSome ∧ x.origin = .missing
          ∧ s = x.symbol) := by
  have hq := rewrites_repairForest hP hI
  have hplanted := Forest.planted_of_defects_nil hF
  have hroots := F.userRoots_subperm cx.intrinsics
  obtain ⟨⟨n, hn, hs⟩, hmissing⟩ := Forest.mem_unlinkedSymbols.mp hs
  have hreach := Forest.reaches_of_mem_nodesUnder hn
  cases n with
  | expression e =>
    cases hx : (repairForest cx F).forest.expression? e with
    | none => simp [Forest.mentions, hx] at hs
    | some x =>
      rw [Forest.mentions, hx] at hs
      rw [noneMissing_of_reaches hP hI hreach hx s hs] at hmissing
      cases hmissing
  | declaration d =>
    cases hx : (repairForest cx F).forest.declaration? d with
    | none => simp [Forest.mentions, hx] at hs
    | some x =>
      rw [Forest.mentions, hx] at hs
      rw [hq.isMissing] at hmissing
      have hcopied := fun h => copied_of_mentioned (q := repairForest cx F) hplanted hP hroots hk hm h
        ((hq.declaration? d).symm.trans hx) hs hmissing
      rcases reaches_cases hplanted hP hroots hk hq
        (fun d => problemsOf_repairExpressions cx _ d _) hreach with hled | hslot | ⟨e, he, _⟩ | hkept
      · exact ⟨d, x, hx, .inr ⟨hreach, hcopied (.inl hled)⟩⟩
      · exact ⟨d, x, hx, .inr ⟨hreach, hcopied (.inr hslot)⟩⟩
      · cases he
      · exact ⟨d, x, hx, .inl ⟨hkept, hs⟩⟩

/-- **Nothing remains unlinked** if no default value holds a declaration, and no function is inherited
whose type parameters are stand-ins. -/
theorem unlinkedSymbols_repair_eq_nil (hplain : F.PlainDefaults (F.userRoots cx.intrinsics))
    (hcopies : F.Bequests False (F.userRoots cx.intrinsics)) :
    (repairForest cx F).forest.unlinkedSymbols (F.userRoots cx.intrinsics) = [] := by
  obtain ⟨⟨hr, _⟩, _⟩ := grafted_visit cx hcopies hP
  apply List.eq_nil_iff_forall_not_mem.mpr
  intro s hs
  obtain ⟨d, x, hx, hd⟩ := kept_or_copied hP hI hk hF hm hs
  rcases hd with ⟨hkept, _⟩ | ⟨_, hnone, hkind, horigin, _⟩
  · exact hkept.not_plainDefaults hP hI hk hplain
  · -- the type parameters of a copy are stand-ins only if those of its source are
    rw [(rewrites_repairForest hP hI).declaration?] at hx
    have hf := hr.sprouts d x hnone hx
    obtain ⟨info, hinfo⟩ := Option.isSome_iff_exists.mp hkind
    unfold Forest.Fashioned at hf
    rw [Forest.typeParameter?_eq_some.mp hinfo] at hf
    exact hf horigin

end

/-- **A symbol remains unlinked** just if it is missing and mentioned by a declaration below a kept
default value, or if it is the symbol of a type parameter that was copied from a stand-in. -/
theorem mem_unlinkedSymbols_repair {cx : Context} {F : Forest} (hF : F.defects = [])
    (hP : F.ParentsKnown) (hI : cx.intrinsics.Intact F)
    (hk : F.KindCorrect (F.userRoots cx.intrinsics))
    (hm : ∀ d x, F.Reaches (F.userRoots cx.intrinsics) (.declaration d) →
      F.declaration? d = some x → x.origin = .missing → x.isInitializer) :
    let roots := F.userRoots cx.intrinsics
    let q := repairForest cx F
    ∀ s, s ∈ q.forest.unlinkedSymbols roots ↔ q.forest.isMissing s = true
      ∧ ∃ d x, q.forest.declaration? d = some x
        ∧ (q.Kept roots (.declaration d) ∧ s ∈ x.mentioned
          ∨ q.forest.Reaches roots (.declaration d) ∧ F.declaration? d = none
            ∧ x.typeParameter?.isSome ∧ x.origin = .missing ∧ s = x.symbol) := by
  intro roots q s
  constructor
  · exact fun hs => ⟨(Forest.mem_unlinkedSymbols.mp hs).2, kept_or_copied hP hI hk hF hm hs⟩
  · rintro ⟨hmissing, d, x, hx, hd⟩
    refine Forest.mem_unlinkedSymbols.mpr ⟨⟨.declaration d, ?_, ?_⟩, hmissing⟩
    · have hstores : q.forest.Stores (.declaration d) := Option.isSome_iff_exists.mpr ⟨x, hx⟩
      apply (Forest.mem_nodesUnder hstores).mpr
      rcases hd with ⟨hkept, _⟩ | ⟨hreach, _⟩
      · exact hkept.reaches
      · exact hreach
    · rw [Forest.mentions, hx]
      rcases hd with ⟨_, hs⟩ | ⟨_, _, hkind, horigin, rfl⟩
      · exact hs
      · apply List.mem_append_left _
        rw [if_pos ⟨horigin, Declaration.not_isInitializer_of_typeParameter hkind⟩]
        exact List.mem_singleton_self _

end Pass

/-! ## a default value that is kept -/

namespace Forest

/-- the function `make` has a parameter whose type is gone, so it is given a new body; the default value
of its other parameter holds the class `Local`, whose super type is gone too -/
def keptDefault : Forest :=
  let base := (named "lib").installIntrinsics
  let unit := base.1.unitType
  let file := base.2.newFile "pkg" "a.kt" ""
  let gone := file.2.newMissingSymbol "pkg" .classLike "Gone"
  let make := gone.2.newFunction "pkg" (.file file.1) "make" unit
  let first := make.2.newValueParameter make.1 "first" (.simple gone.1)
  let second := first.2.newValueParameter make.1 "second" unit
  let inner := second.2.newClass "pkg" (.declaration second.1) "Local" .plain
  let block := (inner.2.addSuperType inner.1 (.simple gone.1)).newExpression
    (.block [.declaration inner.1] none) unit
  block.2.updateDeclaration second.1 <| Declaration.mapParameter fun p =>
    { p with default := some block.1 }

/-- the context of a repair of `keptDefault` -/
def keptDefaultContext : Context := ⟨(named "lib").installIntrinsics.1, .warning⟩

theorem intact_keptDefault : keptDefaultContext.intrinsics.Intact keptDefault :=
  (intact_installIntrinsics _).mono ⟨_, rfl⟩ ⟨_, rfl⟩

end Forest

namespace Pass

open Forest in
/-- `Gone` remains unlinked, and it is a declaration below a kept default value that mentions it -/
theorem mem_unlinkedSymbols_keptDefault :
    let roots := keptDefault.userRoots keptDefaultContext.intrinsics
    let q := repairForest keptDefaultContext keptDefault
    keptDefault.defects = [] ∧ keptDefault.ParentsKnown
      ∧ keptDefaultContext.intrinsics.Intact keptDefault ∧ keptDefault.KindCorrect roots
      ∧ (∀ d x, keptDefault.Reaches roots (.declaration d) → keptDefault.declaration? d = some x →
        x.origin = .missing → x.isInitializer)
      ∧ q.forest.unlinkedSymbols roots = [⟨6⟩]
      ∧ ∃ d x, q.forest.declaration? d = some x ∧ q.Kept roots (.declaration d)
        ∧ ⟨6⟩ ∈ x.mentioned := by
  intro roots q
  have hF : keptDefault.defects = [] := by decide +kernel
  have hP : keptDefault.ParentsKnown := by decide +kernel
  have hk : keptDefault.KindCorrect roots := kindCorrect_of_kindsFit (by decide +kernel)
  have hstandin : ∀ x ∈ keptDefault.declarations.toList, x.origin = .missing → x.isInitializer := by
    decide +kernel
  have hm : ∀ d x, keptDefault.Reaches roots (.declaration d) → keptDefault.declaration? d = some x →
      x.origin = .missing → x.isInitializer := fun d x _ hx =>
    hstandin x (Array.mem_toList_iff.mpr (Array.mem_of_getElem? hx))
  have hunlinked : q.forest.unlinkedSymbols roots = [⟨6⟩] := by decide +kernel
  refine ⟨hF, hP, intact_keptDefault, hk, hm, hunlinked, ?_⟩
  obtain ⟨_, d, x, hx, hd⟩ :=
    (mem_unlinkedSymbols_repair hF hP intact_keptDefault hk hm ⟨6⟩).mp (by
      rw [hunlinked]
      exact List.mem_singleton_self _)
  rcases hd with ⟨hkept, hs⟩ | ⟨_, _, hkind, _⟩
  · exact ⟨d, x, hx, hkept, hs⟩
  · -- there is no type parameter at all
    have hnone : ∀ y ∈ q.forest.declarations.toList, y.typeParameter?.isSome = false := by
      decide +kernel
    rw [hnone x (Array.mem_toList_iff.mpr (Array.mem_of_getElem? hx))] at hkind
    cases hkind

end Pass

end LinkRepair
