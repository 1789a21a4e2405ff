import LinkRepair.Proofs.Repair.Settlement

/-!
# What the sweep over declarations comes to

The sweep stops at a function that it gives a new body.  It comes to everything else that is still
reached when it is over, but for the calls that it has put there.

* `Forest.AddedExpression`   an expression that was not there before;
* `Grafted.child_cases`      what is below a node in a stage of the repair;
* `Pass.Leads`               the way on from a node where the sweep does not stop;
* `leads_pushed`             a visit leads on to all that the node leads to when the sweep is over;
* `mem_visits_of_leads`      so whatever the roots lead to is visited.
-/

namespace LinkRepair

namespace Forest

/-- an expression that was not there in `B` -/
def AddedExpression (B : Forest) (n : Node) : Prop := ∃ e, n = .expression e ∧ B.expression? e = none

section
variable {S : Prop} {I : Intrinsics} {B G : Forest} {n : Node}

theorem AddedExpression.not_stores (h : B.AddedExpression n) : ¬ B.Stores n := by
  obtain ⟨e, rfl, he⟩ := h
  simp [Stores, he]

theorem NewCall.added {st : Statement} (h : B.NewCall st) : B.AddedExpression st.node := by
  obtain ⟨e, rfl, he⟩ := h
  exact ⟨e, rfl, he⟩

/-- below an added declaration are new calls and, if it is a function, what is in its slots -/
theorem Fashioned.children {x : Declaration} (h : B.Fashioned S G x) (hn : n ∈ x.content.children) :
    B.AddedExpression n ∨ ∃ d ∈ x.content.slots, n = .declaration d ∧ G.Fits x.content
      ∧ x.function?.isSome := by
  unfold Fashioned at h
  unfold Declaration.function?
  cases hc : x.content with
  | ofFunction f =>
    rw [hc] at h hn
    rcases List.mem_append.mp hn with hn | hn
    · obtain ⟨d, hd, rfl⟩ := List.mem_map.mp hn
      refine .inr ⟨d, ?_, rfl, h.2.1, rfl⟩
      simpa [Content.slots, FunctionInfo.parameters] using hd
    · obtain ⟨st, hst, rfl⟩ := List.mem_map.mp hn
      exact .inl (h.2.2.2 st hst).added
  | ofParameter p =>
    rw [hc] at h hn
    simp [Content.children, h.2] at hn
  | ofTypeParameter p =>
    rw [hc] at hn
    exact absurd hn List.not_mem_nil
  | ofInitializer body =>
    rw [hc] at h hn
    obtain ⟨st, hst, rfl⟩ := List.mem_map.mp hn
    exact .inl (h.2 st hst).added
  | _ =>
    rw [hc] at h
    exact h.elim

/-- an added parameter has nothing below it -/
theorem Fashioned.children_eq_nil {d : DeclarationId} {x : Declaration} (h : B.Fashioned S G x)
    (hx : G.declaration? d = some x) (hd : G.HasParameter d ∨ G.HasTypeParameter d) :
    x.content.children = [] := by
  unfold Fashioned at h
  rcases hd with ⟨y, p, hy, hc⟩ | ⟨y, p, hy, hc⟩ <;> obtain rfl := Option.some.inj (hx.symm.trans hy)
  · rw [hc] at h ⊢
    simp [Content.children, h.2]
  · rw [hc]
    rfl

end

end Forest

/-- below a declaration that is no class is what was below it, or a new call -/
theorem Content.Becomes.mem_children {I : Intrinsics} {F : Forest} {m : Memo} {s : SymbolId}
    {c c' : Content} (h : c.Becomes I F m s c') (hc : ∀ info, c ≠ .ofClass info) {n : Node}
    (hn : n ∈ c'.children) : n ∈ c.children ∨ F.AddedExpression n := by
  cases h with
  | @ofClass c => exact absurd rfl (hc c)
  | @ofFunction f type overridden body _ _ hb =>
    rcases hb with rfl | ⟨e, he, rfl⟩
    · exact .inl hn
    · rcases List.mem_append.mp hn with hn | hn
      · exact .inl (List.mem_append_left _ hn)
      · exact .inr ⟨e, List.mem_singleton.mp hn, he⟩
  | ofField h =>
    rcases h with rfl | ⟨_, _, rfl⟩
    · exact .inl hn
    · exact absurd hn List.not_mem_nil
  | ofVariable h =>
    rcases h with rfl | ⟨_, _, rfl⟩
    · exact .inl hn
    · exact absurd hn List.not_mem_nil
  | ofParameter h =>
    rcases h with rfl | ⟨_, _, rfl⟩
    · exact .inl hn
    · exact absurd hn List.not_mem_nil
  | ofInitializer h =>
    rcases h with rfl | ⟨e, he, rfl⟩
    · exact .inl hn
    · exact .inr ⟨e, List.mem_singleton.mp hn, he⟩
  | _ => exact .inl hn

namespace Pass

section
variable {cx : Context} {I : Intrinsics} {S : Prop} {F : Forest} {roots : List Root} {p q : Pass}

/-! ## what is below a node -/

/-- below an expression is what was below it, or a new call or its argument -/
theorem Grafted.child_expression (h : p.Grafted I S F) {e : ExpressionId} {n : Node}
    (hn : p.forest.Child (.expression e) n) :
    F.Child (.expression e) n ∨ F.AddedExpression n := by
  unfold Forest.Child at hn ⊢
  cases hy : p.forest.expression? e with
  | none => simp [Forest.children, hy] at hn
  | some y =>
    rw [Forest.children_expression hy] at hn
    cases hx : F.expression? e with
    | none => exact .inr ((h.inserted e y hx hy).exists_of_mem_children hn)
    | some x =>
      obtain rfl := Option.some.inj (hy.symm.trans (h.frames.expression? e x hx))
      exact .inl (by rwa [Forest.children_expression hx])

/-- **Below a node is what was below it, or what was added**: a new call, a function or an initializer
that a class was given, or a parameter of an added function. -/
theorem Grafted.child_cases (h : p.Grafted I S F) {a n : Node} (hn : p.forest.Child a n) :
    F.Child a n ∨ F.AddedExpression n
      ∨ (F.Stores a ∧ ∃ d, n = .declaration d ∧ p.forest.HasRoutine d)
      ∨ ∃ b y d, a = .declaration b ∧ n = .declaration d ∧ F.declaration? b = none
        ∧ p.forest.declaration? b = some y ∧ y.function?.isSome ∧ d ∈ y.content.slots
        ∧ p.forest.Fits y.content := by
  cases a with
  | expression e => exact (h.child_expression hn).imp id .inl
  | declaration b =>
    unfold Forest.Child at hn ⊢
    cases hy : p.forest.declaration? b with
    | none => simp [Forest.children, hy] at hn
    | some y =>
      rw [Forest.children_declaration hy] at hn
      cases hx : F.declaration? b with
      | none =>
        rcases (h.sprouts b y hx hy).children hn with hn | ⟨d, hd, rfl, hfits, hf⟩
        · exact .inr (.inl hn)
        · exact .inr (.inr (.inr ⟨b, y, d, rfl, rfl, hx, hy, hf, hd, hfits⟩))
      | some x =>
        have hb := h.frames.becomes hx hy
        rw [Forest.children_declaration hx]
        cases hc : x.class? with
        | none =>
          have hplain : ∀ info, x.content ≠ .ofClass info := fun info e => by
            rw [Forest.class?_eq_some.mpr e] at hc
            cases hc
          exact (hb.content.mem_children hplain hn).imp id .inl
        | some c =>
          have hcontent := hb.content
          rw [Forest.class?_eq_some.mp hc] at hcontent ⊢
          generalize hyc : y.content = content at hcontent hn
          cases hcontent with
          | @ofClass _ superTypes added _ _ _ =>
            have hclass : p.forest.class? b = some _ :=
              Option.bind_eq_some_iff.mpr ⟨y, hy, Forest.class?_eq_some.mpr hyc⟩
            obtain ⟨c₀, new, hc₀, hm, hnew⟩ := h.listed b _ hclass
            obtain rfl : c₀ = c := by simpa [Forest.class?, hx, hc] using hc₀.symm
            obtain ⟨d, hd, rfl⟩ := List.mem_map.mp hn
            rcases List.mem_append.mp hd with hd | hd
            · exact .inl (List.mem_map_of_mem (List.mem_append_left _ hd))
            · rw [hm] at hd
              rcases List.mem_append.mp hd with hd | hd
              · exact .inl (List.mem_map_of_mem (List.mem_append_right _ hd))
              · exact .inr (.inr (.inl ⟨Option.isSome_iff_exists.mpr ⟨x, hx⟩, d, rfl, hnew d hd⟩))

/-- every declaration that is listed below a known node is there -/
theorem Grafted.declared_child (h : p.Grafted I S F) (hF : F.Planted)
    (hroots : roots.Subperm F.fileRoots) {a : Node} {d : DeclarationId} (ha : F.Known roots a)
    (hd : p.forest.Child a (.declaration d)) : (p.forest.declaration? d).isSome := by
  rcases h.child_cases hd with hchild | ⟨e, he, _⟩ | ⟨_, b, hb, y, hy, _⟩
    | ⟨_, y, b, _, hb, _, _, _, hslot, hfits⟩
  · have hreached := Forest.reached_of_reaches hroots.subset (ha hchild.stores)
    obtain ⟨x, hx, _⟩ := Option.bind_eq_some_iff.mp (hF.owner d (hreached.child hchild))
    exact h.frames.isSome (Option.isSome_iff_exists.mpr ⟨x, hx⟩)
  · cases he
  · obtain rfl := Node.declaration.inj hb
    exact Option.isSome_iff_exists.mpr ⟨y, hy⟩
  · obtain rfl := Node.declaration.inj hb
    rcases hfits.of_mem_slots hslot with ⟨z, _, hz, _⟩ | ⟨z, _, hz, _⟩ <;>
      exact Option.isSome_iff_exists.mpr ⟨z, hz⟩

/-! ## the end of a visit -/

/-- the visit of a class -/
theorem enterDeclaration_class {d : DeclarationId} {x : Declaration} {c : ClassInfo}
    (hx : p.forest.declaration? d = some x) (hc : x.content = .ofClass c) :
    (enterDeclaration cx p (.declaration d)).1 = p.repairClass cx d x.symbol c := by
  simp only [enterDeclaration, hx, hc, below]

/-- a value that lost its type lost its initializer too -/
theorem children_fixValue {d : DeclarationId} {x : Declaration} {k : Cause}
    (hx : p.forest.declaration? d = some x) (hv : x.valueType?.isSome) (hc : x.parameter? = none)
    (hk : (p.fixValue cx d).1 = some k) : (p.fixValue cx d).2.forest.children (.declaration d) = [] := by
  have hown := declaration?_fixValue cx hx hv
  rw [hk] at hown
  rw [Forest.children_declaration hown]
  obtain ⟨_, _, _, _, _, content⟩ := x
  cases content with
  | ofField | ofVariable => rfl
  | ofParameter => cases hc
  | _ => cases hv

/-- **A visit leads on to all that is below**, unless a function is given a new body. -/
theorem enterDeclaration_snd_of_continues {d : DeclarationId} {x : Declaration}
    (hx : p.forest.declaration? d = some x)
    (hf : ∀ f, x.content = .ofFunction f → functionProblem d x (p.signatureVerdict cx d) = none) :
    (enterDeclaration cx p (.declaration d)).2
      = (enterDeclaration cx p (.declaration d)).1.forest.children (.declaration d) := by
  have hvalue : x.valueType?.isSome → x.parameter? = none →
      ((p.fixValue cx d).2.below (.declaration d) (p.fixValue cx d).1.isSome).2
        = (p.fixValue cx d).2.forest.children (.declaration d) := by
    intro hv hc
    cases hk : (p.fixValue cx d).1 with
    | none => rfl
    | some k => exact (children_fixValue hx hv hc hk).symm
  unfold enterDeclaration
  simp only [hx]
  cases hc : x.content with
  | ofFunction f =>
    have hnone := hf f hc
    unfold signatureVerdict at hnone
    simp only [repairFunction, hnone, below, Bool.false_eq_true, if_false]
  | ofField f =>
    refine hvalue ?_ ?_
    · simp [Declaration.valueType?, hc]
    · simp [Declaration.parameter?, hc]
  | ofVariable v =>
    refine hvalue ?_ ?_
    · simp [Declaration.valueType?, hc]
    · simp [Declaration.parameter?, hc]
  | _ => rfl

/-! ## the way on -/

/-- the sweep stops at a function that it gives a new body, unless it has added the function -/
def Stops (F : Forest) (r : Pass) (n : Node) : Prop :=
  ∃ d x f, n = .declaration d ∧ F.declaration? d = some x ∧ x.content = .ofFunction f
    ∧ r.problemsOf d ≠ []

/-- the way on from a node -/
def Leads (F : Forest) (r : Pass) (a n : Node) : Prop :=
  ¬ Stops F r a ∧ r.forest.Child a n ∧ ¬ F.AddedExpression n

variable (hF : F.Planted) (hB : F.Bequests S roots) (hP : F.ParentsKnown)
  (hroots : roots.Subperm F.fileRoots)
include hF hB hP hroots

/-- a declaration that is visited is there -/
theorem isSome_of_visits {d : DeclarationId} {pre post : List (Pass × Node)}
    (hvs : declarationVisits cx roots (.start F) = pre ++ (p, .declaration d) :: post) :
    (p.forest.declaration? d).isSome := by
  have hrun := run_sweep cx F roots
  have hvisit := (grafted_visit cx hB hP).2
  rw [hvs] at hrun hvisit
  obtain ⟨hpre, horigin⟩ := hrun.of_append_cons
  obtain ⟨⟨hg, _⟩, _⟩ := hvisit _ (List.mem_append_right _ List.mem_cons_self)
  rcases horigin with htop | ⟨u, hu, hpushed⟩
  · obtain ⟨b, hb, e⟩ := List.mem_map.mp htop
    obtain rfl := Node.declaration.inj e
    have hreached : F.Reached (.declaration b) :=
      Forest.reached_of_reaches hroots.subset ⟨b, hb, .refl⟩
    obtain ⟨x, hx, _⟩ := Option.bind_eq_some_iff.mp (hF.owner b hreached)
    exact hg.frames.isSome (Option.isSome_iff_exists.mpr ⟨x, hx⟩)
  · obtain ⟨⟨hgu, _⟩, hknown⟩ := hvisit u (List.mem_append_left _ hu)
    have hthere := (hgu.enterDeclaration hB hknown).declared_child hF hroots hknown
      (mem_pushed_enterDeclaration hpushed)
    exact ((hpre.relates (R := fun s t => (s.forest.declaration? d).isSome →
      (t.forest.declaration? d).isSome) (fun _ h => h) (fun h h' hs => h' (h hs)) fun v _ =>
        (chain_enterDeclaration v.2).frames.isSome).2 u hu).2 hthere

/-- **A class that was visited stays what it is.** -/
theorem declaration?_class (hk : F.KindCorrect roots) {d : DeclarationId} {x y : Declaration}
    {c : ClassInfo} {pre post : List (Pass × Node)}
    (hvs : declarationVisits cx roots (.start F) = pre ++ (p, .declaration d) :: post)
    (hx : p.forest.declaration? d = some x) (hc : x.content = .ofClass c)
    (hy : (enterDeclaration cx p (.declaration d)).1.forest.declaration? d = some y) :
    (repairDeclarations cx roots (.start F)).forest.declaration? d = some y := by
  have hrun := run_sweep cx F roots
  rw [hvs] at hrun
  obtain ⟨⟨hg, _⟩, _⟩ := grafted_of_visits cx hB hP hvs
  -- the class was there before, so only its own visit may edit it
  obtain ⟨c₀, _, hc₀, _⟩ := hg.of_class? (show p.forest.class? d = some c from
    Option.bind_eq_some_iff.mpr ⟨x, hx, Forest.class?_eq_some.mpr hc⟩)
  obtain ⟨x₀, hx₀, hxc₀⟩ := Forest.class?_eq hc₀
  have hedited : d ∈ x₀.content.edited d := by
    rw [Forest.class?_eq_some.mp hxc₀]
    exact List.mem_cons_self
  have hother := not_touched_of_visits hF hB hP hroots hk hx₀ hvs hedited
  -- and it counts as examined, so it is not given any more members
  have hexamined : d ∈ (enterDeclaration cx p (.declaration d)).1.examined := by
    rw [enterDeclaration_class hx hc]
    exact mem_examined_implementMembers _ d
  refine (hrun.after (R := fun s t => d ∈ s.examined ∧ s.forest.declaration? d = some y →
    d ∈ t.examined ∧ t.forest.declaration? d = some y) (fun _ h => h) (fun h h' hs => h' (h hs))
    (fun v hv hs => ?_) ⟨hexamined, hy⟩).2
  have hframes : Frames cx.intrinsics _ _ v.1 (Pass.enterDeclaration cx v.1 v.2).1 :=
    (chain_enterDeclaration v.2).frames
  exact ⟨hframes.examined hs.1, hframes.declaration?_eq hs.2 (hother v (List.mem_append_right _ hv))
    (.inl fun hgrowing => hgrowing hs.1)⟩

/-- where the sweep does not stop, the visit of a function finds no problem -/
theorem continues_of_not_stops (hk : F.KindCorrect roots) {d : DeclarationId} {x : Declaration}
    {f : FunctionInfo} {pre post : List (Pass × Node)}
    (hvs : declarationVisits cx roots (.start F) = pre ++ (p, .declaration d) :: post)
    (hstops : ¬ Stops F (repairDeclarations cx roots (.start F)) (.declaration d))
    (hx : p.forest.declaration? d = some x) (hc : x.content = .ofFunction f) :
    functionProblem d x (p.signatureVerdict cx d) = none := by
  obtain ⟨⟨hg, _⟩, _⟩ := grafted_of_visits cx hB hP hvs
  cases hx₀ : F.declaration? d with
  | none =>
    -- an added function is never given a new body by its visit
    have hf := hg.sprouts d x hx₀ hx
    unfold Forest.Fashioned at hf
    rw [hc] at hf
    rw [functionProblem, hf.1]
  | some x₀ =>
    have hb₀ := hg.frames.becomes hx₀ hx
    have hc₀ := hb₀.content
    rw [hc] at hc₀
    generalize hxc₀ : x₀.content = content at hc₀
    cases hc₀ with
    | @ofFunction f₀ =>
      obtain ⟨hbefore, _⟩ := settled_function hF hB hP hroots hk hvs hx₀ hxc₀
      obtain rfl := Option.some.inj (hx.symm.trans hbefore)
      by_contra hproblem
      obtain ⟨problem, hproblem⟩ := Option.ne_none_iff_exists'.mp hproblem
      refine hstops ⟨d, x, f₀, rfl, hx₀, hxc₀, ?_⟩
      rw [problemsOf_function hF hB hP hroots hk hvs hx₀ hxc₀, hproblem]
      exact List.cons_ne_nil _ _

/-- **A visit leads on to all that its node leads to when the sweep is over.** -/
theorem leads_pushed (hk : F.KindCorrect roots) {v : Pass × Node}
    (hv : v ∈ declarationVisits cx roots (.start F)) {n : Node}
    (h : Leads F (repairDeclarations cx roots (.start F)) v.2 n) :
    n ∈ pushed (Pass.enterDeclaration cx) v := by
  obtain ⟨hstops, hchild, hnew⟩ := h
  obtain ⟨p, a⟩ := v
  obtain ⟨⟨hgr, _⟩, hvisit⟩ := grafted_visit cx hB hP
  obtain ⟨⟨hg, _⟩, hknown⟩ := hvisit _ hv
  obtain ⟨pre, post, hvs⟩ := List.append_of_mem hv
  have hafter := (chain_after hvs).frames
  cases a with
  | expression e =>
    -- its operation is that of the beginning, at any stage
    show n ∈ p.forest.children (.expression e)
    have hbefore : F.Child (.expression e) n := (hgr.child_expression hchild).resolve_right hnew
    obtain ⟨x, hx⟩ := Option.isSome_iff_exists.mp hbefore.stores
    unfold Forest.Child at hbefore
    rwa [Forest.children_expression (hg.frames.expression? e x hx), ← Forest.children_expression hx]
  | declaration d =>
    unfold Forest.Child at hchild
    obtain ⟨x, hx⟩ := Option.isSome_iff_exists.mp (isSome_of_visits hF hB hP hroots hvs)
    have henter : Chain cx Scope.everything p (Pass.enterDeclaration cx p (.declaration d)).1 :=
      chain_visit cx p _
    obtain ⟨y, hy, hb, _⟩ := henter.frames.declaration? d x hx
    have hcontinues : ∀ f, x.content = .ofFunction f →
        functionProblem d x (p.signatureVerdict cx d) = none := fun f hc =>
      continues_of_not_stops hF hB hP hroots hk hvs hstops hx hc
    show n ∈ (Pass.enterDeclaration cx p (.declaration d)).2
    rw [enterDeclaration_snd_of_continues hx hcontinues, Forest.children_declaration hy]
    cases hc : x.class? with
    | some c =>
      have hz := declaration?_class hF hB hP hroots hk hvs hx (Forest.class?_eq_some.mp hc) hy
      rwa [Forest.children_declaration hz] at hchild
    | none =>
      obtain ⟨z, hz, hbz, _⟩ := hafter.declaration? d y hy
      rw [Forest.children_declaration hz] at hchild
      have hplain : ∀ info, y.content ≠ .ofClass info := by
        intro info e
        have hclass := hb.isClass
        unfold Declaration.isClass at hclass
        rw [Forest.class?_eq_some.mpr e, hc] at hclass
        cases hclass
      apply (hbz.content.mem_children hplain hchild).resolve_right
      rintro ⟨e, rfl, he⟩
      exact hnew ⟨e, rfl, hg.frames.expression?_none (henter.frames.expression?_none he)⟩

/-! ## how deep the sweep goes -/

omit hF hB hP hroots in
theorem Frames.size_le {T K : DeclarationId → Prop} (h : Frames I T K p q) :
    p.forest.declarations.size ≤ q.forest.declarations.size := by
  refine Nat.le_of_not_lt fun hlt => ?_
  have := h.isSome (d := ⟨q.forest.declarations.size⟩) (Forest.declaration?_isSome.mpr hlt)
  exact Nat.lt_irrefl _ (Forest.declaration?_isSome.mp this)

omit hF hB hP hroots in
theorem Frames.nodeCount_le {T K : DeclarationId → Prop} (h : Frames I T K p q) :
    p.forest.nodeCount ≤ q.forest.nodeCount := by
  refine Nat.add_le_add h.size_le (Nat.le_of_not_lt fun hlt => ?_)
  obtain ⟨x, hx⟩ := Option.isSome_iff_exists.mp
    (Forest.expression?_isSome (e := ⟨q.forest.expressions.size⟩) |>.mpr hlt)
  have := Option.isSome_iff_exists.mpr ⟨x, h.expression? _ x hx⟩
  exact Nat.lt_irrefl _ (Forest.expression?_isSome.mp this)

omit hF hB hP hroots in
/-- the sweep goes one level below an added node -/
theorem not_leads_of_added (h : p.Grafted I S F) {a b n : Node} (ha : ¬ F.Stores a)
    (hab : Leads F p a b) : ¬ Leads F p b n := by
  rintro ⟨_, hbn, hnew⟩
  rcases h.child_cases hab.2.1 with hchild | hadded | ⟨hstores, _⟩
    | ⟨c, y, d, rfl, rfl, hc, hy, hf, hslot, hfits⟩
  · exact ha hchild.stores
  · exact hab.2.2 hadded
  · exact ha hstores
  · have hd := (h.sprouts c y hc hy).slots_none d hslot
    have hkind := hfits.of_mem_slots hslot
    obtain ⟨z, hz⟩ := Option.isSome_iff_exists.mp hbn.stores
    rw [Forest.Child, Forest.children_declaration hz, (h.sprouts d z hd hz).children_eq_nil hz hkind] at hbn
    exact absurd hbn List.not_mem_nil

omit hF hB hP hroots in
/-- so a path of the sweep has at most one level more than there were nodes -/
theorem exists_below_leads (h : p.Grafted I S F) {a n : Node}
    (hn : Relation.ReflTransGen (Leads F p) a n) :
    ∃ k, k ≤ F.nodeCount + 1 ∧ Below (Leads F p) k a n := by
  have hpath : ∀ {b}, Relation.ReflTransGen (fun b c => Leads F p b c ∧ F.Stores b) a b →
      ∃ k, k ≤ F.nodeCount ∧ Below (Leads F p) k a b := by
    intro b hb
    obtain ⟨k, hk, _, hbelow⟩ := exists_below_length F.stored
      (fun b c hbc => Forest.mem_stored.mpr hbc.2) hb
    rw [Forest.length_stored] at hk
    exact ⟨k, hk, hbelow.mono fun _ _ => And.left⟩
  have hcases : Relation.ReflTransGen (fun b c => Leads F p b c ∧ F.Stores b) a n
      ∨ ∃ b, Relation.ReflTransGen (fun b c => Leads F p b c ∧ F.Stores b) a b ∧ ¬ F.Stores b
        ∧ Leads F p b n := by
    induction hn with
    | refl => exact .inl .refl
    | @tail b c _ hbc ih =>
      rcases ih with hb | ⟨b', _, hadded, hlead⟩
      · by_cases hs : F.Stores b
        · exact .inl (hb.tail ⟨hbc, hs⟩)
        · exact .inr ⟨b, hb, hs, hbc⟩
      · exact absurd hbc (not_leads_of_added h hadded hlead)
  rcases hcases with hn | ⟨b, hb, _, hlead⟩
  · obtain ⟨k, hk, hbelow⟩ := hpath hn
    exact ⟨k, Nat.le_succ_of_le hk, hbelow⟩
  · obtain ⟨k, hk, hbelow⟩ := hpath hb
    exact ⟨k + 1, Nat.succ_le_succ hk, hbelow.tail hlead⟩

omit hF hB hP hroots in
variable (cx) in
/-- the visits below one root are among those below all roots -/
theorem visitsAll_subset {root : Root} : ∀ {rest : List Root} {p : Pass}, root ∈ rest →
    ∃ q, Chain cx Scope.everything p q ∧ visitsAll (Pass.enterDeclaration cx) (sweepDepth q.forest) q
      ((q.forest.rootDeclarations root).map .declaration) ⊆ declarationVisits cx rest p := by
  intro rest
  induction rest with
  | nil => exact fun h => absurd h List.not_mem_nil
  | cons first rest ih =>
    intro p h
    rcases List.mem_cons.mp h with rfl | h
    · exact ⟨p, .refl, List.subset_append_left _ _⟩
    · obtain ⟨q, hq, hsub⟩ := ih (p := p.sweepDeclarations cx first) h
      exact ⟨q, (chain_sweepDeclarations cx first p).trans hq,
        List.Subset.trans hsub (List.subset_append_right _ _)⟩

/-- **Whatever the roots lead to is visited.** -/
theorem mem_visits_of_leads (hk : F.KindCorrect roots) {d : DeclarationId} (hd : d ∈ F.tops roots)
    {n : Node} (h : Relation.ReflTransGen (Leads F (repairDeclarations cx roots (.start F)))
      (.declaration d) n) :
    ∃ p, (p, n) ∈ declarationVisits cx roots (.start F) := by
  obtain ⟨⟨hgr, _⟩, _⟩ := grafted_visit cx hB hP
  obtain ⟨k, hle, hbelow⟩ := exists_below_leads hgr h
  obtain ⟨root, hroot, hdr⟩ := List.mem_flatMap.mp hd
  obtain ⟨q, hq, hsub⟩ := visitsAll_subset cx (p := .start F) hroot
  have htop : Node.declaration d ∈ (q.forest.rootDeclarations root).map Node.declaration := by
    rw [Forest.rootDeclarations_of_files hq.frames.files]
    exact List.mem_map_of_mem hdr
  have hlt : k < sweepDepth q.forest := by
    have h₁ := nodeCount_add_four_le_sweepDepth q.forest
    have h₂ : F.nodeCount ≤ q.forest.nodeCount := hq.frames.nodeCount_le
    omega
  have hmem := mem_visitsAll_of_below (fun v hv m hm =>
    leads_pushed hF hB hP hroots hk (hsub hv) hm) htop hbelow hlt
  obtain ⟨v, hv, rfl⟩ := List.mem_map.mp hmem
  exact ⟨v.1, hsub hv⟩

end

end Pass

end LinkRepair
