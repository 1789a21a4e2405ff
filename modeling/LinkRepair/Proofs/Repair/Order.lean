import LinkRepair.Proofs.Repair.Charges
import LinkRepair.Proofs.Repair.Remains

/-!
# The sweep over declarations in another order

What only one visit edits is as it was until then, so in an acyclic forest each visit does the same
whatever was visited before.  So the first sweep visits the same nodes of the forest in whatever order
its roots are listed, and leaves the same views of all declarations.

* `Edits.unique`            a declaration is edited by one visit only;
* `view_of_visits`          the view of a declaration after its visit is that of a visit at the start;
* `charges_visit`           so are the charges of the visit;
* `mem_visits_of_perm`      with the roots in another order, the same nodes are visited;
* `view_of_perm`, `charges_perm`   so the views are the same in the end, and the charges in some order.
-/

namespace LinkRepair

namespace Forest

section
variable {F : Forest} {roots : List Root} {n m : Node} {a : DeclarationId}

/-- what a visit edits is its declaration, one in a slot, or the first initializer -/
theorem Edits.cases (h : F.Edits n a) : ∃ d x, n = .declaration d ∧ F.declaration? d = some x
    ∧ x.content.isEdited ∧ (a = d ∨ a ∈ x.content.slots ∨ F.initializer? d = some a) := by
  obtain ⟨d, x, rfl, hx, ha⟩ := h
  refine ⟨d, x, rfl, hx, ?_⟩
  rcases ha with ha | ha
  · obtain ⟨hedited, ha⟩ := Content.mem_edited.mp ha
    exact ⟨hedited, ha.imp_right .inl⟩
  · refine ⟨?_, .inr (.inr ha)⟩
    obtain ⟨c, hc, _⟩ := exists_of_initializer? ha
    obtain ⟨y, hy, hyc⟩ := class?_eq hc
    obtain rfl := Option.some.inj (hx.symm.trans hy)
    rw [class?_eq_some.mp hyc]
    rfl

theorem Edits.stores_left (h : F.Edits n a) : F.Stores n := by
  obtain ⟨d, x, rfl, hx, _⟩ := h
  exact Option.isSome_iff_exists.mpr ⟨x, hx⟩

theorem Edits.child (h : F.Edits n a) (hne : n ≠ .declaration a) : F.Child n (.declaration a) := by
  obtain ⟨d, x, rfl, hx, _, rfl | ha | ha⟩ := h.cases
  · exact absurd rfl hne
  · exact child_of_slot hx rfl ha
  · exact child_of_initializer? ha

/-- what is edited is there -/
theorem Edits.stores (h : F.Edits n a) (hC : F.ChildrenKnown) : (F.declaration? a).isSome := by
  by_cases hne : n = .declaration a
  · have := h.stores_left
    rwa [hne] at this
  · exact hC _ _ (h.child hne)

/-- what the visit of another declaration edits is of a kind that is not edited by its own visit -/
theorem Edits.not_isEdited (hk : F.KindCorrect roots) (hn : F.Reaches roots n) (h : F.Edits n a)
    (hne : n ≠ .declaration a) {x : Declaration} (hx : F.declaration? a = some x) :
    x.content.isEdited = false := by
  obtain ⟨d, y, rfl, hy, _, rfl | ha | ha⟩ := h.cases
  · exact absurd rfl hne
  · exact Bool.not_eq_true _ ▸ Forest.not_isEdited hx ((hk.slots d y hn hy).of_mem_slots ha)
  · obtain ⟨_, _, _, z, hz, hinit⟩ := exists_of_initializer? ha
    obtain rfl := Option.some.inj (hx.symm.trans hz)
    exact Declaration.not_isEdited_of_isInitializer hinit

/-- **A declaration is edited by one visit only.** -/
theorem Edits.unique (hF : F.Planted) (hroots : roots.Subperm F.fileRoots) (hk : F.KindCorrect roots)
    (hn : F.Reaches roots n) (hm : F.Reaches roots m) (h : F.Edits n a) (h' : F.Edits m a) : n = m := by
  have hself : ∀ {n m}, F.Reaches roots m → F.Edits n a → F.Edits m a → n = .declaration a →
      m = .declaration a := by
    rintro n m hm h h' rfl
    by_contra hne
    obtain ⟨d, x, hd, hx, hedited, _⟩ := h.cases
    obtain rfl := Node.declaration.inj hd
    rw [h'.not_isEdited hk hm hne hx] at hedited
    cases hedited
  by_cases hna : n = .declaration a
  · exact hna.trans (hself hm h h' hna).symm
  · have hma : m ≠ .declaration a := fun e => hna (hself hn h' h e)
    exact hF.container n m _ (reached_of_reaches hroots.subset hn) (reached_of_reaches hroots.subset hm)
      (h.child hna) (h'.child hma)

/-! ## another order of the roots -/

theorem Reaches.perm {roots' : List Root} (h : F.Reaches roots n) (hperm : roots.Perm roots') :
    F.Reaches roots' n := by
  obtain ⟨d, hd, hpath⟩ := h
  exact ⟨d, tops_subset hperm.subset hd, hpath⟩

theorem KindCorrect.perm {roots' : List Root} (h : F.KindCorrect roots) (hperm : roots.Perm roots') :
    F.KindCorrect roots' where
  slots := fun d x hd => h.slots d x (hd.perm hperm.symm)
  inherited := fun m x f ⟨r, b, c, hr, hrest⟩ => h.inherited m x f ⟨r, b, c, hr.perm hperm.symm, hrest⟩
  places := fun d hd hkind => by
    obtain ⟨a, x, ha, hrest⟩ := h.places d (hd.perm hperm.symm) hkind
    exact ⟨a, x, ha.perm hperm, hrest⟩

end

end Forest

namespace Pass

section
variable {cx : Context} {F : Forest} {roots : List Root} {p : Pass} {n : Node} {a d : DeclarationId}
  {x : Declaration} {pre post : List (Pass × Node)}

/-! ## stages -/

/-- what a visit edits of what was there, it would have edited at the start -/
theorem Plain.edits {I : Intrinsics} {S : Prop} (h : p.Plain I F) (hg : p.Grafted I S F)
    (hE : F.Entire) (ha : (F.declaration? a).isSome) (he : p.forest.Edits n a) : F.Edits n a := by
  obtain ⟨d, y, rfl, hy, hedits⟩ := he
  cases hx : F.declaration? d with
  | none =>
    have hfashioned := hg.sprouts d y hx hy
    rcases hedits with hedits | hinit
    · rcases (Content.mem_edited.mp hedits).2 with rfl | hslot
      · rw [hx] at ha
        cases ha
      · rw [hfashioned.slots_none a hslot] at ha
        cases ha
    · -- no class is added
      obtain ⟨c, hc, _⟩ := Forest.exists_of_initializer? hinit
      obtain ⟨y', hy', hyc⟩ := Forest.class?_eq hc
      obtain rfl := Option.some.inj (hy.symm.trans hy')
      unfold Forest.Fashioned at hfashioned
      rw [Forest.class?_eq_some.mp hyc] at hfashioned
      cases hfashioned
  | some x =>
    have hb := h.frames.becomes hx hy
    refine ⟨d, x, rfl, hx, hedits.imp (fun hedits => ?_) fun hinit => ?_⟩
    · rwa [Content.mem_edited, hb.content.isEdited, hb.content.slots, ← Content.mem_edited] at hedits
    · refine (h.initializer?_cases hE (Option.isSome_iff_exists.mpr ⟨x, hx⟩) hinit).resolve_right ?_
      rintro ⟨_, hnone⟩
      rw [hnone] at ha
      cases ha

variable (hE : F.Entire) (hA : F.Acyclic)
include hE hA

variable (cx roots) in
/-- the answers are those of the recursion at every visit, and in the end -/
theorem plain_visit : (repairDeclarations cx roots (.start F)).Plain cx.intrinsics F
    ∧ ∀ v ∈ declarationVisits cx roots (.start F), v.1.Plain cx.intrinsics F := by
  have hplain : ∀ {p}, Chain cx .everything (.start F) p → p.Plain cx.intrinsics F := fun hc =>
    (plain_start cx.intrinsics hE.parents).chain (hA.founds hE.needsKnown) hE.parents hE.owners hc
  obtain ⟨hend, hvisits⟩ := (run_sweep cx F roots).relates (R := Chain cx .everything) (fun _ => .refl)
    (fun h h' => h.trans h') fun v _ => chain_visit cx v.1 v.2
  exact ⟨hplain hend, fun v hv => hplain (hvisits v hv).1⟩

variable (hF : F.Planted) (hroots : roots.Subperm F.fileRoots) (hk : F.KindCorrect roots)
include hk

/-- a visit leaves what it does not edit as it is -/
theorem view_of_not_edits {v : Pass × Node} (hv : v ∈ declarationVisits cx roots (.start F))
    (ha : (F.declaration? a).isSome) (hne : ¬ F.Edits v.2 a) :
    F.view (enterDeclaration cx v.1 v.2).1.forest a = F.view v.1.forest a := by
  have hplain := (plain_visit cx roots hE hA).2 v hv
  have hgrafted := ((grafted_visit cx hk.bequests hE.parents).2 v hv).1.1
  refine (chain_enterDeclaration v.2).frames.view_eq (fun _ => hplain.frames.declaration?_none) ha ?_
  rintro (hedits | hnone)
  · exact hne (hplain.edits hgrafted hE ha hedits)
  · have hstored := hplain.frames.isSome (d := a) ha
    rw [hnone] at hstored
    cases hstored

variable (hvs : declarationVisits cx roots (.start F) = pre ++ (p, n) :: post)
include hvs

theorem view_before (ha : (F.declaration? a).isSome) (h : ∀ v ∈ pre, ¬ F.Edits v.2 a) :
    F.view p.forest a = F.view F a := by
  have hrun := run_sweep cx F roots
  rw [hvs] at hrun
  refine (hrun.of_append_cons.1.relates (R := fun (s t : Pass) => F.view t.forest a = F.view s.forest a)
    (fun _ => rfl) (fun h h' => h'.trans h) fun v hv => ?_).1
  exact view_of_not_edits hE hA hk (hvs ▸ List.mem_append_left _ hv) ha (h v hv)

theorem view_after (ha : (F.declaration? a).isSome) (h : ∀ v ∈ post, ¬ F.Edits v.2 a) :
    F.view (repairDeclarations cx roots (.start F)).forest a
      = F.view (enterDeclaration cx p n).1.forest a := by
  have hrun := run_sweep cx F roots
  rw [hvs] at hrun
  refine hrun.after (R := fun (s t : Pass) => F.view t.forest a = F.view s.forest a) (fun _ => rfl)
    (fun h h' => h'.trans h) fun v hv => ?_
  exact view_of_not_edits hE hA hk (hvs ▸ List.mem_append_right _ (List.mem_cons_of_mem _ hv)) ha
    (h v hv)

include hF hroots

omit hA in
/-- the other visits do not edit what this one edits -/
theorem not_edits_of_visits (ha : F.Edits n a) : ∀ v ∈ pre ++ post, ¬ F.Edits v.2 a := by
  have hreaches : ∀ v ∈ declarationVisits cx roots (.start F), F.Known roots v.2 := fun v hv =>
    ((grafted_visit cx hk.bequests hE.parents).2 v hv).2
  rw [hvs] at hreaches
  intro v hv hva
  have hmem : v ∈ pre ++ (p, n) :: post := by
    rcases List.mem_append.mp hv with hv | hv
    · exact List.mem_append_left _ hv
    · exact List.mem_append_right _ (List.mem_cons_of_mem _ hv)
  refine ne_of_visits hF hk.bequests hE.parents hroots ha.stores_left hvs v hv ?_
  exact hva.unique hF hroots hk (hreaches v hmem hva.stores_left)
    (hreaches (p, n) (List.mem_append_right _ List.mem_cons_self) ha.stores_left) ha

/-! ## visits -/

/-- a visit finds what it edits as it was at the start -/
theorem alike_of_visits : Alike cx.intrinsics F (F.Edits n) p (.start F) where
  left := (plain_visit cx roots hE hA).2 _ (hvs ▸ List.mem_append_right _ List.mem_cons_self)
  right := plain_start _ hE.parents
  stored := fun _ ha => ha.stores hE.children
  view := fun _ ha => view_before hE hA hk hvs (ha.stores hE.children) fun v hv =>
    not_edits_of_visits hE hF hroots hk hvs ha v (List.mem_append_left _ hv)

omit hA hF hroots hvs in
/-- an initializer that a class was given before its visit is a member of that class -/
theorem housed_of_visits (hvs : declarationVisits cx roots (.start F)
    = pre ++ (p, .declaration d) :: post) : p.Housed F d := by
  intro a hi hnone
  obtain ⟨c, hc, hmem, y, hy, hinit⟩ := Forest.exists_of_initializer? hi
  refine ⟨y, hy, ?_, ?_⟩
  · have hfashioned := (grafted_of_visits cx hk.bequests hE.parents hvs).1.1.sprouts a y hnone hy
    unfold Forest.Fashioned at hfashioned
    unfold Declaration.isInitializer at hinit
    split at hinit
    · rename_i body hbody
      rw [hbody] at hfashioned
      rw [hfashioned.1]
      rfl
    · cases hinit
  · have hbranches := (branches_visit cx hk.bequests hE.children).2 (p, .declaration d)
      (hvs ▸ List.mem_append_right _ List.mem_cons_self)
    obtain ⟨b, hb, hlink⟩ := (hbranches.hangs (.declaration a)
      (Forest.not_stores_declaration hnone)).link _ a rfl (Forest.child_of_initializer? hi)
    rw [← Node.declaration.inj hb] at hlink
    obtain ⟨y', hy', hparent⟩ := Option.bind_eq_some_iff.mp hlink
    obtain rfl := Option.some.inj (hy.symm.trans hy')
    exact hparent

omit hvs in
/-- **A visit does what it would do at the start.** -/
theorem sameVisit (hvs : declarationVisits cx roots (.start F) = pre ++ (p, .declaration d) :: post)
    (hx : F.declaration? d = some x) (hedited : x.content.isEdited) :
    SameVisit cx.intrinsics F (F.Edits (.declaration d)) p (.start F)
      (enterDeclaration cx p (.declaration d)).1 (enterDeclaration cx (.start F) (.declaration d)).1 := by
  refine (alike_of_visits hE hA hF hroots hk hvs).visit hE hA hx hedited
    (housed_of_visits hE hk hvs) fun a hi hnone => ?_
  obtain ⟨_, _, _, y, hy, _⟩ := Forest.exists_of_initializer? hi
  rw [show (start F).forest.declaration? a = F.declaration? a from rfl, hnone] at hy
  cases hy

/-- **After its visit a declaration has the view that a visit at the start gives it.** -/
theorem view_of_visits (ha : F.Edits n a) :
    F.view (repairDeclarations cx roots (.start F)).forest a
      = F.view (enterDeclaration cx (.start F) n).1.forest a := by
  rw [view_after hE hA hk hvs (ha.stores hE.children) fun v hv =>
    not_edits_of_visits hE hF hroots hk hvs ha v (List.mem_append_right _ hv)]
  obtain ⟨d, x, rfl, hx, hedited, _⟩ := ha.cases
  exact (sameVisit hE hA hF hroots hk hvs hx hedited).alike.view a ha

omit hF hroots hvs in
/-- what no visit edits has the view that it had -/
theorem view_of_no_visit (ha : (F.declaration? a).isSome)
    (h : ∀ v ∈ declarationVisits cx roots (.start F), ¬ F.Edits v.2 a) :
    F.view (repairDeclarations cx roots (.start F)).forest a = F.view F a :=
  ((run_sweep cx F roots).relates (R := fun (s t : Pass) => F.view t.forest a = F.view s.forest a)
    (fun _ => rfl) (fun h h' => h'.trans h) fun v hv => view_of_not_edits hE hA hk hv ha (h v hv)).1

/-! ## charges -/

omit hE hA hF hroots hk hvs in
/-- some kinds are not edited when they are visited -/
theorem enterDeclaration_of_not_isEdited (hx : p.forest.declaration? d = some x)
    (h : x.content.isEdited = false) : (enterDeclaration cx p (.declaration d)).1 = p := by
  unfold enterDeclaration
  simp only [hx]
  cases hc : x.content with
  | ofParameter | ofTypeParameter | ofEnumEntry | ofInitializer => rfl
  | _ =>
    rw [hc] at h
    cases h

omit hE hA hF hroots hk hvs in
/-- the visit of an added declaration makes no repair -/
theorem repairs_visit_added {I : Intrinsics} {S : Prop} (hg : p.Grafted I S F)
    (hd : F.declaration? d = none) : (enterDeclaration cx p (.declaration d)).1.repairs = p.repairs := by
  cases hy : p.forest.declaration? d with
  | none =>
    unfold enterDeclaration
    simp only [hy]
  | some y =>
    have hfashioned := hg.sprouts d y hd hy
    unfold Forest.Fashioned at hfashioned
    cases hc : y.content with
    | ofFunction f =>
      rw [hc] at hfashioned
      have hproblem : functionProblem d y (p.signatureVerdict cx d) = none := by
        rw [functionProblem, hfashioned.1]
      rw [enterDeclaration_function cx hy hc, hproblem]
      exact repairs_fixSignature _ d
    | ofParameter | ofTypeParameter | ofInitializer =>
      rw [enterDeclaration_of_not_isEdited hy (by rw [hc]; rfl)]
    | _ =>
      rw [hc] at hfashioned
      cases hfashioned

omit hE hA hF hroots hk hvs in
variable (cx F) in
/-- the charges of the visit of a node of `F` at the start -/
def chargesOf (n : Node) : List (Bool × Bool × Report) :=
  if F.Stores n then (enterDeclaration cx (.start F) n).1.charges else []

omit hvs in
/-- **A visit makes the charges that it would make at the start**, and none at an added node. -/
theorem charges_visit (hvs : declarationVisits cx roots (.start F) = pre ++ (p, n) :: post) :
    (enterDeclaration cx p n).1.charges = p.charges ++ chargesOf cx F n := by
  have hstart : (start F).charges = [] := rfl
  cases n with
  | expression e =>
    have hnone : chargesOf cx F (.expression e) = [] := by
      unfold chargesOf
      split <;> rfl
    rw [hnone, List.append_nil]
    rfl
  | declaration d =>
    unfold chargesOf
    cases hx : F.declaration? d with
    | none =>
      rw [if_neg (Forest.not_stores_declaration hx), List.append_nil, charges,
        repairs_visit_added (grafted_of_visits cx hk.bequests hE.parents hvs).1.1 hx, charges]
    | some x =>
      rw [if_pos (show F.Stores (.declaration d) from Option.isSome_iff_exists.mpr ⟨x, hx⟩)]
      cases hedited : x.content.isEdited with
      | true =>
        obtain ⟨l, hl, hl'⟩ := (sameVisit hE hA hF hroots hk hvs hx hedited).charges
        rw [hl, hl', hstart, List.nil_append]
      | false =>
        have hplain := (plain_visit cx roots hE hA).2 (p, .declaration d)
          (hvs ▸ List.mem_append_right _ List.mem_cons_self)
        obtain ⟨y, hy, hb, _⟩ := hplain.frames.declaration? d x hx
        rw [enterDeclaration_of_not_isEdited hy (hb.content.isEdited.trans hedited),
          enterDeclaration_of_not_isEdited (p := start F) hx hedited, hstart, List.append_nil]

omit hvs in
/-- **The charges of the first sweep are those of its visits.** -/
theorem charges_repairDeclarations : (repairDeclarations cx roots (.start F)).charges
    = ((declarationVisits cx roots (.start F)).map Prod.snd).flatMap (chargesOf cx F) := by
  have hcharges : ∀ v ∈ declarationVisits cx roots (.start F),
      (enterDeclaration cx v.1 v.2).1.charges = v.1.charges ++ chargesOf cx F v.2 := fun v hv => by
    obtain ⟨pre, post, hvs⟩ := List.append_of_mem hv
    exact charges_visit hE hA hF hroots hk hvs
  have hrun := run_sweep cx F roots
  generalize declarationVisits cx roots (.start F) = vs at hrun hcharges
  generalize repairDeclarations cx roots (.start F) = r at hrun
  induction hrun with
  | start => rfl
  | visit n h _ ih =>
    rw [hcharges _ (List.mem_append_right _ (List.mem_singleton_self _)),
      ih fun v hv => hcharges v (List.mem_append_left _ hv)]
    simp

/-! ## what is visited -/

omit hvs in
/-- **What the account says about a visited function** is what a visit at the start finds. -/
theorem problemsOf_visited {f : FunctionInfo} (hvs : declarationVisits cx roots (.start F)
    = pre ++ (p, .declaration d) :: post) (hx : F.declaration? d = some x) (hc : x.content = .ofFunction f) :
    (repairDeclarations cx roots (.start F)).problemsOf d
      = (functionProblem d x ((start F).signatureVerdict cx d)).toList := by
  have hedits : ∀ a, a = d ∨ a ∈ x.content.slots → F.Edits (.declaration d) a := fun a ha =>
    ⟨d, x, rfl, hx, .inl (Content.mem_edited.mpr ⟨by rw [hc]; rfl, ha⟩)⟩
  have hverdict := ((alike_of_visits hE hA hF hroots hk hvs).fixFunction hE hA (hedits d (.inl rfl)) hx
    fun a ha => hedits a (.inr ha)).verdict
  rw [problemsOf_function hF hk.bequests hE.parents hroots hk hvs hx hc, signatureVerdict, hverdict]
  rfl

omit hA in
/-- what edits a visited declaration is its own visit, or has been visited before -/
theorem edits_before (hn : n = .declaration a) (ha : (F.declaration? a).isSome) {m : Node}
    (hm : F.Reaches roots m) (h : F.Edits m a) : m = .declaration a ∨ ∃ v ∈ pre, v.2 = m := by
  refine or_iff_not_imp_left.mpr fun hne => ?_
  have hchild := h.child hne
  have hreached := Forest.reached_of_reaches hroots.subset hm
  have hrun := run_sweep cx F roots
  have hvisits := (grafted_visit cx hk.bequests hE.parents).2
  rw [hvs] at hrun hvisits
  rcases hrun.of_append_cons.2 with htop | ⟨u, hu, hpushed⟩
  · obtain ⟨b, hb, hbn⟩ := List.mem_map.mp htop
    obtain rfl := Node.declaration.inj (hbn.trans hn)
    exact absurd hchild (hF.not_below b m (Forest.tops_subset hroots.subset hb) hreached)
  · obtain ⟨⟨hg, _⟩, hknown⟩ := hvisits u (List.mem_append_left _ hu)
    have hbelow : F.Child u.2 (.declaration a) := (hg.enterDeclaration hk.bequests hknown).mem_children
      ha (hn ▸ mem_pushed_enterDeclaration hpushed)
    exact ⟨u, hu, hF.container _ _ _
      (Forest.reached_of_reaches hroots.subset (hknown hbelow.stores)) hreached hbelow hchild⟩

omit hvs in
/-- **After its own visit a declaration keeps its view.** -/
theorem view_settled (hvs : declarationVisits cx roots (.start F) = pre ++ (p, .declaration d) :: post)
    (hd : (F.declaration? d).isSome) : F.view (repairDeclarations cx roots (.start F)).forest d
      = F.view (enterDeclaration cx p (.declaration d)).1.forest d := by
  refine view_after hE hA hk hvs hd fun v hv hedits => ?_
  have hmem : v ∈ declarationVisits cx roots (.start F) :=
    hvs ▸ List.mem_append_right _ (List.mem_cons_of_mem _ hv)
  have hm := ((grafted_visit cx hk.bequests hE.parents).2 v hmem).2 hedits.stores_left
  rcases edits_before hE hF hroots hk hvs rfl hd hm hedits with hown | ⟨u, hu, hsame⟩
  · exact ne_of_visits hF hk.bequests hE.parents hroots (n := .declaration d) hd hvs v
      (List.mem_append_right _ hv) hown
  · -- no node is visited both before and after
    obtain ⟨between, rest, rfl⟩ := List.append_of_mem hv
    have hvs' : declarationVisits cx roots (.start F)
        = (pre ++ (p, .declaration d) :: between) ++ (v.1, v.2) :: rest := by
      rw [hvs, List.append_assoc]
      rfl
    exact ne_of_visits hF hk.bequests hE.parents hroots hedits.stores_left hvs' u
      (List.mem_append_left _ (List.mem_append_left _ hu)) hsame

omit hvs in
/-- a visit that leads on has not stopped -/
theorem not_stops_of_pushed {m : Node} (hvs : declarationVisits cx roots (.start F)
    = pre ++ (p, n) :: post) (hm : m ∈ pushed (enterDeclaration cx) (p, n)) :
    ¬ Stops F (repairDeclarations cx roots (.start F)) n := by
  rintro ⟨d, x, f, rfl, hx, hc, hproblems⟩
  rw [problemsOf_function hF hk.bequests hE.parents hroots hk hvs hx hc] at hproblems
  obtain ⟨y, hy, hb, _⟩ := ((plain_visit cx roots hE hA).2 (p, .declaration d)
    (hvs ▸ List.mem_append_right _ List.mem_cons_self)).frames.declaration? d x hx
  have hcontent := hb.content
  rw [hc] at hcontent
  generalize hyc : y.content = content at hcontent
  cases hcontent with
  | ofFunction =>
    have hsame : functionProblem d y (p.signatureVerdict cx d)
        = functionProblem d x (p.signatureVerdict cx d) := by
      rw [functionProblem, functionProblem, hb.origin, hb.symbol]
    replace hm : m ∈ (enterDeclaration cx p (.declaration d)).2 := hm
    unfold enterDeclaration at hm
    simp only [hy, hyc] at hm
    unfold repairFunction at hm
    rw [signatureVerdict] at hsame hproblems
    dsimp only at hm hsame
    rw [hsame] at hm
    cases hproblem : functionProblem d x ((p.filterOverridden d).fixSignature cx d).1 with
    | none =>
      rw [hproblem] at hproblems
      exact hproblems rfl
    | some problem =>
      rw [hproblem] at hm
      exact List.not_mem_nil hm

omit hvs in
/-- **The first sweep is led to all that it visits.** -/
theorem led_of_visits : ∀ {k : Nat} {pre post : List (Pass × Node)} {p : Pass} {n : Node},
    pre.length = k → declarationVisits cx roots (.start F) = pre ++ (p, n) :: post → F.Stores n →
    Led F (repairDeclarations cx roots (.start F)) roots n := by
  intro k
  induction k using Nat.strong_induction_on with
  | _ k ih =>
    intro pre post p n hlength hvs hn
    have hrun := run_sweep cx F roots
    rw [hvs] at hrun
    rcases hrun.of_append_cons.2 with htop | ⟨⟨q, m⟩, hu, hpushed⟩
    · obtain ⟨d, hd, rfl⟩ := List.mem_map.mp htop
      exact ⟨d, hd, .refl⟩
    · obtain ⟨before, between, rfl⟩ := List.append_of_mem hu
      have hvs' : declarationVisits cx roots (.start F)
          = before ++ (q, m) :: (between ++ (p, n) :: post) := by
        rw [hvs, List.append_assoc]
        rfl
      obtain ⟨⟨hg, _⟩, hknown⟩ := grafted_of_visits cx hk.bequests hE.parents hvs'
      have hchild : F.Child m n := (hg.enterDeclaration hk.bequests hknown).mem_children hn
        (mem_pushed_enterDeclaration hpushed)
      obtain ⟨d, hd, hpath⟩ := ih before.length (by simp at hlength; omega) rfl hvs' hchild.stores
      refine ⟨d, hd, hpath.tail ⟨not_stops_of_pushed hE hA hF hroots hk hvs' hpushed, ?_,
        fun hadded => hadded.not_stores hn⟩⟩
      cases m with
      | expression e =>
        obtain ⟨x, hx⟩ := Option.isSome_iff_exists.mp hchild.stores
        have hr := (plain_visit cx roots hE hA).1.frames.expression? e x hx
        show n ∈ _
        rwa [Forest.children_expression hr, ← Forest.children_expression hx]
      | declaration b =>
        refine (Forest.mem_children_view (view_settled hE hA hF hroots hk hvs' hchild.stores) hn).mpr ?_
        exact mem_pushed_enterDeclaration hpushed

end

/-! ## another order -/

section
variable {cx : Context} {F : Forest} {roots roots' : List Root} {n : Node} {a d : DeclarationId}
  (hE : F.Entire) (hA : F.Acyclic) (hF : F.Planted) (hroots : roots.Subperm F.fileRoots)
  (hk : F.KindCorrect roots) (hperm : roots.Perm roots')
include hE hA hF hroots hk hperm

/-- a declaration that both sweeps have visited has the same view after both -/
theorem view_of_both {p q : Pass} (hp : (p, .declaration a) ∈ declarationVisits cx roots (.start F))
    (hq : (q, .declaration a) ∈ declarationVisits cx roots' (.start F)) (ha : (F.declaration? a).isSome) :
    F.view (repairDeclarations cx roots (.start F)).forest a
      = F.view (repairDeclarations cx roots' (.start F)).forest a := by
  have hroots' := hperm.symm.subperm.trans hroots
  have hk' := hk.perm hperm
  by_cases h : ∃ m, F.Reaches roots m ∧ F.Edits m a
  · obtain ⟨m, hm, hedits⟩ := h
    -- the visit that edits it has taken place in both
    have hvisited : ∀ {roots : List Root}, roots.Subperm F.fileRoots → F.KindCorrect roots →
        F.Reaches roots m → ∀ {p}, (p, .declaration a) ∈ declarationVisits cx roots (.start F) →
        F.view (repairDeclarations cx roots (.start F)).forest a
          = F.view (enterDeclaration cx (.start F) m).1.forest a := by
      intro roots hroots hk hm p hp
      obtain ⟨pre, post, hvs⟩ := List.append_of_mem hp
      have hmem : ∃ v ∈ declarationVisits cx roots (.start F), v.2 = m := by
        rcases edits_before hE hF hroots hk hvs rfl ha hm hedits with rfl | ⟨v, hv, hvm⟩
        · exact ⟨_, hp, rfl⟩
        · exact ⟨v, hvs ▸ List.mem_append_left _ hv, hvm⟩
      obtain ⟨⟨q, _⟩, hv, rfl⟩ := hmem
      obtain ⟨before, after, hvs'⟩ := List.append_of_mem hv
      exact view_of_visits hE hA hF hroots hk hvs' hedits
    rw [hvisited hroots hk hm hp, hvisited hroots' hk' (hm.perm hperm) hq]
  · have hnone : ∀ {roots'' : List Root}, roots.Perm roots'' →
        ∀ v ∈ declarationVisits cx roots'' (.start F), ¬ F.Edits v.2 a := fun hperm v hv hedits =>
      h ⟨v.2, (((grafted_visit cx (hk.perm hperm).bequests hE.parents).2 v hv).2
        hedits.stores_left).perm hperm.symm, hedits⟩
    rw [view_of_no_visit hE hA hk ha (hnone (.refl _)), view_of_no_visit hE hA hk' ha (hnone hperm)]

/-- the sweep stops at the same functions -/
theorem stops_of_both {p q : Pass} (hp : (p, n) ∈ declarationVisits cx roots (.start F))
    (hq : (q, n) ∈ declarationVisits cx roots' (.start F))
    (h : Stops F (repairDeclarations cx roots' (.start F)) n) :
    Stops F (repairDeclarations cx roots (.start F)) n := by
  obtain ⟨d, x, f, rfl, hx, hc, hproblems⟩ := h
  obtain ⟨pre, post, hvs⟩ := List.append_of_mem hp
  obtain ⟨pre', post', hvs'⟩ := List.append_of_mem hq
  refine ⟨d, x, f, rfl, hx, hc, ?_⟩
  rwa [problemsOf_visited hE hA hF hroots hk hvs hx hc, ← problemsOf_visited hE hA hF
    (hperm.symm.subperm.trans hroots) (hk.perm hperm) hvs' hx hc]

/-- **With the roots in another order the sweep is led to the same nodes** that were there. -/
theorem Led.perm (h : Led F (repairDeclarations cx roots (.start F)) roots n) (hn : F.Stores n) :
    Led F (repairDeclarations cx roots' (.start F)) roots' n := by
  have hroots' := hperm.symm.subperm.trans hroots
  have hk' := hk.perm hperm
  obtain ⟨d, hd, hpath⟩ := h
  have hd' : d ∈ F.tops roots' := Forest.tops_subset hperm.subset hd
  induction hpath with
  | refl => exact ⟨d, hd', .refl⟩
  | @tail b n hpath hleads ih =>
    have hgrafted := (grafted_visit cx hk.bequests hE.parents).1.1
    have hbelow : F.Child b n := hgrafted.mem_children hn hleads.2.1
    have hb := hbelow.stores
    obtain ⟨p, hp⟩ := Led.visit hF hE.parents hroots hk ⟨d, hd, hpath⟩
    have hled := ih hb
    obtain ⟨q, hq⟩ := hled.visit hF hE.parents hroots' hk'
    obtain ⟨c, hc, hpath'⟩ := hled
    refine ⟨c, hc, hpath'.tail ⟨fun hs => hleads.1 (stops_of_both hE hA hF hroots hk hperm hp hq hs), ?_,
      hleads.2.2⟩⟩
    have hchild := hleads.2.1
    cases b with
    | expression e =>
      obtain ⟨x, hx⟩ := Option.isSome_iff_exists.mp hb
      have hr := (plain_visit cx roots hE hA).1.frames.expression? e x hx
      have hr' := (plain_visit cx roots' hE hA).1.frames.expression? e x hx
      unfold Forest.Child at hchild ⊢
      rwa [Forest.children_expression hr', ← Forest.children_expression hr]
    | declaration b =>
      exact (Forest.mem_children_view (view_of_both hE hA hF hroots hk hperm hp hq hb) hn).mp hchild

/-- so it visits the same nodes -/
theorem mem_visits_perm (hn : F.Stores n)
    (h : n ∈ (declarationVisits cx roots (.start F)).map Prod.snd) :
    n ∈ (declarationVisits cx roots' (.start F)).map Prod.snd := by
  obtain ⟨⟨p, _⟩, hp, rfl⟩ := List.mem_map.mp h
  obtain ⟨pre, post, hvs⟩ := List.append_of_mem hp
  obtain ⟨q, hq⟩ := ((led_of_visits hE hA hF hroots hk rfl hvs hn).perm hE hA hF hroots hk hperm hn).visit
    hF hE.parents (hperm.symm.subperm.trans hroots) (hk.perm hperm)
  exact List.mem_map.mpr ⟨_, hq, rfl⟩

/-- **The views of all declarations are the same in the end**, in whatever order the roots are listed. -/
theorem view_perm (ha : (F.declaration? a).isSome) :
    F.view (repairDeclarations cx roots (.start F)).forest a
      = F.view (repairDeclarations cx roots' (.start F)).forest a := by
  have hroots' := hperm.symm.subperm.trans hroots
  have hk' := hk.perm hperm
  by_cases h : ∃ m, m ∈ (declarationVisits cx roots (.start F)).map Prod.snd ∧ F.Edits m a
  · obtain ⟨m, hm, hedits⟩ := h
    have hm' := mem_visits_perm hE hA hF hroots hk hperm hedits.stores_left hm
    obtain ⟨⟨p, _⟩, hp, rfl⟩ := List.mem_map.mp hm
    obtain ⟨⟨q, _⟩, hq, rfl⟩ := List.mem_map.mp hm'
    obtain ⟨pre, post, hvs⟩ := List.append_of_mem hp
    obtain ⟨pre', post', hvs'⟩ := List.append_of_mem hq
    rw [view_of_visits hE hA hF hroots hk hvs hedits, view_of_visits hE hA hF hroots' hk' hvs' hedits]
  · have hnone : ∀ v ∈ declarationVisits cx roots (.start F), ¬ F.Edits v.2 a := fun v hv hedits =>
      h ⟨v.2, List.mem_map_of_mem hv, hedits⟩
    rw [view_of_no_visit hE hA hk ha hnone, view_of_no_visit hE hA hk' ha fun v hv hedits =>
      h ⟨v.2, mem_visits_perm hE hA hF hroots' hk' hperm.symm hedits.stores_left (List.mem_map_of_mem hv),
        hedits⟩]

/-- **The charges of the first sweep are the same**, in some order. -/
theorem charges_perm : (repairDeclarations cx roots (.start F)).charges.Perm
    (repairDeclarations cx roots' (.start F)).charges := by
  have hroots' := hperm.symm.subperm.trans hroots
  have hk' := hk.perm hperm
  -- only nodes that were there have charges, and these are visited once at most
  have hstored : ∀ l : List Node, l.flatMap (chargesOf cx F)
      = (l.filter fun n => F.Stores n).flatMap (chargesOf cx F) := by
    intro l
    induction l with
    | nil => rfl
    | cons n l ih =>
      by_cases hn : F.Stores n
      · rw [List.filter_cons_of_pos (by simpa using hn), List.flatMap_cons, List.flatMap_cons, ih]
      · rw [List.filter_cons_of_neg (by simpa using hn), List.flatMap_cons, ih, chargesOf, if_neg hn]
        rfl
  have hnodup : ∀ {roots : List Root}, roots.Subperm F.fileRoots → F.KindCorrect roots →
      (((declarationVisits cx roots (.start F)).map Prod.snd).filter fun n => F.Stores n).Nodup := by
    intro roots hroots hk
    refine List.nodup_iff_count_le_one.mpr fun n => ?_
    by_cases hn : F.Stores n
    · exact Nat.le_trans (List.filter_sublist.count_le n)
        (count_visits_le_one cx hF hk.bequests hE.parents hroots hn)
    · rw [List.count_eq_zero.mpr fun hmem => hn (by simpa using (List.mem_filter.mp hmem).2)]
      exact Nat.zero_le 1
  rw [charges_repairDeclarations hE hA hF hroots hk, charges_repairDeclarations hE hA hF hroots' hk',
    hstored, hstored ((declarationVisits cx roots' (.start F)).map Prod.snd)]
  refine ((List.perm_ext_iff_of_nodup (hnodup hroots hk) (hnodup hroots' hk')).mpr fun n => ?_).flatMap_right _
  rw [List.mem_filter, List.mem_filter]
  refine and_congr_left fun hn => ?_
  have hn' : F.Stores n := by simpa using hn
  exact ⟨mem_visits_perm hE hA hF hroots hk hperm hn', mem_visits_perm hE hA hF hroots' hk' hperm.symm hn'⟩

end

end Pass

end LinkRepair
