import LinkRepair.Proofs.Repair.Coverage
import LinkRepair.Proofs.Repair.WellFormed
import LinkRepair.Proofs.Walk.Unbounded

/-!
# How deep the sweeps go

Both sweeps go down trees that they change on the way.  A descent leads through nodes that were there
when the sweep set out, each once at most, and then through what the first sweep has added: a member or
an initializer, the call in its body, and the argument of the call.

* `Forest.Tipped B G`          what hangs below an expression that is new in `G` has nothing below it;
* `Pass.Stage`                 a stage of the first sweep, with all that was added so far in its place;
* `stage_visit`                every visit of the first sweep is at a known node, in such a stage;
* `cutAll_enterDeclaration`    the first sweep is cut nowhere;
* `cutAll_enterExpression`     nor is the second one.
-/

namespace LinkRepair

namespace Forest

/-- what hangs below a new expression has nothing below it -/
def Tipped (B G : Forest) : Prop :=
  ∀ e, B.expression? e = none → ∀ n ∈ G.children (.expression e), G.children n = []

theorem tipped_refl (F : Forest) : F.Tipped F := by
  intro e he n hn
  simp [children, he] at hn

end Forest

namespace Pass

section
variable {cx : Context} {c : Scope} {I : Intrinsics} {F : Forest} {roots : List Root} {p q r : Pass}

/-! ## what is added -/

theorem Frames.children_expression {T K : DeclarationId → Prop} (h : Frames I T K p q)
    {e : ExpressionId} (he : p.forest.Stores (.expression e)) :
    q.forest.children (.expression e) = p.forest.children (.expression e) := by
  obtain ⟨x, hx⟩ := Option.isSome_iff_exists.mp he
  rw [Forest.children_expression hx, Forest.children_expression (h.expression? e x hx)]

/-- below a new expression are new expressions -/
theorem Grafted.child_of_new {S : Prop} (h : p.Grafted I S F) {e : ExpressionId}
    (he : F.expression? e = none) {n : Node} (hn : p.forest.Child (.expression e) n) :
    F.AddedExpression n := by
  rcases h.child_expression hn with hchild | hadded
  · have := hchild.stores
    rw [show F.Stores (.expression e) = (F.expression? e).isSome from rfl, he] at this
    cases this
  · exact hadded

theorem Step.tipped {S : Prop} (h : Step cx c p q) (hg : p.Grafted I S F)
    (hC : p.forest.ChildrenKnown) (ht : F.Tipped p.forest) : F.Tipped q.forest := by
  rcases h.expressions with heq | ⟨problem, d, rfl⟩
  · have hsame : ∀ e, q.forest.children (.expression e) = p.forest.children (.expression e) := by
      intro e
      unfold Forest.children Forest.expression?
      rw [heq]
    intro e he n hn
    rw [hsame] at hn
    obtain ⟨e', rfl, _⟩ := hg.child_of_new he hn
    rw [hsame]
    exact ht e he _ hn
  · obtain ⟨H, hforest, _, hcall⟩ := exists_called cx p problem d
    have hlook : ∀ e, (p.raiseIn cx problem d).forest.children (.expression e)
        = if e = ⟨p.forest.expressions.size + 1⟩ then [.expression ⟨p.forest.expressions.size⟩]
          else p.forest.children (.expression e) := by
      intro e
      rw [hforest, Forest.children_updateDeclaration_of_ne (by simp), hcall]
      simp only [Node.expression.injEq]
    have hnew : ∀ i, p.forest.expressions.size ≤ i → ¬ p.forest.Stores (.expression ⟨i⟩) := fun i hi =>
      Forest.not_stores_expression hi
    intro e he n hn
    rw [hlook] at hn
    split at hn
    · -- the argument of the new call
      obtain rfl := List.mem_singleton.mp hn
      rw [hlook, if_neg (by simp)]
      exact List.eq_nil_iff_forall_not_mem.mpr fun m hm =>
        hnew _ (Nat.le_refl _) (Forest.Child.stores (F := p.forest) hm)
    · obtain ⟨e', rfl, _⟩ := hg.child_of_new he hn
      have hstored := hC _ _ hn
      rw [hlook, if_neg]
      · exact ht e he _ hn
      · rintro rfl
        exact hnew _ (Nat.le_succ _) hstored

/-! ## stages -/

/-- a stage of the repair of `F` in which all that was added has its place -/
structure Stage (I : Intrinsics) (F : Forest) (p : Pass) : Prop where
  grafted : p.Grafted I True F
  branches : F.Branches p.forest
  tipped : F.Tipped p.forest

theorem Stage.chain (h : p.Stage cx.intrinsics F) (hF : F.Bequests True roots)
    (hheirs : ∀ r, c.heirs r → F.Known roots (.declaration r)) (hc : Chain cx c p q) :
    q.Stage cx.intrinsics F := by
  induction hc with
  | refl => exact h
  | tail _ hs ih =>
    have hC := ih.branches.childrenKnown
    exact ⟨ih.grafted.step hF hheirs hs,
      ih.branches.trans (ih.grafted.branches hF hheirs (.single hs) hC), hs.tipped ih.grafted hC ih.tipped⟩

theorem Stage.enterDeclaration (h : p.Stage cx.intrinsics F) (hF : F.Bequests True roots) {n : Node}
    (hn : F.Known roots n) : (enterDeclaration cx p n).1.Stage cx.intrinsics F := by
  refine h.chain hF (fun r hr => ?_) (chain_enterDeclaration n)
  rw [← show n = .declaration r from hr]
  exact hn

variable (cx) in
/-- **Every visit of the first sweep is at a known node, in a stage of the repair.** -/
theorem stage_visit (hF : F.Bequests True roots) (hC : F.ChildrenKnown) :
    (repairDeclarations cx roots (.start F)).Stage cx.intrinsics F
      ∧ ∀ v ∈ declarationVisits cx roots (.start F), v.1.Stage cx.intrinsics F ∧ F.Known roots v.2 := by
  obtain ⟨hend, _, hvs⟩ := (run_sweep cx F roots).invariant
    (P := fun p => p.Stage cx.intrinsics F) (N := fun _ => F.Known roots)
    (fun p n hp hn => by
      have h := hp.enterDeclaration hF hn
      exact ⟨h, fun m hm => h.grafted.known_child hn (mem_pushed_enterDeclaration (v := (p, n)) hm)⟩)
    (fun _ _ _ _ _ hm => hm) ⟨grafted_start F, hC.branches_refl, Forest.tipped_refl F⟩
    fun n => Forest.known_of_mem_topNodes
  exact ⟨hend, hvs⟩

/-- **Below a new node the sweep comes to an end two levels on**, whatever it does on the way. -/
theorem Stage.children_eq_nil (hp : p.Stage I F) (hq : q.Stage I F) {T K T' K' : DeclarationId → Prop}
    (hpq : Frames I T K p q) (hqr : Frames I T' K' q r) {u v w : Node} (hu : ¬ F.Stores u)
    (hv : p.forest.Child u v) (hw : q.forest.Child v w) : r.forest.children w = [] := by
  have hlast : ∀ e, F.expression? e = none → q.forest.Child (.expression e) w →
      r.forest.children w = [] := by
    intro e he hw
    obtain ⟨e', rfl, _⟩ := hq.grafted.child_of_new he hw
    rw [hqr.children_expression (hq.branches.childrenKnown _ _ hw)]
    exact hq.tipped e he _ hw
  cases u with
  | expression e =>
    have he : F.expression? e = none := by simpa [Forest.Stores] using hu
    obtain ⟨e', rfl, _⟩ := hp.grafted.child_of_new he hv
    have hnil := hp.tipped e he _ hv
    rw [← hpq.children_expression (hp.branches.childrenKnown _ _ hv)] at hnil
    rw [Forest.Child, hnil] at hw
    exact absurd hw List.not_mem_nil
  | declaration d =>
    have hd : F.declaration? d = none := by simpa [Forest.Stores] using hu
    obtain ⟨y, hy⟩ := Option.isSome_iff_exists.mp hv.stores
    rw [Forest.Child, Forest.children_declaration hy] at hv
    have hform := hp.grafted.sprouts d y hd hy
    rcases hform.children hv with ⟨e, rfl, he⟩ | ⟨b, hb, rfl, hfits, _⟩
    · exact hlast e he hw
    · -- a parameter of an added function has nothing below it
      obtain ⟨z, hz⟩ := Option.isSome_iff_exists.mp hw.stores
      have hkind := (hfits.of_mem_slots hb).imp (hpq.keeps.parameter b) (hpq.keeps.typeParameter b)
      rw [Forest.Child, Forest.children_declaration hz,
        (hq.grafted.sprouts b z (hform.slots_none b hb) hz).children_eq_nil hz hkind] at hw
      exact absurd hw List.not_mem_nil

/-! ## the first sweep -/

/-- the sweep below some roots, if it meets each node that was there once at most -/
theorem cutAll_enterDeclaration (hF : F.Bequests True roots) {depth : Nat} {ns : List Node}
    (hvs : ∀ v ∈ visitsAll (Pass.enterDeclaration cx) depth p ns,
      v.1.Stage cx.intrinsics F ∧ F.Known roots v.2)
    (honce : ∀ n, F.Stores n →
      ((visitsAll (Pass.enterDeclaration cx) depth p ns).map Prod.snd).count n ≤ 1)
    (hdepth : F.nodeCount + 2 < depth) : cutAll (Pass.enterDeclaration cx) depth p ns = [] := by
  refine cutAll_of_once F.stored (fun n hn => Forest.mem_stored.mpr hn) honce
    (fun u v w hsub hu hv hw => ?_) (by rwa [Forest.length_stored])
  have hrun : Run (Pass.enterDeclaration cx) ns p _ _ := run_walkAll depth ns .start (List.Subset.refl _)
  have hpair := (hrun.pairwise (R := Chain cx Scope.everything) (fun _ => .refl) (fun h h' => h.trans h')
    fun v _ => chain_visit cx v.1 v.2).sublist hsub
  obtain ⟨huv, hvw⟩ := List.pairwise_cons.mp hpair
  have huv := huv v (by simp)
  have hvw := (List.pairwise_cons.mp hvw).1 w (by simp)
  have hafter : ∀ x ∈ [u, v, w], (Pass.enterDeclaration cx x.1 x.2).1.Stage cx.intrinsics F := fun x hx =>
    (hvs x (hsub.subset hx)).1.enterDeclaration hF (hvs x (hsub.subset hx)).2
  rcases enterDeclaration_snd cx w.1 w.2 with e | e
  · exact e
  · exact e.trans (Stage.children_eq_nil (hafter u (by simp)) (hafter v (by simp))
      (Chain.frames (huv.trans (chain_visit cx v.1 v.2)))
      (Chain.frames (hvw.trans (chain_visit cx w.1 w.2))) hu
      (mem_pushed_enterDeclaration hv) (mem_pushed_enterDeclaration hw))

/-! ## the second sweep -/

variable {file : Option FileId}

variable (cx) in
/-- a visit leads on to the nodes below, as they were, or stops there -/
theorem enterExpression_snd (file : Option FileId) (p : Pass) (n : Node) :
    (Pass.enterExpression cx file p n).2 = []
      ∨ (Pass.enterExpression cx file p n).2 = p.forest.children n := by
  unfold Pass.enterExpression
  split
  · exact .inr rfl
  · dsimp only
    split
    · exact .inr rfl
    · exact .inl rfl

theorem mem_pushed_enterExpression {v : Pass × Node} {n : Node}
    (h : n ∈ pushed (Pass.enterExpression cx file) v) : v.1.forest.Child v.2 n := by
  unfold pushed at h
  rcases enterExpression_snd cx file v.1 v.2 with e | e
  · rw [e] at h
    exact absurd h List.not_mem_nil
  · rwa [e] at h

/-- it changes nothing below other nodes -/
theorem children_enterExpression {n m : Node} (h : m ≠ n) :
    (Pass.enterExpression cx file p n).1.forest.children m = p.forest.children m := by
  unfold Pass.enterExpression
  split
  · rfl
  · dsimp only
    split
    · rfl
    · rename_i problem _
      exact children_replaceExpression (p := { p with memo := _ }) file problem h

/-- **A sweep that meets each node once at most goes down the trees as they were**: it never comes to an
argument that it has put there. -/
theorem stores_of_run {tops : List Node} {vs : List (Pass × Node)} (hC : p.forest.ChildrenKnown)
    (htops : ∀ n ∈ tops, p.forest.Stores n) (h : Run (Pass.enterExpression cx file) tops p vs q)
    (honce : ∀ n, p.forest.Stores n → (vs.map Prod.snd).count n ≤ 1) :
    (∀ v ∈ vs, p.forest.Stores v.2 ∧ pushed (Pass.enterExpression cx file) v ⊆ p.forest.children v.2)
      ∧ ∀ n, n ∉ vs.map Prod.snd → q.forest.children n = p.forest.children n := by
  induction h with
  | start => exact ⟨fun v hv => absurd hv List.not_mem_nil, fun _ _ => rfl⟩
  | @visit vs q n _ hn ih =>
    obtain ⟨hvs, hsame⟩ := ih fun m hm => by
      have := honce m hm
      rw [List.map_append, List.count_append] at this
      omega
    have hstored : p.forest.Stores n := by
      rcases hn with hn | ⟨v, hv, hn⟩
      · exact htops n hn
      · exact hC _ _ ((hvs v hv).2 hn)
    have hnew : n ∉ vs.map Prod.snd := fun hmem => by
      have := honce n hstored
      have := List.count_pos_iff.mpr hmem
      simp only [List.map_append, List.map_cons, List.map_nil, List.count_append, List.count_cons,
        List.count_nil, beq_self_eq_true, if_true] at *
      omega
    refine ⟨fun v hv => ?_, fun m hm => ?_⟩
    · rcases List.mem_append.mp hv with hv | hv
      · exact hvs v hv
      · obtain rfl := List.mem_singleton.mp hv
        refine ⟨hstored, fun m hm => ?_⟩
        rw [← hsame n hnew]
        exact mem_pushed_enterExpression hm
    · rw [List.map_append, List.mem_append, not_or] at hm
      rw [children_enterExpression fun e => hm.2 (List.mem_singleton.mpr e), hsame m hm.1]

section
variable (hF : p.forest.Rooted) (hC : p.forest.ChildrenKnown) {f : FileId}
  (hf : Root.file f ∈ p.forest.fileRoots)
include hF hC hf

variable (cx file) in
theorem count_enterExpression_le_one (depth : Nat) {n : Node} (hn : p.forest.Stores n) :
    ((visitsAll (Pass.enterExpression cx file) depth p (p.forest.topNodes [.file f])).map
      Prod.snd).count n ≤ 1 := by
  have hrun : Run (Pass.enterExpression cx file) (p.forest.topNodes [.file f]) p
      (visitsAll (Pass.enterExpression cx file) depth p (p.forest.topNodes [.file f])) _ :=
    run_walkAll depth _ .start (List.Subset.refl _)
  obtain ⟨_, _, hvs⟩ := hrun.invariant (P := fun q => p.forest.Branches q.forest)
    (N := fun _ => p.forest.Known [.file f])
    (fun q n hq hn => ⟨hq.trans (branches_enterExpression file n hq.childrenKnown), fun m hm hs => by
      have hchild := hq.child hs (mem_pushed_enterExpression (v := (q, n)) hm)
      obtain ⟨d, hd, hreach⟩ := hn hchild.stores
      exact ⟨d, hd, hreach.tail hchild⟩⟩)
    (fun _ _ _ _ _ hm => hm) hC.branches_refl fun n => Forest.known_of_mem_topNodes
  refine hF.toPlanted.count_le_one (P := p.forest.Stores)
    (f := pushed (Pass.enterExpression cx file)) (List.singleton_subperm_iff.mpr hf)
    (fun _ _ h => h.stores) (fun n => ?_) (fun v hv n hn => ?_) (fun v hv hs => (hvs v hv).2 hs) hn
  · have := List.perm_iff_count.mp (@visitsAll_perm _ _ (Pass.enterExpression cx file) depth p
      (p.forest.topNodes [.file f])) n
    rw [List.count_append, List.count_append] at this
    omega
  · refine Nat.le_trans ?_ ((hvs v hv).1.count v.2 n hn)
    unfold pushed
    rcases enterExpression_snd cx file v.1 v.2 with e | e
    · rw [e]
      exact Nat.zero_le _
    · rw [e]

/-- **The second sweep is cut nowhere**, below any file of a well-formed forest. -/
theorem cutAll_enterExpression : cutAll (Pass.enterExpression cx file) (sweepDepth p.forest) p
    ((p.forest.rootDeclarations (.file f)).map .declaration) = [] := by
  have htops : p.forest.topNodes [.file f] = (p.forest.rootDeclarations (.file f)).map .declaration := by
    simp [Forest.topNodes, Forest.tops]
  rw [← htops]
  have honce : ∀ n, p.forest.Stores n → _ := fun n hn =>
    count_enterExpression_le_one cx file hF hC hf (sweepDepth p.forest) hn
  have hstored : ∀ v ∈ visitsAll (Pass.enterExpression cx file) (sweepDepth p.forest) p
      (p.forest.topNodes [.file f]), p.forest.Stores v.2 := by
    have hrun := stores_of_run hC (fun n hn => ?_)
      (run_walkAll (sweepDepth p.forest) _ .start (List.Subset.refl _)) honce
    · exact fun v hv => (hrun.1 v hv).1
    · obtain ⟨d, hd, rfl⟩ := List.mem_map.mp hn
      exact hF.stores_of_mem_tops (Forest.tops_subset (List.cons_subset.mpr ⟨hf, List.nil_subset _⟩) hd)
  refine cutAll_of_once p.forest.stored (fun n hn => Forest.mem_stored.mpr hn) honce
    (fun u v w hsub hu _ _ => absurd (hstored u (hsub.subset List.mem_cons_self)) hu) ?_
  have := nodeCount_add_four_le_sweepDepth p.forest
  rw [Forest.length_stored]
  omega

end

end

end Pass

end LinkRepair
