import Mathlib.Data.List.Flatten
import Mathlib.Data.List.Pairwise
import LinkRepair.Forest.WellFormed
import LinkRepair.Proofs.Forest.Reach
import LinkRepair.Proofs.Walk.Visits

/-!
# Well-formed forests are forests

`Forest.defects` is the outcome of a walk.  When it is empty, the walk met every node below the files
once, and what it met is laid out as trees:

* `Forest.Planted`          every reached node has one place;
* `Forest.Rooted`           besides, every declaration names what it is placed in as its parent;
* `Planted.count_le_one`    what goes down the trees comes to every node once at most;
* `inspection_run`          up to the first defect, an inspection has seen just what it visited;
* `defects_eq_nil_iff`      the forests without defects are the rooted ones.
-/

namespace LinkRepair

namespace Forest

/-- every file as a root -/
def fileRoots (F : Forest) : List Root := F.fileIds.map Root.file

/-- the roots as nodes -/
def topNodes (F : Forest) (roots : List Root) : List Node := (F.tops roots).map .declaration

/-- below one of the files -/
def Reached (F : Forest) (n : Node) : Prop := F.Reaches F.fileRoots n

structure Planted (F : Forest) : Prop where
  tops_nodup : (F.tops F.fileRoots).Nodup
  children_nodup : ∀ n, F.Reached n → (F.children n).Nodup
  not_below : ∀ d a, d ∈ F.tops F.fileRoots → F.Reached a → ¬ F.Child a (.declaration d)
  container : ∀ a b n, F.Reached a → F.Reached b → F.Child a n → F.Child b n → a = b
  owner : ∀ d, F.Reached (.declaration d) → F.symbolOwner? d = some d

/-- a node of the trees, with the place that it has there -/
inductive Placed (F : Forest) : Placement → Prop
  | top {p : Placement} (h : p ∈ F.topPlacements) : F.Placed p
  | inside {p q : Placement} (hq : F.Placed q) (h : p ∈ F.placementsBelow q) : F.Placed p

structure Rooted (F : Forest) : Prop extends F.Planted where
  link : ∀ p d, F.Placed p → p.node = .declaration d → F.parentLink? d = some p.container

section
variable {F : Forest}

theorem Reached.child {a n : Node} (ha : F.Reached a) (h : F.Child a n) : F.Reached n := by
  obtain ⟨d, hd, hreach⟩ := ha
  exact ⟨d, hd, hreach.tail h⟩

theorem Reached.below {d : DeclarationId} (hd : F.Reached (.declaration d)) {x : Declaration}
    (hx : F.declaration? d = some x) {n : Node} (hn : n ∈ x.content.children) : F.Reached n :=
  hd.child (by rwa [Child, children_declaration hx])

theorem reached_of_reaches {roots : List Root} (hsub : roots ⊆ F.fileRoots) {n : Node}
    (h : F.Reaches roots n) : F.Reached n := by
  obtain ⟨d, hd, hreach⟩ := h
  exact ⟨d, tops_subset hsub hd, hreach⟩

/-! ## places -/

theorem map_node_placementsBelow (p : Placement) :
    (F.placementsBelow p).map Placement.node = F.children p.node := by
  unfold placementsBelow
  split <;> (rename_i h; rw [h, List.map_map]; exact List.map_id _)

theorem map_node_topPlacements : F.topPlacements.map Placement.node = F.topNodes F.fileRoots := by
  simp only [topPlacements, topNodes, tops, fileRoots, List.flatMap_map, List.map_flatMap,
    List.map_map]
  rfl

theorem mem_placementsBelow {p q : Placement} : q ∈ F.placementsBelow p
    ↔ F.Child p.node q.node ∧ ((∃ d, p.node = .declaration d ∧ q.container = .declaration d)
      ∨ ∃ e, p.node = .expression e ∧ q.container = p.container) := by
  obtain ⟨n, c⟩ := q
  unfold placementsBelow Child
  cases hp : p.node <;> simp [eq_comm]

theorem mem_topPlacements {p : Placement} : p ∈ F.topPlacements
    ↔ ∃ f ∈ F.fileIds, ∃ d ∈ F.rootDeclarations (.file f), p = ⟨.declaration d, .file f⟩ := by
  simp [topPlacements, eq_comm]

theorem Placed.reached {p : Placement} (h : F.Placed p) : F.Reached p.node := by
  induction h with
  | top h =>
    obtain ⟨f, hf, d, hd, rfl⟩ := mem_topPlacements.mp h
    exact ⟨d, List.mem_flatMap.mpr ⟨.file f, List.mem_map_of_mem hf, hd⟩, .refl⟩
  | inside _ h ih => exact ih.child (mem_placementsBelow.mp h).1

theorem placed_of_reached {n : Node} (h : F.Reached n) : ∃ c, F.Placed ⟨n, c⟩ := by
  obtain ⟨d, hd, hreach⟩ := h
  induction hreach with
  | refl =>
    obtain ⟨root, hroot, hd⟩ := List.mem_flatMap.mp hd
    obtain ⟨f, hf, rfl⟩ := List.mem_map.mp hroot
    exact ⟨_, .top (mem_topPlacements.mpr ⟨f, hf, d, hd, rfl⟩)⟩
  | @tail a n _ hchild ih =>
    obtain ⟨c, hc⟩ := ih
    cases a with
    | declaration b => exact ⟨_, .inside hc (mem_placementsBelow.mpr ⟨hchild, .inl ⟨b, rfl, rfl⟩⟩)⟩
    | expression e => exact ⟨_, .inside hc (mem_placementsBelow.mpr ⟨hchild, .inr ⟨e, rfl, rfl⟩⟩)⟩

/-! ## once at most -/

/-- what is below one node only is met as often as that node, if it is listed there once -/
theorem count_flatMap_le {α : Type} {g : α → Node} {f : α → List Node} {a n : Node} :
    ∀ {l : List α}, (∀ v ∈ l, (f v).count n ≤ if g v = a then 1 else 0) →
      (l.flatMap f).count n ≤ (l.map g).count a := by
  intro l
  induction l with
  | nil => exact fun _ => Nat.le_refl _
  | cons v l ih =>
    intro h
    have hv := h v List.mem_cons_self
    have hl := ih fun u hu => h u (List.mem_cons_of_mem _ hu)
    rw [List.flatMap_cons, List.map_cons, List.count_append, List.count_cons]
    by_cases e : g v = a
    · rw [if_pos e] at hv
      simp only [e, beq_self_eq_true, if_true]
      omega
    · rw [if_neg e] at hv
      simp only [beq_iff_eq, e, if_false]
      omega

/-- **What goes down the trees comes to every node once at most**: the visits `vs` are at the roots,
or at nodes that earlier visits led to, and these are below the nodes of those visits.  `P` is what is
known of the nodes that matter. -/
theorem Planted.count_le_one (hF : F.Planted) {α : Type} {vs : List α} {g : α → Node}
    {f : α → List Node} {roots : List Root} {P : Node → Prop} (hroots : roots.Subperm F.fileRoots)
    (hP : ∀ a n, F.Child a n → P a)
    (hcount : ∀ n, (vs.map g).count n ≤ (F.topNodes roots).count n + (vs.flatMap f).count n)
    (hf : ∀ v ∈ vs, ∀ n, P n → (f v).count n ≤ (F.children (g v)).count n)
    (hknown : ∀ v ∈ vs, P (g v) → F.Reaches roots (g v)) {n : Node} (hn : P n) :
    (vs.map g).count n ≤ 1 := by
  have hreached : ∀ {n}, F.Reaches roots n → F.Reached n := reached_of_reaches hroots.subset
  have htops : F.tops roots ⊆ F.tops F.fileRoots := tops_subset hroots.subset
  have habove : ∀ v ∈ vs, ∀ n, F.Child (g v) n → F.Reached (g v) := fun v hv n h =>
    hreached (hknown v hv (hP _ n h))
  by_cases hreach : F.Reaches roots n
  · obtain ⟨d, hd, hreach⟩ := hreach
    induction hreach with
    | refl =>
      have hzero : (vs.flatMap f).count (.declaration d) = 0 := by
        apply List.count_eq_zero.mpr
        intro hmem
        obtain ⟨u, hu, hdu⟩ := List.mem_flatMap.mp hmem
        have hpos := Nat.lt_of_lt_of_le (List.count_pos_iff.mpr hdu) (hf u hu _ hn)
        have hchild : F.Child (g u) (.declaration d) := List.count_pos_iff.mp hpos
        exact hF.not_below d (g u) (htops hd) (habove u hu _ hchild) hchild
      have hone : (F.topNodes roots).count (.declaration d) ≤ 1 := by
        refine List.nodup_iff_count_le_one.mp (List.Nodup.map (fun _ _ => Node.declaration.inj) ?_) _
        obtain ⟨roots', hperm, hsub⟩ := hroots
        exact (hperm.flatMap_right _).nodup_iff.mp (hF.tops_nodup.sublist (hsub.flatMap _))
      have := hcount (.declaration d)
      omega
    | @tail a n hda hchild ih =>
      have ha : F.Reached a := hreached ⟨d, hd, hda⟩
      have hzero : (F.topNodes roots).count n = 0 := by
        apply List.count_eq_zero.mpr
        intro hmem
        obtain ⟨b, hb, rfl⟩ := List.mem_map.mp hmem
        exact hF.not_below b a (htops hb) ha hchild
      have hone : (vs.flatMap f).count n ≤ (vs.map g).count a := by
        apply count_flatMap_le
        intro u hu
        have hle := hf u hu n hn
        split
        · rename_i e
          rw [e] at hle
          exact Nat.le_trans hle (List.nodup_iff_count_le_one.mp (hF.children_nodup a ha) n)
        · rename_i e
          refine Nat.le_trans hle (Nat.le_of_eq (List.count_eq_zero.mpr fun hmem => e ?_))
          exact hF.container (g u) a n (habove u hu n hmem) ha hmem hchild
      have := hcount n
      have := ih (hP a n hchild)
      omega
  · rw [List.count_eq_zero.mpr fun hmem => ?_]
    · exact Nat.zero_le _
    · obtain ⟨v, hv, rfl⟩ := List.mem_map.mp hmem
      exact hreach (hknown v hv hn)

/-! ## the inspection -/

/-- the nodes of some visits -/
def nodesOf (vs : List (Inspection × Placement)) : List Node := vs.map fun v => v.2.node

theorem inspect_defects (s : Inspection) (p : Placement) :
    s.defects.IsPrefix (F.inspect s p).1.defects := by
  unfold inspect
  split <;> exact List.prefix_append _ _

/-- an inspection goes on with what is below, or stops -/
theorem inspect_snd (s : Inspection) (p : Placement) :
    (F.inspect s p).2 = [] ∨ (F.inspect s p).2 = F.placementsBelow p := by
  unfold inspect
  split
  · exact .inl rfl
  · exact .inr rfl

theorem inspect_of_defects_nil {s : Inspection} {p : Placement}
    (h : (F.inspect s p).1.defects = []) :
    p.node ∉ s.seen ∧ (F.inspect s p).1.seen = p.node :: s.seen
      ∧ (F.inspect s p).2 = F.placementsBelow p
      ∧ ∀ d, p.node = .declaration d → F.placementDefects d p.container = [] := by
  unfold inspect at h ⊢
  split
  · rename_i hseen
    rw [if_pos hseen] at h
    exact absurd h (by simp)
  · rename_i hseen
    rw [if_neg hseen] at h
    refine ⟨hseen, rfl, rfl, fun d hd => ?_⟩
    rw [hd] at h
    exact (List.append_eq_nil_iff.mp h).2

/-- **Up to the first defect, an inspection has seen just what it visited**, each node once. -/
theorem inspection_run {tops : List Placement} {vs : List (Inspection × Placement)}
    {t : Inspection} (h : Run F.inspect tops ⟨[], []⟩ vs t) (ht : t.defects = []) :
    t.seen = (nodesOf vs).reverse ∧ (nodesOf vs).Nodup
      ∧ ∀ v ∈ vs, pushed F.inspect v = F.placementsBelow v.2
        ∧ ∀ d, v.2.node = .declaration d → F.placementDefects d v.2.container = [] := by
  induction h with
  | start => exact ⟨rfl, List.nodup_nil, fun v hv => absurd hv List.not_mem_nil⟩
  | @visit vs t p _ _ ih =>
    have hnil : t.defects = [] := List.prefix_nil.mp (ht ▸ F.inspect_defects t p)
    obtain ⟨hseen, hnodup, hvs⟩ := ih hnil
    obtain ⟨hfresh, hseen', hpushed, howner⟩ := inspect_of_defects_nil ht
    have happend : nodesOf (vs ++ [(t, p)]) = nodesOf vs ++ [p.node] := List.map_append
    rw [happend]
    refine ⟨by rw [hseen', hseen, List.reverse_append]; rfl, ?_, fun v hv => ?_⟩
    · refine List.nodup_append.mpr ⟨hnodup, List.nodup_singleton _, fun a ha b hb => ?_⟩
      rw [List.mem_singleton.mp hb]
      rintro rfl
      rw [hseen, List.mem_reverse] at hfresh
      exact hfresh ha
    · rcases List.mem_append.mp hv with hv | hv
      · exact hvs v hv
      · rw [List.mem_singleton.mp hv]
        exact ⟨hpushed, howner⟩

variable (F) in
theorem run_inspection : Run F.inspect F.topPlacements ⟨[], []⟩
    (visitsAll F.inspect (F.nodeCount + 1) ⟨[], []⟩ F.topPlacements) F.inspection :=
  run_walkAll (F.nodeCount + 1) F.topPlacements .start (List.Subset.refl _)

/-- the places that were met, each node once: those at top level, and those below a place that was
met -/
theorem exists_layout (h : F.defects = []) : ∃ l : List Placement, (l.map Placement.node).Nodup
    ∧ l.Perm (F.topPlacements ++ l.flatMap F.placementsBelow)
    ∧ ∀ p ∈ l, ∀ d, p.node = .declaration d → F.placementDefects d p.container = [] := by
  have hrun := F.run_inspection
  generalize hvs : visitsAll F.inspect (F.nodeCount + 1) ⟨[], []⟩ F.topPlacements = vs at hrun
  obtain ⟨_, hnodup, hv⟩ := inspection_run hrun h
  have hperm := @visitsAll_perm _ _ F.inspect (F.nodeCount + 1) ⟨[], []⟩ F.topPlacements
  -- a walk that is cut has met more nodes on its way than there are
  have hcut : cutAll F.inspect (F.nodeCount + 1) ⟨[], []⟩ F.topPlacements = [] := by
    apply List.eq_nil_iff_forall_not_mem.mpr
    intro m hm
    obtain ⟨l, hl, hlen⟩ := exists_descent_of_mem_cutAll hm
    rw [hvs] at hl
    have hstored : nodesOf l ⊆ F.stored := by
      intro n hn
      obtain ⟨v, hvl, rfl⟩ := List.mem_map.mp hn
      have hbelow := hl.goes v hvl
      rw [(hv v (hl.sublist.subset hvl)).1] at hbelow
      obtain ⟨b, hb⟩ := List.exists_mem_of_ne_nil _ hbelow
      exact mem_stored.mpr (mem_placementsBelow.mp hb).1.stores
    have hle := length_le_of_nodup (hnodup.sublist (hl.sublist.map _)) hstored
    rw [length_stored, List.length_map, hlen] at hle
    omega
  rw [hvs, hcut, List.append_nil] at hperm
  have hpushed : vs.flatMap (pushed F.inspect) = (vs.map Prod.snd).flatMap F.placementsBelow := by
    rw [List.flatMap_map]
    exact List.flatMap_congr fun v hvm => (hv v hvm).1
  refine ⟨vs.map Prod.snd, by rw [List.map_map]; exact hnodup, hpushed ▸ hperm, fun p hp => ?_⟩
  obtain ⟨v, hvm, rfl⟩ := List.mem_map.mp hp
  exact (hv v hvm).2

theorem rooted_of_defects_nil (h : F.defects = []) : F.Rooted := by
  obtain ⟨l, hnodup, hperm, hright⟩ := exists_layout h
  have hplaced : ∀ p, F.Placed p → p ∈ l := by
    intro p hp
    induction hp with
    | top h => exact hperm.mem_iff.mpr (List.mem_append_left _ h)
    | inside _ h ih =>
      exact hperm.mem_iff.mpr (List.mem_append_right _ (List.mem_flatMap.mpr ⟨_, ih, h⟩))
  have hmem : ∀ n, F.Reached n → n ∈ l.map Placement.node := fun n hn => by
    obtain ⟨c, hc⟩ := placed_of_reached hn
    exact List.mem_map_of_mem (hplaced _ hc)
  have hmap := hperm.map Placement.node
  rw [List.map_append, map_node_topPlacements, List.map_flatMap] at hmap
  simp only [map_node_placementsBelow] at hmap
  rw [← List.flatMap_map] at hmap
  obtain ⟨htops, hbelow, hdisjoint⟩ := List.nodup_append.mp (hmap.nodup_iff.mp hnodup)
  obtain ⟨hchildren, hpair⟩ := List.nodup_flatMap.mp hbelow
  have hlink : ∀ p d, F.Placed p → p.node = .declaration d →
      F.parentLink? d = some p.container ∧ F.symbolOwner? d = some d := fun p d hp hd =>
    placementDefects_eq_nil.mp (hright p (hplaced p hp) d hd)
  refine ⟨⟨htops.of_map _, fun n hn => hchildren n (hmem n hn), fun d a hd ha hchild => ?_,
    fun a b n ha hb hna hnb => ?_, fun d hd => ?_⟩, fun p d hp hd => (hlink p d hp hd).1⟩
  · exact hdisjoint _ (List.mem_map_of_mem hd) _ (List.mem_flatMap.mpr ⟨a, hmem a ha, hchild⟩) rfl
  · by_contra hne
    have hsymm : Std.Symm (Function.onFun List.Disjoint F.children) := ⟨fun _ _ h _ ha hb => h hb ha⟩
    exact hpair.forall (hmem a ha) (hmem b hb) hne hna hnb
  · obtain ⟨c, hc⟩ := placed_of_reached hd
    exact (hlink _ d hc rfl).2

/-- an inspection of right places, each node once, finds no defect -/
theorem defects_of_run {tops : List Placement} {vs : List (Inspection × Placement)} {t : Inspection}
    (h : Run F.inspect tops ⟨[], []⟩ vs t) (hnodup : (nodesOf vs).Nodup)
    (hright : ∀ v ∈ vs, ∀ d, v.2.node = .declaration d → F.placementDefects d v.2.container = []) :
    t.seen = (nodesOf vs).reverse ∧ t.defects = [] := by
  induction h with
  | start => exact ⟨rfl, rfl⟩
  | @visit vs t p _ _ ih =>
    have happend : nodesOf (vs ++ [(t, p)]) = nodesOf vs ++ [p.node] := List.map_append
    rw [happend] at hnodup ⊢
    obtain ⟨hnodup', _, hdisjoint⟩ := List.nodup_append.mp hnodup
    obtain ⟨hseen, hnil⟩ := ih hnodup' fun v hv => hright v (List.mem_append_left _ hv)
    have hfresh : p.node ∉ t.seen := by
      rw [hseen, List.mem_reverse]
      exact fun hmem => hdisjoint _ hmem _ List.mem_cons_self rfl
    have hp := hright (t, p) (List.mem_append_right _ List.mem_cons_self)
    unfold inspect
    rw [if_neg hfresh]
    refine ⟨by simp [hseen], ?_⟩
    cases hn : p.node with
    | declaration d => simp [hnil, hp d hn]
    | expression e => simp [hnil]

theorem Rooted.defects_eq_nil (h : F.Rooted) : F.defects = [] := by
  have hrun := F.run_inspection
  have hperm := @visitsAll_perm _ _ F.inspect (F.nodeCount + 1) ⟨[], []⟩ F.topPlacements
  generalize visitsAll F.inspect (F.nodeCount + 1) ⟨[], []⟩ F.topPlacements = vs at hrun hperm
  obtain ⟨_, _, hplaced⟩ := hrun.invariant (P := fun _ => True) (N := fun _ => F.Placed)
    (fun s p _ hp => ⟨trivial, fun q hq => by
      rcases F.inspect_snd s p with e | e
      · rw [e] at hq
        exact absurd hq List.not_mem_nil
      · exact .inside hp (e ▸ hq)⟩)
    (fun _ _ _ _ _ hm => hm) trivial fun p hp => .top hp
  refine (defects_of_run hrun (List.nodup_iff_count_le_one.mpr fun n => ?_) fun v hv d hd => ?_).2
  · refine h.count_le_one (P := fun _ => True) (g := fun v => v.2.node)
      (f := fun v => (pushed F.inspect v).map Placement.node) (List.Subperm.refl _)
      (fun _ _ _ => trivial) (fun n => ?_) (fun v hv n _ => ?_)
      (fun v hv _ => ?_) trivial
    · have hmap := List.perm_iff_count.mp (hperm.map Placement.node) n
      rw [List.map_append, List.map_append, List.map_map, map_node_topPlacements, List.map_flatMap,
        List.count_append, List.count_append] at hmap
      exact hmap ▸ Nat.le_add_right _ _
    · rw [← map_node_placementsBelow]
      show ((F.inspect v.1 v.2).2.map Placement.node).count n ≤ _
      rcases F.inspect_snd v.1 v.2 with e | e
      · rw [e]
        exact Nat.zero_le _
      · exact Nat.le_of_eq (by rw [e])
    · exact (hplaced v hv).2.reached
  · have hp := (hplaced v hv).2
    refine placementDefects_eq_nil.mpr ⟨h.link _ d hp hd, h.owner d ?_⟩
    rw [← hd]
    exact hp.reached

/-- **The forests without defects are the rooted ones.** -/
theorem defects_eq_nil_iff : F.defects = [] ↔ F.Rooted :=
  ⟨rooted_of_defects_nil, Rooted.defects_eq_nil⟩

theorem planted_of_defects_nil (h : F.defects = []) : F.Planted := (rooted_of_defects_nil h).toPlanted

end

end Forest

end LinkRepair
