import LinkRepair.Proofs.Forest.Trees

/-!
# Forests with new branches

A repair hangs new nodes into the trees and cuts others off.  As long as each new node hangs in one
place, under the declaration that it calls its parent, the forest stays well-formed:

* `Forest.ChildrenKnown`    no child list names a node that is not there;
* `Forest.HangsOnce G n`    nothing but its parent lists `n`, and lists it once;
* `Forest.Retains F G`      what was there keeps its place, and what is new owns its symbol;
* `Forest.Branches F G`     besides, every new node hangs once, and old ones are listed no more often;
* `Rooted.branches`         a rooted forest with new branches is rooted.
-/

namespace LinkRepair

namespace Forest

/-- what is listed below a node is there -/
def ChildrenKnown (F : Forest) : Prop := ∀ a n, F.Child a n → F.Stores n

instance (F : Forest) : Decidable F.ChildrenKnown :=
  decidable_of_iff (∀ a ∈ F.stored, ∀ n ∈ F.children a, n ∈ F.stored) <| by
    constructor
    · exact fun h a n hn => mem_stored.mp (h a (mem_stored.mpr (Child.stores hn)) n hn)
    · exact fun h a _ n hn => mem_stored.mpr (h a n hn)

structure HangsOnce (G : Forest) (n : Node) : Prop where
  once : ∀ a, (G.children a).count n ≤ 1
  single : ∀ a b, G.Child a n → G.Child b n → a = b
  stores : ∀ a, G.Child a n → G.Stores n
  link : ∀ a d, n = .declaration d → G.Child a n →
    ∃ b, a = .declaration b ∧ G.parentLink? d = some (.declaration b)

structure Retains (F G : Forest) : Prop where
  files : G.files = F.files
  stores : ∀ n, F.Stores n → G.Stores n
  parentLink? : ∀ d, (F.declaration? d).isSome → G.parentLink? d = F.parentLink? d
  symbolOwner? : ∀ d, F.symbolOwner? d = some d → G.symbolOwner? d = some d
  fresh : ∀ d, F.declaration? d = none → (G.declaration? d).isSome → G.symbolOwner? d = some d

/-- `n` is new in `G`, and `a` is its parent if it is a declaration -/
structure NewBelow (F G : Forest) (a n : Node) : Prop where
  isNew : ¬ F.Stores n
  stores : G.Stores n
  link : ∀ d, n = .declaration d → ∃ b, a = .declaration b ∧ G.parentLink? d = some (.declaration b)

structure Branches (F G : Forest) : Prop extends F.Retains G where
  count : ∀ a n, F.Stores n → (G.children a).count n ≤ (F.children a).count n
  hangs : ∀ n, ¬ F.Stores n → G.HangsOnce n

section
variable {F G H : Forest}

theorem isSome_of_parentLink? {d : DeclarationId} {c : Parent} (h : F.parentLink? d = some c) :
    (F.declaration? d).isSome := by
  obtain ⟨x, hx, _⟩ := Option.bind_eq_some_iff.mp h
  exact Option.isSome_iff_exists.mpr ⟨x, hx⟩

theorem Retains.refl (F : Forest) : F.Retains F where
  files := rfl
  stores := fun _ h => h
  parentLink? := fun _ _ => rfl
  symbolOwner? := fun _ h => h
  fresh := by
    intro d h h'
    rw [h] at h'
    cases h'

theorem Retains.trans (h : F.Retains G) (h' : G.Retains H) : F.Retains H where
  files := h'.files.trans h.files
  stores := fun n hn => h'.stores n (h.stores n hn)
  parentLink? := fun d hd =>
    (h'.parentLink? d (h.stores (.declaration d) hd)).trans (h.parentLink? d hd)
  symbolOwner? := fun d hd => h'.symbolOwner? d (h.symbolOwner? d hd)
  fresh := fun d hF hH => by
    cases hG : G.declaration? d with
    | none => exact h'.fresh d hG hH
    | some x => exact h'.symbolOwner? d (h.fresh d hF (Option.isSome_iff_exists.mpr ⟨x, hG⟩))

theorem Branches.child (h : F.Branches G) {a n : Node} (hn : F.Stores n) (hc : G.Child a n) :
    F.Child a n :=
  List.count_pos_iff.mp (Nat.lt_of_lt_of_le (List.count_pos_iff.mpr hc) (h.count a n hn))

/-- what hangs once goes on doing so -/
theorem HangsOnce.branches {n : Node} (h : G.HangsOnce n) (hn : G.Stores n) (hb : G.Branches H) :
    H.HangsOnce n where
  once := fun a => Nat.le_trans (hb.count a n hn) (h.once a)
  single := fun a b ha hb' => h.single a b (hb.child hn ha) (hb.child hn hb')
  stores := fun _ _ => hb.stores n hn
  link := fun a d hd ha => by
    obtain ⟨b, hab, hlink⟩ := h.link a d hd (hb.child hn ha)
    exact ⟨b, hab, by rw [hb.parentLink? d (isSome_of_parentLink? hlink), hlink]⟩

theorem Branches.trans (h : F.Branches G) (h' : G.Branches H) : F.Branches H where
  toRetains := h.toRetains.trans h'.toRetains
  count := fun a n hn => Nat.le_trans (h'.count a n (h.stores n hn)) (h.count a n hn)
  hangs := fun n hn => by
    by_cases hG : G.Stores n
    · exact (h.hangs n hn).branches hG h'
    · exact h'.hangs n hG

theorem Branches.childrenKnown (h : F.Branches G) : G.ChildrenKnown := by
  intro a n hc
  by_cases hn : F.Stores n
  · exact h.stores n hn
  · exact (h.hangs n hn).stores a hc

/-- every node lists some of what it listed, and then what was added there -/
theorem ChildrenKnown.branches_of_added (hF : F.ChildrenKnown) (hr : F.Retains G)
    (added : Node → List Node)
    (hsplit : ∀ a, ∃ kept, kept.Sublist (F.children a) ∧ G.children a = kept ++ added a)
    (hnodup : ∀ a, (added a).Nodup) (hsingle : ∀ a b n, n ∈ added a → n ∈ added b → a = b)
    (hnew : ∀ a, ∀ n ∈ added a, F.NewBelow G a n) : F.Branches G where
  toRetains := hr
  count := fun a n hn => by
    obtain ⟨kept, hk, e⟩ := hsplit a
    have hzero : (added a).count n = 0 := List.count_eq_zero.mpr fun hmem => (hnew a n hmem).isNew hn
    rw [e, List.count_append, hzero]
    exact hk.count_le n
  hangs := fun n hn => by
    have hcount : ∀ a, (G.children a).count n = (added a).count n := by
      intro a
      obtain ⟨kept, hk, e⟩ := hsplit a
      have hzero : kept.count n = 0 :=
        List.count_eq_zero.mpr fun hmem => hn (hF a n (hk.subset hmem))
      rw [e, List.count_append, hzero, Nat.zero_add]
    have hmem : ∀ a, G.Child a n → n ∈ added a := fun a hc =>
      List.count_pos_iff.mp (hcount a ▸ List.count_pos_iff.mpr hc)
    exact
      { once := fun a => by
          rw [hcount]
          exact List.nodup_iff_count_le_one.mp (hnodup a) n
        single := fun a b ha hb => hsingle a b n (hmem a ha) (hmem b hb)
        stores := fun a ha => (hnew a n (hmem a ha)).stores
        link := fun a d hd ha => (hnew a n (hmem a ha)).link d hd }

/-- the same for an edit that adds nodes in two places -/
theorem ChildrenKnown.branches_of_two (hF : F.ChildrenKnown) (hr : F.Retains G) {u v : Node}
    {l k : List Node} (hsplit : ∀ a, ∃ kept, kept.Sublist (F.children a)
      ∧ G.children a = kept ++ if a = u then l else if a = v then k else [])
    (hl : l.Nodup) (hk : k.Nodup) (hlk : l.Disjoint k) (hnewl : ∀ n ∈ l, F.NewBelow G u n)
    (hnewk : ∀ n ∈ k, F.NewBelow G v n) : F.Branches G := by
  have hmem : ∀ {a n}, n ∈ (if a = u then l else if a = v then k else []) →
      (a = u ∧ n ∈ l) ∨ (a = v ∧ n ∈ k) := by
    intro a n hn
    split at hn
    · exact .inl ⟨‹_›, hn⟩
    · split at hn
      · exact .inr ⟨‹_›, hn⟩
      · exact absurd hn List.not_mem_nil
  refine hF.branches_of_added hr _ hsplit (fun a => ?_) (fun a b n ha hb => ?_) fun a n hn => ?_
  · split
    · exact hl
    · split
      · exact hk
      · exact List.nodup_nil
  · rcases hmem ha with ⟨ea, hna⟩ | ⟨ea, hna⟩ <;> rcases hmem hb with ⟨eb, hnb⟩ | ⟨eb, hnb⟩
    · rw [ea, eb]
    · exact (hlk hna hnb).elim
    · exact (hlk hnb hna).elim
    · rw [ea, eb]
  · rcases hmem hn with ⟨ea, hn⟩ | ⟨ea, hn⟩
    · exact ea ▸ hnewl n hn
    · exact ea ▸ hnewk n hn

/-- the same for an edit that adds nodes in one place -/
theorem ChildrenKnown.branches_of_one (hF : F.ChildrenKnown) (hr : F.Retains G) {u : Node}
    {l : List Node} (hsplit : ∀ a, ∃ kept, kept.Sublist (F.children a)
      ∧ G.children a = kept ++ if a = u then l else [])
    (hl : l.Nodup) (hnew : ∀ n ∈ l, F.NewBelow G u n) : F.Branches G :=
  hF.branches_of_two hr (v := u) (k := []) (fun a => by simpa only [ite_self] using hsplit a) hl
    List.nodup_nil (fun _ _ h => absurd h List.not_mem_nil) hnew fun _ h => absurd h List.not_mem_nil

/-- every node lists some of what it listed -/
theorem ChildrenKnown.branches_of_sublist (hF : F.ChildrenKnown) (hr : F.Retains G)
    (h : ∀ a, (G.children a).Sublist (F.children a)) : F.Branches G :=
  hF.branches_of_added hr (fun _ => [])
    (fun a => ⟨G.children a, h a, (List.append_nil _).symm⟩) (fun _ => List.nodup_nil)
    (fun _ _ _ hn => absurd hn List.not_mem_nil) fun _ _ hn => absurd hn List.not_mem_nil

theorem ChildrenKnown.branches_refl (hF : F.ChildrenKnown) : F.Branches F :=
  hF.branches_of_sublist (.refl F) fun _ => List.Sublist.refl _

/-! ## well-formed forests -/

theorem Retains.rootDeclarations (h : F.Retains G) (root : Root) :
    G.rootDeclarations root = F.rootDeclarations root := by
  unfold Forest.rootDeclarations file?
  rw [h.files]

theorem Retains.fileRoots (h : F.Retains G) : G.fileRoots = F.fileRoots := by
  unfold Forest.fileRoots fileIds
  rw [h.files]

theorem Retains.tops (h : F.Retains G) (roots : List Root) : G.tops roots = F.tops roots :=
  List.flatMap_congr fun root _ => h.rootDeclarations root

theorem Retains.topPlacements (h : F.Retains G) : G.topPlacements = F.topPlacements := by
  unfold Forest.topPlacements fileIds
  rw [h.files]
  exact List.flatMap_congr fun f _ => by rw [h.rootDeclarations]

/-- what is at top level in a rooted forest is there -/
theorem Rooted.stores_of_mem_tops (hF : F.Rooted) {d : DeclarationId}
    (hd : d ∈ F.tops F.fileRoots) : (F.declaration? d).isSome := by
  obtain ⟨c, hc⟩ := placed_of_reached (F := F) (n := .declaration d) ⟨d, hd, .refl⟩
  exact isSome_of_parentLink? (hF.link _ d hc rfl)

/-- what was there and is reached was reached before -/
theorem Branches.reached (h : F.Branches G) {n : Node} (hn : F.Stores n) (hr : G.Reached n) :
    F.Reached n := by
  obtain ⟨d, hd, hreach⟩ := hr
  rw [h.fileRoots, h.tops] at hd
  induction hreach with
  | refl => exact ⟨d, hd, .refl⟩
  | tail _ hc ih =>
    have hchild := h.child hn hc
    exact (ih hchild.stores).child hchild

/-- what was there is in the place where it was -/
theorem Branches.placed (h : F.Branches G) {p : Placement} (hp : G.Placed p) :
    F.Stores p.node → F.Placed p := by
  induction hp with
  | top hp => exact fun _ => .top (h.topPlacements ▸ hp)
  | inside hq hp ih =>
    intro hn
    obtain ⟨hc, hcontainer⟩ := mem_placementsBelow.mp hp
    have hchild := h.child hn hc
    exact .inside (ih hchild.stores) (mem_placementsBelow.mpr ⟨hchild, hcontainer⟩)

/-- **A rooted forest with new branches is rooted.** -/
theorem Rooted.branches (hF : F.Rooted) (h : F.Branches G) : G.Rooted where
  tops_nodup := by
    rw [h.fileRoots, h.tops]
    exact hF.tops_nodup
  children_nodup := fun a ha => List.nodup_iff_count_le_one.mpr fun n => by
    by_cases hn : F.Stores n
    · refine Nat.le_trans (h.count a n hn) ?_
      by_cases hc : F.Child a n
      · exact List.nodup_iff_count_le_one.mp (hF.children_nodup a (h.reached hc.stores ha)) n
      · rw [List.count_eq_zero.mpr hc]
        exact Nat.zero_le _
    · exact (h.hangs n hn).once a
  not_below := fun d a hd ha hc => by
    rw [h.fileRoots, h.tops] at hd
    have hchild := h.child (n := .declaration d) (hF.stores_of_mem_tops hd) hc
    exact hF.not_below d a hd (h.reached hchild.stores ha) hchild
  container := fun a b n ha hb hna hnb => by
    by_cases hn : F.Stores n
    · have hca := h.child hn hna
      have hcb := h.child hn hnb
      exact hF.container a b n (h.reached hca.stores ha) (h.reached hcb.stores hb) hca hcb
    · exact (h.hangs n hn).single a b hna hnb
  owner := fun d hd => by
    by_cases hn : F.Stores (.declaration d)
    · exact h.symbolOwner? d (hF.owner d (h.reached hn hd))
    · refine h.fresh d (by simpa [Stores] using hn) ?_
      obtain ⟨b, hb, hreach⟩ := hd
      rcases Relation.ReflTransGen.cases_tail hreach with e | ⟨a, _, hc⟩
      · rw [h.fileRoots, h.tops] at hb
        obtain rfl := Node.declaration.inj e
        exact absurd (hF.stores_of_mem_tops hb) hn
      · exact (h.hangs _ hn).stores a hc
  link := fun p d hp hd => by
    by_cases hn : F.Stores p.node
    · have hlink := hF.link p d (h.placed hp hn) hd
      rw [h.parentLink? d (isSome_of_parentLink? hlink), hlink]
    · cases hp with
      | top hp =>
        refine absurd ?_ hn
        rw [h.topPlacements] at hp
        rw [hd]
        exact isSome_of_parentLink? (hF.link p d (.top hp) hd)
      | inside hq hp =>
        obtain ⟨hc, hcontainer⟩ := mem_placementsBelow.mp hp
        obtain ⟨b, hb, hlink⟩ := (h.hangs _ hn).link _ d hd hc
        rcases hcontainer with ⟨a, ha, e⟩ | ⟨e', he, _⟩
        · rw [hb] at ha
          obtain rfl := Node.declaration.inj ha
          rw [hlink, e]
        · rw [hb] at he
          cases he

end

end Forest

end LinkRepair
