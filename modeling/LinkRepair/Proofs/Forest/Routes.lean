import Mathlib.Logic.ExistsUnique
import LinkRepair.Proofs.Forest.Lineages
import LinkRepair.Proofs.Forest.Trees
import LinkRepair.Proofs.Walk.Unbounded

/-!
# Routes

A node may stand in several lists, and in one list several times.  A route tells one of these from the
others: it starts in a file and chooses, on every level, an index.

* `Route.node?`              the node at the end of a route;
* `Route.container`          the closest declaration above it, or the file;
* `reached_iff_route`        the nodes below the files are those that a route leads to;
* `Planted.route_unique`     in a planted forest to every node one route at most;
* `rooted_of_routes`         where that is so, and all links agree with the routes, is a rooted forest;
* `cutAll_inspect`           the inspection of any forest ends without its bound;
* `Rooted.ascends`           the ascent from a declaration ends in the file of its route;
* `defects_eq_nil_iff_routes`  the forests without defects.
-/

namespace LinkRepair

/-- a way down from a file: which of its declarations, and of every node on the way which child -/
inductive Route where
  | top (file : FileId) (index : Nat)
  | child (above : Route) (index : Nat)
deriving DecidableEq

namespace Route

def node? (F : Forest) : Route → Option Node
  | top f i => (F.rootDeclarations (.file f))[i]?.map .declaration
  | child r i => (r.node? F).bind fun n => (F.children n)[i]?

/-- where a route starts -/
def file : Route → FileId
  | top f _ => f
  | child r _ => r.file

/-- the closest declaration above the end of a route, or the file -/
def container (F : Forest) : Route → Parent
  | top f _ => .file f
  | child r _ =>
    match r.node? F with
    | some (.declaration d) => .declaration d
    | _ => r.container F

section
variable {F : Forest} {r : Route} {f : FileId} {d : DeclarationId} {n : Node} {i : Nat}

theorem node?_top : (top f i).node? F = some n
    ↔ ∃ d, (F.rootDeclarations (.file f))[i]? = some d ∧ n = .declaration d := by
  simp only [node?, Option.map_eq_some_iff, eq_comm (a := n)]

theorem node?_child : (r.child i).node? F = some n
    ↔ ∃ a, r.node? F = some a ∧ (F.children a)[i]? = some n := by
  simp [node?, Option.bind_eq_some_iff]

theorem container_below_declaration (h : r.node? F = some (.declaration d)) :
    (r.child i).container F = .declaration d := by
  simp [container, h]

theorem container_below_expression {e : ExpressionId} (h : r.node? F = some (.expression e)) :
    (r.child i).container F = r.container F := by
  simp [container, h]

end

end Route

namespace Forest

section
variable {F : Forest} {p : Placement} {r r' : Route} {n : Node} {d : DeclarationId}

/-! ## places and routes -/

/-- a place is one that a route leads to -/
theorem placed_iff_route : F.Placed p ↔ ∃ r : Route, r.node? F = some p.node ∧ r.container F = p.container := by
  constructor
  · intro h
    induction h with
    | top h =>
      obtain ⟨f, _, d, hd, rfl⟩ := mem_topPlacements.mp h
      obtain ⟨i, hi⟩ := List.mem_iff_getElem?.mp hd
      exact ⟨.top f i, Route.node?_top.mpr ⟨d, hi, rfl⟩, rfl⟩
    | @inside p q _ h ih =>
      obtain ⟨r, hr, hc⟩ := ih
      obtain ⟨hchild, hcontainer⟩ := mem_placementsBelow.mp h
      obtain ⟨i, hi⟩ := List.mem_iff_getElem?.mp hchild
      refine ⟨r.child i, Route.node?_child.mpr ⟨q.node, hr, hi⟩, ?_⟩
      rcases hcontainer with ⟨d, hd, hp⟩ | ⟨e, he, hp⟩
      · rw [Route.container_below_declaration (hd ▸ hr), hp]
      · rw [Route.container_below_expression (he ▸ hr), hc, hp]
  · rintro ⟨r, hr, hc⟩
    induction r generalizing p with
    | top f i =>
      obtain ⟨d, hi, hn⟩ := Route.node?_top.mp hr
      have hd := List.mem_of_getElem? hi
      obtain ⟨n, c⟩ := p
      obtain rfl : n = .declaration d := hn
      obtain rfl : .file f = c := hc
      exact .top (mem_topPlacements.mpr ⟨f, mem_fileIds_of_rootDeclarations hd, d, hd, rfl⟩)
    | child r i ih =>
      obtain ⟨a, ha, hi⟩ := Route.node?_child.mp hr
      have hchild : F.Child a p.node := List.mem_of_getElem? hi
      have habove : F.Placed ⟨a, r.container F⟩ := ih (p := ⟨a, _⟩) ha rfl
      refine .inside habove (mem_placementsBelow.mpr ⟨hchild, ?_⟩)
      cases a with
      | declaration d => exact .inl ⟨d, rfl, hc.symm.trans (Route.container_below_declaration ha)⟩
      | expression e => exact .inr ⟨e, rfl, hc.symm.trans (Route.container_below_expression ha)⟩

/-- **The nodes below the files are those that a route leads to.** -/
theorem reached_iff_route : F.Reached n ↔ ∃ r : Route, r.node? F = some n := by
  constructor
  · intro h
    obtain ⟨c, hc⟩ := placed_of_reached h
    obtain ⟨r, hr, _⟩ := placed_iff_route.mp hc
    exact ⟨r, hr⟩
  · rintro ⟨r, hr⟩
    exact (placed_iff_route.mpr ⟨r, hr, rfl⟩ : F.Placed ⟨n, r.container F⟩).reached

/-! ## one route to a node -/

/-- a route of one step leads to a declaration of a file -/
theorem exists_of_top {f : FileId} {i : Nat} (h : (Route.top f i).node? F = some n) : ∃ d,
    n = .declaration d ∧ .file f ∈ F.fileRoots ∧ (F.rootDeclarations (.file f))[i]? = some d := by
  obtain ⟨d, hi, hn⟩ := Route.node?_top.mp h
  exact ⟨d, hn, List.mem_map_of_mem (mem_fileIds_of_rootDeclarations (List.mem_of_getElem? hi)), hi⟩

/-- which is not below a node of the trees -/
theorem Planted.top_apart (hF : F.Planted) {f : FileId} {i j : Nat}
    (h : (Route.top f i).node? F = some n) : (r.child j).node? F ≠ some n := by
  intro h'
  obtain ⟨d, rfl, hf, hi⟩ := exists_of_top h
  obtain ⟨a, ha, hj⟩ := Route.node?_child.mp h'
  exact hF.not_below d a (List.mem_flatMap.mpr ⟨_, hf, List.mem_of_getElem? hi⟩)
    (reached_iff_route.mpr ⟨r, ha⟩) (List.mem_of_getElem? hj)

/-- **In a planted forest to every node one route at most.** -/
theorem Planted.route_unique (hF : F.Planted) (hr : r.node? F = some n) (hr' : r'.node? F = some n) :
    r = r' := by
  induction r generalizing r' n with
  | top f i =>
    cases r' with
    | top f' i' =>
      obtain ⟨d, rfl, hf, hi⟩ := exists_of_top hr
      obtain ⟨d', hd, hf', hi'⟩ := exists_of_top hr'
      obtain rfl := Node.declaration.inj hd
      obtain ⟨hlists, hpair⟩ := List.nodup_flatMap.mp hF.tops_nodup
      have hsymm : Std.Symm (Function.onFun List.Disjoint F.rootDeclarations) :=
        ⟨fun _ _ h _ ha hb => h hb ha⟩
      obtain rfl : f = f' := by
        by_contra hne
        exact hpair.forall hf hf' (fun e => hne (Root.file.inj e)) (List.mem_of_getElem? hi)
          (List.mem_of_getElem? hi')
      rw [(List.getElem?_inj (List.getElem?_eq_some_iff.mp hi).1 (hlists _ hf)).mp (hi.trans hi'.symm)]
    | child r' i' => exact absurd hr' (hF.top_apart hr)
  | child r i ih =>
    cases r' with
    | top f' i' => exact absurd hr (hF.top_apart hr')
    | child r' i' =>
      obtain ⟨a, ha, hi⟩ := Route.node?_child.mp hr
      obtain ⟨a', ha', hi'⟩ := Route.node?_child.mp hr'
      have hreached := reached_iff_route.mpr ⟨r, ha⟩
      obtain rfl := hF.container a a' n hreached (reached_iff_route.mpr ⟨r', ha'⟩)
        (List.mem_of_getElem? hi) (List.mem_of_getElem? hi')
      rw [ih ha ha', (List.getElem?_inj (List.getElem?_eq_some_iff.mp hi).1
        (hF.children_nodup a hreached)).mp (hi.trans hi'.symm)]

/-- a list in which no two places hold the same is without repetition -/
theorem nodup_of_getElem? {α : Type} {l : List α}
    (h : ∀ (i j : Nat) a, l[i]? = some a → l[j]? = some a → i = j) : l.Nodup := by
  rw [List.nodup_iff_pairwise_ne, List.pairwise_iff_getElem]
  intro i j hi hj hlt e
  exact Nat.ne_of_lt hlt (h i j l[i] (List.getElem?_eq_getElem hi)
    (e ▸ List.getElem?_eq_getElem hj))

/-- **Where all links agree with the routes, and there is one to every node at most, is a rooted
forest.** -/
theorem rooted_of_routes
    (hone : ∀ (r r' : Route) n, r.node? F = some n → r'.node? F = some n → r = r')
    (hlinks : ∀ (r : Route) d, r.node? F = some (.declaration d) →
      F.parentLink? d = some (r.container F) ∧ F.symbolOwner? d = some d) : F.Rooted where
  tops_nodup := by
    refine List.nodup_flatMap.mpr ⟨fun root hroot => ?_, ?_⟩
    · obtain ⟨f, _, rfl⟩ := List.mem_map.mp hroot
      refine nodup_of_getElem? fun i j d hi hj => ?_
      exact (Route.top.inj (hone (.top f i) (.top f j) _ (Route.node?_top.mpr ⟨d, hi, rfl⟩)
        (Route.node?_top.mpr ⟨d, hj, rfl⟩))).2
    · refine List.pairwise_map.mpr ((List.nodup_iff_pairwise_ne.mp nodup_fileIds).imp ?_)
      intro f f' hne d hd hd'
      obtain ⟨i, hi⟩ := List.mem_iff_getElem?.mp hd
      obtain ⟨j, hj⟩ := List.mem_iff_getElem?.mp hd'
      exact hne (Route.top.inj (hone (.top f i) (.top f' j) _ (Route.node?_top.mpr ⟨d, hi, rfl⟩)
        (Route.node?_top.mpr ⟨d, hj, rfl⟩))).1
  children_nodup := fun n hn => by
    obtain ⟨r, hr⟩ := reached_iff_route.mp hn
    refine nodup_of_getElem? fun i j m hi hj => ?_
    exact (Route.child.inj (hone (r.child i) (r.child j) m (Route.node?_child.mpr ⟨n, hr, hi⟩)
      (Route.node?_child.mpr ⟨n, hr, hj⟩))).2
  not_below := fun d a hd ha hchild => by
    obtain ⟨root, hroot, hd⟩ := List.mem_flatMap.mp hd
    obtain ⟨f, _, rfl⟩ := List.mem_map.mp hroot
    obtain ⟨i, hi⟩ := List.mem_iff_getElem?.mp hd
    obtain ⟨r, hr⟩ := reached_iff_route.mp ha
    obtain ⟨j, hj⟩ := List.mem_iff_getElem?.mp hchild
    cases hone (.top f i) (r.child j) _ (Route.node?_top.mpr ⟨d, hi, rfl⟩)
      (Route.node?_child.mpr ⟨a, hr, hj⟩)
  container := fun a b n ha hb hna hnb => by
    obtain ⟨r, hr⟩ := reached_iff_route.mp ha
    obtain ⟨r', hr'⟩ := reached_iff_route.mp hb
    obtain ⟨i, hi⟩ := List.mem_iff_getElem?.mp hna
    obtain ⟨j, hj⟩ := List.mem_iff_getElem?.mp hnb
    obtain ⟨rfl, _⟩ := Route.child.inj (hone (r.child i) (r'.child j) n
      (Route.node?_child.mpr ⟨a, hr, hi⟩) (Route.node?_child.mpr ⟨b, hr', hj⟩))
    exact Option.some.inj (hr.symm.trans hr')
  owner := fun d hd => by
    obtain ⟨r, hr⟩ := reached_iff_route.mp hd
    exact (hlinks r d hr).2
  link := fun p d hp hd => by
    obtain ⟨r, hr, hc⟩ := placed_iff_route.mp hp
    rw [hd] at hr
    rw [(hlinks r d hr).1, hc]

/-! ## the ascent along a route -/

/-- **The ascent from a declaration ends in the file of its route**, and so does the one from the
closest declaration above the end of a route. -/
theorem Rooted.ascends (hF : F.Rooted) : ∀ r : Route,
    (∀ d, r.node? F = some (.declaration d) → ∃ l, F.Ascends d l (some r.file))
      ∧ ((∃ d, r.container F = .declaration d ∧ ∃ l, F.Ascends d l (some r.file))
        ∨ r.container F = .file r.file) := by
  have hstep : ∀ r : Route, ((∃ d, r.container F = .declaration d ∧ ∃ l, F.Ascends d l (some r.file))
      ∨ r.container F = .file r.file) →
      ∀ d, r.node? F = some (.declaration d) → ∃ l, F.Ascends d l (some r.file) := fun r hr d hd => by
    have hlink := hF.link ⟨.declaration d, r.container F⟩ d (placed_iff_route.mpr ⟨r, hd, rfl⟩) rfl
    obtain ⟨x, hx, hp⟩ := Option.bind_eq_some_iff.mp hlink
    rcases hr with ⟨a, ha, l, hl⟩ | hfile
    · exact ⟨d :: l, .up hx (hp.trans (congrArg some ha)) hl⟩
    · exact ⟨[d], .file hx (hp.trans (congrArg some hfile))⟩
  intro r
  induction r with
  | top f i => exact ⟨hstep _ (.inr rfl), .inr rfl⟩
  | child r i ih =>
    have hcontainer : (∃ d, (r.child i).container F = .declaration d ∧ ∃ l, F.Ascends d l (some r.file))
        ∨ (r.child i).container F = .file r.file := by
      cases hn : r.node? F with
      | none => simpa only [Route.container, hn] using ih.2
      | some n =>
        cases n with
        | declaration d => exact .inl ⟨d, Route.container_below_declaration hn, ih.1 d hn⟩
        | expression e =>
          rw [Route.container_below_expression hn]
          exact ih.2
    exact ⟨hstep _ hcontainer, hcontainer⟩

/-! ## the inspection -/

/-- **The inspection of any forest ends without its bound**: it goes on below nodes that it has not seen
before, and there is something below a stored node only. -/
theorem cutAll_inspect (s : Inspection) (ps : List Placement) :
    cutAll F.inspect (F.nodeCount + 1) s ps = [] := by
  refine cutAll_of_seen Placement.node Inspection.seen F.stored (fun s p => ?_) (fun s p hon => ?_)
    ?_ s ps
  · unfold inspect
    split
    · exact List.Subset.refl _
    · exact List.subset_cons_self _ _
  · unfold inspect at hon ⊢
    split at hon
    · exact absurd rfl hon
    · rename_i hseen
      rw [if_neg hseen]
      obtain ⟨q, hq⟩ := List.exists_mem_of_ne_nil _ hon
      exact ⟨hseen, List.mem_cons_self, mem_stored.mpr (mem_placementsBelow.mp hq).1.stores⟩
  · rw [length_stored]
    exact Nat.lt_succ_self _

/-- **An inspection ends, and finds no defect just in the forests in which there is one route to every
node below the files, every declaration names as its parent what contains it on its route, and owns its
symbol.**  There every ascent ends in the file of the route, and no two declarations share a symbol. -/
theorem defects_eq_nil_iff_routes :
    Walks (fun s p r => F.inspect s p = r) ⟨[], []⟩ F.topPlacements F.inspection
      ∧ (F.defects = [] ↔ (∀ n, F.Reached n → ∃! r : Route, r.node? F = some n)
        ∧ ∀ (r : Route) d, r.node? F = some (.declaration d) →
          F.parentLink? d = some (r.container F) ∧ F.symbolOwner? d = some d)
      ∧ (F.defects = [] → ∀ (r : Route) d, r.node? F = some (.declaration d) →
        (∃ l, F.Ascends d l (some r.file)) ∧ F.fileOf d = some r.file
          ∧ ∀ (r' : Route) d' x x', r'.node? F = some (.declaration d') → F.declaration? d = some x →
            F.declaration? d' = some x' → x.symbol = x'.symbol → d = d') := by
  refine ⟨walks_of_cutAll (cutAll_inspect _ _) fun _ _ => rfl, ?_, fun h r d hd => ?_⟩
  · rw [defects_eq_nil_iff]
    constructor
    · intro h
      refine ⟨fun n hn => ?_, fun r d hd => ?_⟩
      · obtain ⟨r, hr⟩ := reached_iff_route.mp hn
        exact ⟨r, hr, fun r' hr' => h.route_unique hr' hr⟩
      · exact ⟨h.link ⟨.declaration d, r.container F⟩ d (placed_iff_route.mpr ⟨r, hd, rfl⟩) rfl,
          h.owner d (reached_iff_route.mpr ⟨r, hd⟩)⟩
    · rintro ⟨hone, hlinks⟩
      refine rooted_of_routes (fun r r' n hr hr' => ?_) hlinks
      exact (hone n (reached_iff_route.mpr ⟨r, hr⟩)).unique hr hr'
  · have hF := rooted_of_defects_nil h
    obtain ⟨l, hl⟩ := (hF.ascends r).1 d hd
    refine ⟨⟨l, hl⟩, hl.fileOf_eq, fun r' d' x x' hd' hx hx' hsymbol => ?_⟩
    have hown := hF.owner d (reached_iff_route.mpr ⟨r, hd⟩)
    have hown' := hF.owner d' (reached_iff_route.mpr ⟨r', hd'⟩)
    rw [symbolOwner?, hx, Option.bind_some, hsymbol] at hown
    rw [symbolOwner?, hx', Option.bind_some] at hown'
    exact Option.some.inj (hown.symm.trans hown')

end

end Forest

end LinkRepair
