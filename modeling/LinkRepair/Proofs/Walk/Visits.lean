import Mathlib.Data.List.Chain
import Mathlib.Data.List.Nodup
import Mathlib.Data.List.Perm.Basic
import LinkRepair.Proofs.Walk.Paths
import LinkRepair.Walk

/-!
# The visits of a walk

A walk is a fold in a tree of calls.  Here it is laid out in a line: the list of the nodes that it
enters, each with the state in which it does.

* `visits`, `visitsAll`   that list, of a node and of a list of nodes;
* `Run enter tops s vs t` from `s` the visits `vs` lead to `t`, each at a node of `tops` or below an
                          earlier visit;
* `cut`, `cutAll`         the nodes at which the walk ran out of levels;
* `Descent enter vs l`    visits of `vs` one below the other, each of which led on;
* `visitsAll_perm`        what was to be visited is what was visited or cut;
* `mem_visitsAll_of_below`  a node that is not too deep is visited.

Invariants of a walk with its history go by induction on `Run`, one visit at a time.
-/

namespace LinkRepair

section
variable {σ ν : Type}

/-- one list for each node, in the states that the nodes before it leave behind -/
def inTurn {β : Type} (f : σ → ν → List β) (go : σ → ν → σ) : σ → List ν → List β
  | _, [] => []
  | s, n :: ns => f s n ++ inTurn f go (go s n) ns

def visits (enter : σ → ν → σ × List ν) : Nat → σ → ν → List (σ × ν)
  | 0, _, _ => []
  | depth + 1, s, n =>
    (s, n) :: inTurn (visits enter depth) (walk enter depth) (enter s n).1 (enter s n).2

def visitsAll (enter : σ → ν → σ × List ν) (depth : Nat) (s : σ) (ns : List ν) : List (σ × ν) :=
  inTurn (visits enter depth) (walk enter depth) s ns

def cut (enter : σ → ν → σ × List ν) : Nat → σ → ν → List ν
  | 0, _, n => [n]
  | depth + 1, s, n => inTurn (cut enter depth) (walk enter depth) (enter s n).1 (enter s n).2

def cutAll (enter : σ → ν → σ × List ν) (depth : Nat) (s : σ) (ns : List ν) : List ν :=
  inTurn (cut enter depth) (walk enter depth) s ns

/-- what a visit tells to visit next -/
def pushed (enter : σ → ν → σ × List ν) (v : σ × ν) : List ν := (enter v.1 v.2).2

variable {enter : σ → ν → σ × List ν}

theorem visitsAll_nil (depth : Nat) (s : σ) : visitsAll enter depth s [] = [] := rfl

theorem visitsAll_cons (depth : Nat) (s : σ) (n : ν) (ns : List ν) :
    visitsAll enter depth s (n :: ns)
      = visits enter depth s n ++ visitsAll enter depth (walk enter depth s n) ns := rfl

/-! ## in a line -/

inductive Run (enter : σ → ν → σ × List ν) (tops : List ν) (s : σ) : List (σ × ν) → σ → Prop
  | start : Run enter tops s [] s
  | visit {vs : List (σ × ν)} {t : σ} (n : ν) (h : Run enter tops s vs t)
      (hn : n ∈ tops ∨ ∃ v ∈ vs, n ∈ pushed enter v) :
      Run enter tops s (vs ++ [(t, n)]) (enter t n).1

theorem Run.walkAll {tops : List ν} {s : σ} {depth : Nat}
    (hw : ∀ n t vs, Run enter tops s vs t → (n ∈ tops ∨ ∃ v ∈ vs, n ∈ pushed enter v) →
      Run enter tops s (vs ++ visits enter depth t n) (walk enter depth t n)) :
    ∀ (ns : List ν) (t : σ) (vs : List (σ × ν)), Run enter tops s vs t →
      (∀ n ∈ ns, n ∈ tops ∨ ∃ v ∈ vs, n ∈ pushed enter v) →
      Run enter tops s (vs ++ visitsAll enter depth t ns) (walkAll enter depth t ns) := by
  intro ns
  induction ns with
  | nil =>
    intro t vs h _
    rw [visitsAll_nil, List.append_nil]
    exact h
  | cons n ns ih =>
    intro t vs h hns
    have hn := hw n t vs h (hns n List.mem_cons_self)
    have := ih _ _ hn fun m hm => by
      rcases hns m (List.mem_cons_of_mem _ hm) with h | ⟨v, hv, h⟩
      · exact .inl h
      · exact .inr ⟨v, List.mem_append_left _ hv, h⟩
    rw [List.append_assoc] at this
    exact this

theorem Run.walk {tops : List ν} {s : σ} : ∀ (depth : Nat) (n : ν) (t : σ) (vs : List (σ × ν)),
    Run enter tops s vs t → (n ∈ tops ∨ ∃ v ∈ vs, n ∈ pushed enter v) →
    Run enter tops s (vs ++ visits enter depth t n) (walk enter depth t n) := by
  intro depth
  induction depth with
  | zero =>
    intro n t vs h _
    show Run enter tops s (vs ++ []) t
    rw [List.append_nil]
    exact h
  | succ depth ih =>
    intro n t vs h hn
    have h' := Run.walkAll ih (enter t n).2 _ _ (h.visit n hn) fun m hm =>
      .inr ⟨(t, n), List.mem_append_right _ List.mem_cons_self, hm⟩
    rw [List.append_assoc] at h'
    exact h'

/-- **A walk is the run of its visits.** -/
theorem run_walkAll {tops : List ν} {s t : σ} {vs : List (σ × ν)} (depth : Nat) (ns : List ν)
    (h : Run enter tops s vs t) (hns : ns ⊆ tops) :
    Run enter tops s (vs ++ visitsAll enter depth t ns) (walkAll enter depth t ns) :=
  Run.walkAll (Run.walk depth) ns t vs h fun _ hn => .inl (hns hn)

section
variable {tops : List ν} {s t : σ} {vs : List (σ × ν)}

/-- a run up to a visit, and the origin of the node that is visited -/
theorem Run.of_append_cons {v : σ × ν} {post : List (σ × ν)} :
    ∀ {pre : List (σ × ν)}, Run enter tops s (pre ++ v :: post) t →
      Run enter tops s pre v.1 ∧ (v.2 ∈ tops ∨ ∃ u ∈ pre, v.2 ∈ pushed enter u) := by
  intro pre h
  generalize e : pre ++ v :: post = us at h
  induction h generalizing post with
  | start => simp at e
  | visit n h hn ih =>
    rcases List.eq_nil_or_concat post with rfl | ⟨post, u, rfl⟩
    · obtain ⟨rfl, hv⟩ := List.append_inj' e rfl
      obtain rfl := List.cons.inj hv |>.1
      exact ⟨h, hn⟩
    · rw [List.concat_eq_append, ← List.cons_append, ← List.append_assoc] at e
      exact ih (List.append_inj' e rfl).1

/-- what holds between the states around every visit holds from the start to each visit, and from
there to the end -/
theorem Run.relates {R : σ → σ → Prop} (hrefl : ∀ s, R s s)
    (htrans : ∀ {a b c}, R a b → R b c → R a c) (h : Run enter tops s vs t)
    (hstep : ∀ v ∈ vs, R v.1 (enter v.1 v.2).1) :
    R s t ∧ ∀ v ∈ vs, R s v.1 ∧ R (enter v.1 v.2).1 t := by
  induction h with
  | start => exact ⟨hrefl s, fun v hv => absurd hv List.not_mem_nil⟩
  | @visit vs t n _ _ ih =>
    have ih := ih fun v hv => hstep v (List.mem_append_left _ hv)
    refine ⟨htrans ih.1 (hstep (t, n) (List.mem_append_right _ List.mem_cons_self)), fun v hv => ?_⟩
    rcases List.mem_append.mp hv with hv | hv
    · exact ⟨(ih.2 v hv).1,
        htrans (ih.2 v hv).2 (hstep (t, n) (List.mem_append_right _ List.mem_cons_self))⟩
    · obtain rfl := List.mem_singleton.mp hv
      exact ⟨ih.1, hrefl _⟩

/-- what holds between the states around every visit holds from each visit to every later one -/
theorem Run.pairwise {R : σ → σ → Prop} (hrefl : ∀ s, R s s)
    (htrans : ∀ {a b c}, R a b → R b c → R a c) (h : Run enter tops s vs t)
    (hstep : ∀ v ∈ vs, R v.1 (enter v.1 v.2).1) :
    vs.Pairwise fun u v => R (enter u.1 u.2).1 v.1 := by
  induction h with
  | start => exact .nil
  | @visit vs t n h _ ih =>
    have hstep' := fun v hv => hstep v (List.mem_append_left [(t, n)] hv)
    refine List.pairwise_append.mpr ⟨ih hstep', List.pairwise_singleton _ _, fun u hu v hv => ?_⟩
    obtain rfl := List.mem_singleton.mp hv
    exact ((h.relates hrefl htrans hstep').2 u hu).2

/-- the part of a run after a visit -/
theorem Run.after {R : σ → σ → Prop} (hrefl : ∀ s, R s s)
    (htrans : ∀ {a b c}, R a b → R b c → R a c) {v : σ × ν} {pre : List (σ × ν)} :
    ∀ {post : List (σ × ν)}, Run enter tops s (pre ++ v :: post) t →
      (∀ u ∈ post, R u.1 (enter u.1 u.2).1) → R (enter v.1 v.2).1 t := by
  intro post h hstep
  generalize e : pre ++ v :: post = us at h
  induction h generalizing post with
  | start => simp at e
  | @visit us t n _ _ ih =>
    rcases List.eq_nil_or_concat post with rfl | ⟨post, u, rfl⟩
    · obtain ⟨_, hv⟩ := List.append_inj' e rfl
      obtain rfl := List.cons.inj hv |>.1
      exact hrefl _
    · rw [List.concat_eq_append, ← List.cons_append, ← List.append_assoc] at e
      obtain ⟨e', hu⟩ := List.append_inj' e rfl
      obtain rfl := List.cons.inj hu |>.1
      rw [List.concat_eq_append] at hstep
      exact htrans (ih (fun w hw => hstep w (List.mem_append_left _ hw)) e')
        (hstep (t, n) (List.mem_append_right _ List.mem_cons_self))

/-- what every visit keeps at an admitted node, and that nodes below are admitted, carries over to
all visits and to the end -/
theorem Run.invariant {P : σ → Prop} {N : σ → ν → Prop}
    (hstep : ∀ s n, P s → N s n → P (enter s n).1 ∧ ∀ m ∈ (enter s n).2, N (enter s n).1 m)
    (hmono : ∀ s n m, P s → N s n → N s m → N (enter s n).1 m)
    (h : Run enter tops s vs t) (hs : P s) (htops : ∀ n ∈ tops, N s n) :
    P t ∧ (∀ n, (n ∈ tops ∨ ∃ v ∈ vs, n ∈ pushed enter v) → N t n)
      ∧ ∀ v ∈ vs, P v.1 ∧ N v.1 v.2 := by
  induction h with
  | start =>
    refine ⟨hs, ?_, fun v hv => absurd hv List.not_mem_nil⟩
    rintro n (hn | ⟨v, hv, _⟩)
    · exact htops n hn
    · exact absurd hv List.not_mem_nil
  | @visit vs t n h hn ih =>
    obtain ⟨hP, hN, hvs⟩ := ih
    have hNn := hN n hn
    obtain ⟨hP', hbelow⟩ := hstep t n hP hNn
    refine ⟨hP', ?_, ?_⟩
    · rintro m (hm | ⟨v, hv, hm⟩)
      · exact hmono t n m hP hNn (hN m (.inl hm))
      · rcases List.mem_append.mp hv with hv | hv
        · exact hmono t n m hP hNn (hN m (.inr ⟨v, hv, hm⟩))
        · obtain rfl := List.mem_singleton.mp hv
          exact hbelow m hm
    · intro v hv
      rcases List.mem_append.mp hv with hv | hv
      · exact hvs v hv
      · obtain rfl := List.mem_singleton.mp hv
        exact ⟨hP, hNn⟩

end

/-! ## what is visited -/

theorem visits_sublist_visitsAll (depth : Nat) {n : ν} :
    ∀ {ns : List ν} (s : σ), n ∈ ns →
      ∃ t, (visits enter depth t n).Sublist (visitsAll enter depth s ns) := by
  intro ns
  induction ns with
  | nil => intro s hn; exact absurd hn List.not_mem_nil
  | cons m ns ih =>
    intro s hn
    rw [visitsAll_cons]
    rcases List.mem_cons.mp hn with rfl | hn
    · exact ⟨s, List.sublist_append_left _ _⟩
    · obtain ⟨t, ht⟩ := ih (walk enter depth s m) hn
      exact ⟨t, ht.trans (List.sublist_append_right _ _)⟩

theorem mem_visits_of_below {step : ν → ν → Prop} {n : ν} {k : Nat} :
    ∀ {depth : Nat} {s : σ} {a : ν},
      (∀ v ∈ visits enter depth s a, ∀ m, step v.2 m → m ∈ pushed enter v) →
      Below step k a n → k < depth → n ∈ (visits enter depth s a).map Prod.snd := by
  induction k with
  | zero =>
    rintro (_ | depth) s a _ h hk
    · exact absurd hk (Nat.lt_irrefl 0)
    · obtain rfl := h
      exact List.mem_cons_self
  | succ k ih =>
    rintro (_ | depth) s a hstep ⟨b, hb, h⟩ hk
    · exact absurd hk (Nat.not_lt_zero _)
    · have hmem : b ∈ (enter s a).2 := hstep (s, a) List.mem_cons_self b hb
      obtain ⟨t, ht⟩ := visits_sublist_visitsAll depth (enter s a).1 hmem
      have := ih (fun v hv => hstep v (List.mem_cons_of_mem _ (ht.subset hv))) h
        (Nat.lt_of_succ_lt_succ hk)
      exact List.mem_cons_of_mem _ ((ht.map Prod.snd).subset this)

/-- **A node that is not too deep is visited**, if every visit leads on to what is below it. -/
theorem mem_visitsAll_of_below {step : ν → ν → Prop} {n a : ν} {k depth : Nat} {s : σ}
    {ns : List ν} (hstep : ∀ v ∈ visitsAll enter depth s ns, ∀ m, step v.2 m → m ∈ pushed enter v)
    (ha : a ∈ ns) (h : Below step k a n) (hk : k < depth) :
    n ∈ (visitsAll enter depth s ns).map Prod.snd := by
  obtain ⟨t, ht⟩ := visits_sublist_visitsAll depth s ha
  exact (ht.map Prod.snd).subset
    (mem_visits_of_below (fun v hv => hstep v (ht.subset hv)) h hk)

/-! ## what is cut -/

theorem inTurn_perm {f : σ → ν → List (σ × ν)} {g : σ → ν → List ν} {go : σ → ν → σ}
    (h : ∀ s n, ((f s n).map Prod.snd ++ g s n).Perm (n :: (f s n).flatMap (pushed enter))) :
    ∀ (ns : List ν) (s : σ), ((inTurn f go s ns).map Prod.snd ++ inTurn g go s ns).Perm
      (ns ++ (inTurn f go s ns).flatMap (pushed enter)) := by
  intro ns
  induction ns with
  | nil => intro s; exact .refl _
  | cons n ns ih =>
    intro s
    classical
    rw [List.perm_iff_count]
    intro a
    have hn := List.perm_iff_count.mp (h s n) a
    have hns := List.perm_iff_count.mp (ih (go s n)) a
    simp only [inTurn, List.map_append, List.flatMap_append, List.cons_append, List.count_cons,
      List.count_append] at hn hns ⊢
    omega

theorem visits_perm : ∀ (depth : Nat) (s : σ) (n : ν),
    ((visits enter depth s n).map Prod.snd ++ cut enter depth s n).Perm
      (n :: (visits enter depth s n).flatMap (pushed enter)) := by
  intro depth
  induction depth with
  | zero => intro s n; exact .refl _
  | succ depth ih =>
    intro s n
    exact (inTurn_perm ih (enter s n).2 (enter s n).1).cons n

/-- **What was to be visited is what was visited or cut.** -/
theorem visitsAll_perm (depth : Nat) (s : σ) (ns : List ν) :
    ((visitsAll enter depth s ns).map Prod.snd ++ cutAll enter depth s ns).Perm
      (ns ++ (visitsAll enter depth s ns).flatMap (pushed enter)) :=
  inTurn_perm (visits_perm depth) ns s

theorem exists_of_mem_inTurn {β : Type} {f : σ → ν → List β} {go : σ → ν → σ} {b : β} :
    ∀ {ns : List ν} {s : σ}, b ∈ inTurn f go s ns → ∃ n ∈ ns, ∃ t, b ∈ f t n
      ∧ ∀ {g : σ → ν → List (σ × ν)}, (g t n).Sublist (inTurn g go s ns) := by
  intro ns
  induction ns with
  | nil => intro s hb; exact absurd hb List.not_mem_nil
  | cons n ns ih =>
    intro s hb
    rcases List.mem_append.mp hb with hb | hb
    · exact ⟨n, List.mem_cons_self, s, hb, List.sublist_append_left _ _⟩
    · obtain ⟨m, hm, t, ht, hsub⟩ := ih hb
      exact ⟨m, List.mem_cons_of_mem _ hm, t, ht, hsub.trans (List.sublist_append_right _ _)⟩

/-- some of the visits `vs`, one below the other, each of which led on -/
structure Descent (enter : σ → ν → σ × List ν) (vs l : List (σ × ν)) : Prop where
  sublist : l.Sublist vs
  leads : l.IsChain fun u v => v.2 ∈ pushed enter u
  goes : ∀ v ∈ l, pushed enter v ≠ []

theorem exists_descent_of_mem_cut {m : ν} : ∀ {depth : Nat} {s : σ} {n : ν},
    m ∈ cut enter depth s n → ∃ l : List (σ × ν), Descent enter (visits enter depth s n) l
      ∧ l.length = depth ∧ ∀ v ∈ l.head?, v.2 = n := by
  intro depth
  induction depth with
  | zero =>
    intro s n _
    exact ⟨[], ⟨List.nil_sublist _, .nil, fun v hv => absurd hv List.not_mem_nil⟩, rfl,
      fun v hv => by cases hv⟩
  | succ depth ih =>
    intro s n hm
    obtain ⟨b, hb, t, hmb, hsub⟩ := exists_of_mem_inTurn hm
    obtain ⟨l, hl, hlen, hhead⟩ := ih hmb
    refine ⟨(s, n) :: l, ⟨(hl.sublist.trans hsub).cons_cons _, hl.leads.cons fun v hv => ?_, ?_⟩,
      by rw [List.length_cons, hlen], fun v hv => by cases hv; rfl⟩
    · rw [hhead v hv]
      exact hb
    · intro v hv
      rcases List.mem_cons.mp hv with rfl | hv
      · exact List.ne_nil_of_mem hb
      · exact hl.goes v hv

/-- **Above a node that was cut there is a visit on every level**, and each led on to the next. -/
theorem exists_descent_of_mem_cutAll {m : ν} {depth : Nat} {s : σ} {ns : List ν}
    (hm : m ∈ cutAll enter depth s ns) :
    ∃ l, Descent enter (visitsAll enter depth s ns) l ∧ l.length = depth := by
  obtain ⟨n, _, t, hmn, hsub⟩ := exists_of_mem_inTurn hm
  obtain ⟨l, hl, hlen, _⟩ := exists_descent_of_mem_cut hmn
  exact ⟨l, ⟨hl.sublist.trans hsub, hl.leads, hl.goes⟩, hlen⟩

end

end LinkRepair
