import LinkRepair.Proofs.Walk.Visits

/-!
# Walks without a bound

A walk carries a bound on its depth.  The rules here carry none: a walk that would go on for ever has
no derivation.

* `InOrder does s l t`    from `s` the things `l` are done, one after the other, and this ends, in `t`;
* `Walks enters s ns t`   the nodes `ns` are entered, each with all that is below it before the next one;
* `walks_of_cutAll`       a walk that was cut nowhere ends without its bound;
* `Walks.unique`          in one state only, if entering a node has one outcome;
* `cutAll_of_seen`        a walk is cut nowhere when it goes on below new nodes only, and is given more
                          levels than there are nodes to go on below;
* `cutAll_of_once`        nor when it meets the nodes of a stock once at most, and goes on but two levels
                          below any other node.

How a node is entered is a relation, since entering may contain loops of its own.
-/

namespace LinkRepair

section
variable {σ ν : Type}

inductive InOrder (does : σ → ν → σ → Prop) : σ → List ν → σ → Prop
  | done (s : σ) : InOrder does s [] s
  | next {s t u : σ} {n : ν} {ns : List ν} (h : does s n t) (hrest : InOrder does t ns u) :
      InOrder does s (n :: ns) u

theorem InOrder.unique {does : σ → ν → σ → Prop} (h : ∀ s n t t', does s n t → does s n t' → t = t')
    {s t t' : σ} {ns : List ν} (ht : InOrder does s ns t) (ht' : InOrder does s ns t') : t = t' := by
  induction ht with
  | done => cases ht'; rfl
  | next hn _ ih =>
    cases ht' with
    | next hn' hrest' =>
      obtain rfl := h _ _ _ _ hn hn'
      exact ih hrest'

/-- a fold does its things in order, with what each of them keeps -/
theorem inOrder_foldl {does : σ → ν → σ → Prop} {f : σ → ν → σ} {P : σ → Prop} : ∀ {ns : List ν} {s : σ},
    (∀ t, ∀ n ∈ ns, P t → does t n (f t n) ∧ P (f t n)) → P s →
    InOrder does s ns (ns.foldl f s) ∧ P (ns.foldl f s) := by
  intro ns
  induction ns with
  | nil => exact fun _ hs => ⟨.done _, hs⟩
  | cons n ns ih =>
    intro s h hs
    obtain ⟨hn, hP⟩ := h s n List.mem_cons_self hs
    obtain ⟨hrest, hend⟩ := ih (fun t m hm => h t m (List.mem_cons_of_mem _ hm)) hP
    exact ⟨.next hn hrest, hend⟩

/-- the walk that goes on until there is nothing left to enter -/
inductive Walks (enters : σ → ν → σ × List ν → Prop) : σ → List ν → σ → Prop
  | done (s : σ) : Walks enters s [] s
  | visit {s t u w : σ} {n : ν} {below ns : List ν} (h : enters s n (t, below))
      (hbelow : Walks enters t below u) (hrest : Walks enters u ns w) : Walks enters s (n :: ns) w

variable {enter : σ → ν → σ × List ν} {enters : σ → ν → σ × List ν → Prop}

/-- **A walk that was cut nowhere ends without its bound**, in the same state. -/
theorem walks_of_cutAll : ∀ {depth : Nat} {ns : List ν} {s : σ}, cutAll enter depth s ns = [] →
    (∀ v ∈ visitsAll enter depth s ns, enters v.1 v.2 (enter v.1 v.2)) →
    Walks enters s ns (walkAll enter depth s ns) := by
  intro depth
  induction depth with
  | zero =>
    intro ns s hcut _
    cases ns with
    | nil => exact .done s
    | cons n ns => cases hcut
  | succ depth ih =>
    intro ns
    induction ns with
    | nil => exact fun _ _ => .done _
    | cons n ns ihns =>
      intro s hcut henters
      obtain ⟨hbelow, hrest⟩ := List.append_eq_nil_iff.mp hcut
      rw [visitsAll_cons] at henters
      exact .visit (henters (s, n) (List.mem_append_left _ List.mem_cons_self))
        (ih hbelow fun v hv => henters v (List.mem_append_left _ (List.mem_cons_of_mem _ hv)))
        (ihns hrest fun v hv => henters v (List.mem_append_right _ hv))

/-- a walk ends in one state only -/
theorem Walks.unique (h : ∀ s n r r', enters s n r → enters s n r' → r = r') {s t t' : σ}
    {ns : List ν} (ht : Walks enters s ns t) (ht' : Walks enters s ns t') : t = t' := by
  induction ht generalizing t' with
  | done => cases ht'; rfl
  | visit hn _ _ ihbelow ihrest =>
    cases ht' with
    | visit hn' hbelow' hrest' =>
      obtain ⟨rfl, rfl⟩ := Prod.mk.inj (h _ _ _ _ hn hn')
      obtain rfl := ihbelow hbelow'
      exact ihrest hrest'

/-! ## walks that are cut nowhere -/

/-- **A walk that goes on below new nodes only is cut nowhere**, if it has more levels than there are
nodes to go on below. -/
theorem cutAll_of_seen {κ : Type} (key : ν → κ) (seen : σ → List κ) (stock : List κ) {depth : Nat}
    (hgrow : ∀ s n, seen s ⊆ seen (enter s n).1)
    (hnew : ∀ s n, (enter s n).2 ≠ [] →
      key n ∉ seen s ∧ key n ∈ seen (enter s n).1 ∧ key n ∈ stock)
    (hdepth : stock.length < depth) (s : σ) (ns : List ν) : cutAll enter depth s ns = [] := by
  apply List.eq_nil_iff_forall_not_mem.mpr
  intro m hm
  obtain ⟨l, hl, hlength⟩ := exists_descent_of_mem_cutAll hm
  have hrun : Run enter ns s (visitsAll enter depth s ns) (walkAll enter depth s ns) :=
    run_walkAll depth ns .start (List.Subset.refl _)
  have hseen := (hrun.pairwise (R := fun s t => seen s ⊆ seen t) (fun _ => List.Subset.refl _)
    List.Subset.trans fun v _ => hgrow v.1 v.2).sublist hl.sublist
  have hnodup : (l.map fun v => key v.2).Nodup := by
    refine List.pairwise_map.mpr (hseen.imp_of_mem fun {u v} hu hv huv e => ?_)
    exact (hnew v.1 v.2 (hl.goes v hv)).1 (e ▸ huv (hnew u.1 u.2 (hl.goes u hu)).2.1)
  have hstock : (l.map fun v => key v.2) ⊆ stock := fun k hk => by
    obtain ⟨v, hv, rfl⟩ := List.mem_map.mp hk
    exact (hnew v.1 v.2 (hl.goes v hv)).2.2
  have hle := length_le_of_nodup hnodup hstock
  rw [List.length_map, hlength] at hle
  omega

/-- a descent is along nodes of a kind, and then at most two levels on, if there are no more below any
other node -/
theorem Descent.split {vs : List (σ × ν)} {P : ν → Prop} (htwo : ∀ u v w, [u, v, w].Sublist vs →
      ¬ P u.2 → v.2 ∈ pushed enter u → w.2 ∈ pushed enter v → pushed enter w = []) :
    ∀ {l : List (σ × ν)}, Descent enter vs l →
      ∃ kept rest, l = kept ++ rest ∧ (∀ v ∈ kept, P v.2) ∧ rest.length ≤ 2
  | [], _ => ⟨[], [], rfl, fun _ hv => absurd hv List.not_mem_nil, Nat.zero_le 2⟩
  | u :: l, h => by
    by_cases hu : P u.2
    · obtain ⟨kept, rest, rfl, hkept, hrest⟩ := Descent.split htwo
        ⟨(List.sublist_cons_self u l).trans h.sublist, h.leads.tail,
          fun v hv => h.goes v (List.mem_cons_of_mem u hv)⟩
      refine ⟨u :: kept, rest, rfl, fun v hv => ?_, hrest⟩
      rcases List.mem_cons.mp hv with rfl | hv
      · exact hu
      · exact hkept v hv
    · refine ⟨[], u :: l, rfl, fun _ hv => absurd hv List.not_mem_nil, ?_⟩
      match l, h with
      | [], _ | [_], _ => simp
      | v :: w :: l, h =>
        have hsub : [u, v, w].Sublist vs := (List.sublist_append_left [u, v, w] l).trans h.sublist
        obtain ⟨huv, hleads⟩ := List.isChain_cons_cons.mp h.leads
        exact absurd (htwo u v w hsub hu huv (List.isChain_cons_cons.mp hleads).1)
          (h.goes w (by simp))

/-- **A walk that meets the nodes of a stock once at most is cut nowhere**, if it goes on at most two
levels below any other node, and has more levels than that and than there are nodes in the stock. -/
theorem cutAll_of_once [DecidableEq ν] {P : ν → Prop} (stock : List ν) (hP : ∀ n, P n → n ∈ stock)
    {depth : Nat} {s : σ} {ns : List ν}
    (honce : ∀ n, P n → ((visitsAll enter depth s ns).map Prod.snd).count n ≤ 1)
    (htwo : ∀ u v w, [u, v, w].Sublist (visitsAll enter depth s ns) →
      ¬ P u.2 → v.2 ∈ pushed enter u → w.2 ∈ pushed enter v → pushed enter w = [])
    (hdepth : stock.length + 2 < depth) : cutAll enter depth s ns = [] := by
  apply List.eq_nil_iff_forall_not_mem.mpr
  intro m hm
  obtain ⟨l, hl, hlength⟩ := exists_descent_of_mem_cutAll hm
  obtain ⟨kept, rest, rfl, hkept, hrest⟩ := hl.split htwo
  have hsub := ((List.sublist_append_left kept rest).trans hl.sublist).map Prod.snd
  have hnodup : (kept.map Prod.snd).Nodup := List.nodup_iff_count_le_one.mpr fun n => by
    by_cases hn : n ∈ kept.map Prod.snd
    · obtain ⟨v, hv, rfl⟩ := List.mem_map.mp hn
      exact Nat.le_trans (hsub.count_le _) (honce _ (hkept v hv))
    · rw [List.count_eq_zero.mpr hn]
      exact Nat.zero_le 1
  have hstock : kept.map Prod.snd ⊆ stock := fun n hn => by
    obtain ⟨v, hv, rfl⟩ := List.mem_map.mp hn
    exact hP _ (hkept v hv)
  have hle := length_le_of_nodup hnodup hstock
  rw [List.length_map] at hle
  rw [List.length_append] at hlength
  omega

end

end LinkRepair
