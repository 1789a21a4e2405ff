import LinkRepair.Proofs.Forest.Reach
import LinkRepair.Proofs.Repair.Steps

/-!
# The search for the classes above a class

The search looks at what it has found in the order in which it found it.  So it finds the classes in the
order of their distance, and all of them, whatever is above what.

* `Forest.Extends`            a class and one that heads a super type of it;
* `Forest.Searches`           the search without a bound;
* `searches_ancestors`        the search with a bound ends as that one does;
* `Forest.Ranked`             a stage of the search: what is found and what is still in the queue;
* `Ranked.near`               what is not farther away than the class that is looked at has been found;
* `Ranked.look`               to look at a class leads from one stage to the next;
* `mem_ancestors`             the ancestors of a class are the other classes that it inherits from;
* `ancestors_breadthFirst`    they are listed once each, nearest first.

The queue is the end of the list of the classes that were found, the class in question before them.  The
distances in it are those of its first class or one more, so what is put behind it does not come too
early.
-/

namespace LinkRepair

theorem nodup_eraseDups {α : Type} [BEq α] [LawfulBEq α] : ∀ l : List α, l.eraseDups.Nodup
  | [] => List.nodup_nil
  | a :: l => by
    rw [List.eraseDups_cons]
    refine List.nodup_cons.mpr ⟨fun ha => ?_, nodup_eraseDups _⟩
    rw [List.mem_eraseDups, List.mem_filter] at ha
    simp at ha
termination_by l => l.length
decreasing_by exact Nat.lt_succ_of_le (List.length_filter_le _ _)

theorem TypeRef.head?_eq_some {t : TypeRef} {s : SymbolId} :
    t.head? = some s ↔ ∃ arguments nullable, t = .named s arguments nullable := by
  cases t <;> simp [TypeRef.head?]

namespace Forest

/-- the class `a` has a super type, not a marker, at whose head is a classifier that is not missing and
that the class `b` owns -/
def Extends (F : Forest) (a b : DeclarationId) : Prop :=
  ∃ i s arguments nullable, F.class? a = some i ∧ .named s arguments nullable ∈ i.superTypes
    ∧ F.isMissing s = false ∧ F.owner? s = some b ∧ (F.class? b).isSome

section
variable {F : Forest} {a b c d : DeclarationId} {s : SymbolId}
  {queue found above : List DeclarationId}

/-! ## the classes directly above a class -/

theorem classOf?_eq_some : F.classOf? s = some b ↔
    F.isMissing s = false ∧ F.owner? s = some b ∧ (F.declaration? b).any Declaration.isClass = true := by
  unfold classOf?
  split
  · rename_i h
    simp [h]
  · rename_i h
    rw [Option.filter_eq_some_iff]
    simp [h]

theorem mem_bases : b ∈ F.bases a ↔ ∃ c t s, F.class? a = some c ∧ t ∈ c.superTypes
    ∧ t.head? = some s ∧ F.classOf? s = some b := by
  unfold bases
  cases F.class? a with
  | none => simp
  | some c =>
    simp only [List.mem_filterMap]
    constructor
    · rintro ⟨s, ⟨t, ht, hs⟩, hb⟩
      exact ⟨c, t, s, rfl, ht, hs, hb⟩
    · rintro ⟨_, t, s, hc, ht, hs, hb⟩
      obtain rfl := Option.some.inj hc
      exact ⟨s, ⟨t, ht, hs⟩, hb⟩

theorem isSome_class?_eq : (F.class? b).isSome = (F.declaration? b).any Declaration.isClass := by
  unfold class? Declaration.isClass
  cases F.declaration? b <;> rfl

theorem extends_iff : F.Extends a b ↔ b ∈ F.bases a := by
  rw [mem_bases]
  constructor
  · rintro ⟨i, s, arguments, nullable, hi, ht, hs, ho, hb⟩
    exact ⟨i, _, s, hi, ht, rfl, classOf?_eq_some.mpr ⟨hs, ho, isSome_class?_eq ▸ hb⟩⟩
  · rintro ⟨i, t, s, hi, ht, hs, hb⟩
    obtain ⟨arguments, nullable, rfl⟩ := TypeRef.head?_eq_some.mp hs
    obtain ⟨hmissing, ho, hclass⟩ := classOf?_eq_some.mp hb
    exact ⟨i, s, arguments, nullable, hi, ht, hmissing, ho, isSome_class?_eq ▸ hclass⟩

theorem inherits_iff : F.Inherits d b ↔ Relation.ReflTransGen F.Extends d b := by
  rw [show F.Extends = fun a b => b ∈ F.bases a from
    funext fun _ => funext fun _ => propext extends_iff]
  rfl

theorem isSome_of_mem_bases (h : b ∈ F.bases a) : (F.declaration? b).isSome := by
  obtain ⟨_, _, _, _, _, _, _, hb⟩ := extends_iff.mpr h
  rw [isSome_class?_eq] at hb
  cases hx : F.declaration? b with
  | none => simp [hx] at hb
  | some x => rfl

/-! ## the search without a bound -/

/-- the search for the classes above `d`, from the queue and what has been found, until there is nothing
left to look at -/
inductive Searches (F : Forest) (d : DeclarationId) :
    List DeclarationId → List DeclarationId → List DeclarationId → Prop
  | done {found : List DeclarationId} : Searches F d [] found found
  | look {c : DeclarationId} {queue found above : List DeclarationId}
      (h : Searches F d (queue ++ freshOnes d found (F.bases c))
        (found ++ freshOnes d found (F.bases c)) above) : Searches F d (c :: queue) found above

/-- what is found new was not found before, and is found once -/
theorem nodup_append_freshOnes {bases : List DeclarationId} (h : found.Nodup) :
    (found ++ freshOnes d found bases).Nodup := by
  refine List.nodup_append.mpr ⟨h, nodup_eraseDups _, ?_⟩
  rintro a ha b hb rfl
  exact (mem_freshOnes.mp hb).2.2 ha

/-- a search that looks at every class once is done before its bound -/
theorem searches_ancestorsWithin : ∀ {bound : Nat} {queue found : List DeclarationId}, found.Nodup →
    (∀ b ∈ found, (F.declaration? b).isSome) →
    queue.length + F.declarations.size ≤ bound + found.length →
    F.Searches d queue found (F.ancestorsWithin d bound queue found) := by
  intro bound
  induction bound with
  | zero =>
    intro queue found hnodup hthere hbound
    have hle := length_le_of_declared hnodup hthere
    obtain rfl : queue = [] := List.eq_nil_of_length_eq_zero (by omega)
    exact .done
  | succ bound ih =>
    intro queue found hnodup hthere hbound
    cases queue with
    | nil => exact .done
    | cons c queue =>
      refine .look (ih (nodup_append_freshOnes hnodup) ?_ ?_)
      · intro b hb
        rcases List.mem_append.mp hb with hb | hb
        · exact hthere b hb
        · exact isSome_of_mem_bases (mem_freshOnes.mp hb).1
      · simp only [List.length_cons, List.length_append] at hbound ⊢
        omega

/-- **The search for the classes above a class ends**, whatever is above what. -/
theorem searches_ancestors (F : Forest) (d : DeclarationId) : F.Searches d [d] [] (F.ancestors d) :=
  searches_ancestorsWithin List.nodup_nil (fun _ hb => absurd hb List.not_mem_nil)
    (by simp only [List.length_cons, List.length_nil]; omega)

theorem Searches.unique (h : F.Searches d queue found above) :
    ∀ {above'}, F.Searches d queue found above' → above = above' := by
  induction h with
  | done => rintro _ ⟨⟩; rfl
  | look _ ih =>
    rintro above' ⟨⟩
    exact ih ‹_›

/-- a search finds the same where the bases are the same -/
theorem Searches.congr {G : Forest} {P : DeclarationId → Prop} (h : F.Searches d queue found above)
    (hbases : ∀ a, P a → G.bases a = F.bases a) (hclosed : ∀ a, P a → ∀ b ∈ F.bases a, P b) :
    (∀ a ∈ queue, P a) → G.Searches d queue found above := by
  induction h with
  | done => exact fun _ => .done
  | @look c queue found above _ ih =>
    intro hqueue
    have hc := hqueue c List.mem_cons_self
    refine .look ?_
    rw [hbases c hc]
    refine ih fun a ha => ?_
    rcases List.mem_append.mp ha with ha | ha
    · exact hqueue a (List.mem_cons_of_mem _ ha)
    · exact hclosed c hc a (mem_freshOnes.mp ha).1

/-! ## stages of the search -/

/-- a stage of the search for the classes above `d`: what was found is listed once each and by distance,
and the queue, the classes that are still to be looked at, is the end of that list -/
structure Ranked (F : Forest) (d : DeclarationId) (queue found : List DeclarationId) : Prop where
  reached : ∀ b ∈ d :: found, Relation.ReflTransGen F.Extends d b
  nodup : (d :: found).Nodup
  looked : ∀ a ∈ d :: found, a ∈ queue ∨ F.bases a ⊆ d :: found
  suffix : queue <:+ d :: found
  sorted : (d :: found).Pairwise fun a b => distance F.Extends d a ≤ distance F.Extends d b
  span : ∀ c ∈ queue.head?, ∀ b ∈ d :: found, distance F.Extends d b ≤ distance F.Extends d c + 1

theorem ranked_start : F.Ranked d [d] [] where
  reached := fun b hb => by
    rw [List.mem_singleton.mp hb]
  nodup := List.nodup_singleton d
  looked := fun _ ha => .inl ha
  suffix := List.suffix_refl _
  sorted := List.pairwise_singleton _ _
  span := fun c hc b hb => by
    obtain rfl := Option.some.inj hc
    rw [List.mem_singleton.mp hb]
    exact Nat.le_succ _

theorem Ranked.le_of_mem (h : F.Ranked d (c :: queue) found) (hb : b ∈ queue) :
    distance F.Extends d c ≤ distance F.Extends d b :=
  (List.pairwise_cons.mp (h.sorted.sublist h.suffix.sublist)).1 b hb

/-- **What is not farther away than the class that is looked at has been found.** -/
theorem Ranked.near (h : F.Ranked d (c :: queue) found) (hb : Relation.ReflTransGen F.Extends d b)
    (hle : distance F.Extends d b ≤ distance F.Extends d c) : b ∈ d :: found := by
  -- by the distance: the class before the last step was looked at, for it is nearer than the queue
  induction hn : distance F.Extends d b using Nat.strong_induction_on generalizing b with
  | _ n ih =>
    by_cases hne : b = d
    · exact hne ▸ List.mem_cons_self
    · obtain ⟨a, ha, hab, hlt⟩ := exists_nearer hb hne
      have hfound : a ∈ d :: found := ih _ (hn ▸ hlt) ha (by omega) rfl
      rcases h.looked a hfound with hqueue | hbases
      · have hca : distance F.Extends d c ≤ distance F.Extends d a := by
          rcases List.mem_cons.mp hqueue with rfl | hqueue
          · exact Nat.le_refl _
          · exact h.le_of_mem hqueue
        omega
      · exact hbases (extends_iff.mp hab)

/-- what is found new is one step farther away -/
theorem Ranked.distance_fresh (h : F.Ranked d (c :: queue) found)
    (hb : b ∈ freshOnes d found (F.bases c)) :
    Relation.ReflTransGen F.Extends d b
      ∧ distance F.Extends d b = distance F.Extends d c + 1 := by
  obtain ⟨hbase, hne, hnew⟩ := mem_freshOnes.mp hb
  have hc := h.reached c (h.suffix.subset List.mem_cons_self)
  have hcb : F.Extends c b := extends_iff.mpr hbase
  refine ⟨hc.tail hcb, Nat.le_antisymm (distance_le_of_step hc hcb) ?_⟩
  by_contra hlt
  rcases List.mem_cons.mp (h.near (hc.tail hcb) (by omega)) with he | hfound
  · exact hne he
  · exact hnew hfound

/-- to look at a class puts its bases among what has been found -/
theorem Ranked.looked_look (h : F.Ranked d (c :: queue) found) (ha : a ∈ d :: found) :
    a ∈ queue ∨ F.bases a ⊆ d :: found ++ freshOnes d found (F.bases c) := by
  rcases h.looked a ha with hqueue | hbases
  · rcases List.mem_cons.mp hqueue with rfl | hqueue
    · refine .inr fun b hb => ?_
      by_cases hb' : b ∈ d :: found
      · exact List.mem_append_left _ hb'
      · obtain ⟨hne, hnew⟩ := not_or.mp (mt List.mem_cons.mpr hb')
        exact List.mem_append_right _ (mem_freshOnes.mpr ⟨hb, hne, hnew⟩)
    · exact .inl hqueue
  · exact .inr fun b hb => List.mem_append_left _ (hbases hb)

/-- **To look at a class leads from one stage to the next.** -/
theorem Ranked.look (h : F.Ranked d (c :: queue) found) :
    F.Ranked d (queue ++ freshOnes d found (F.bases c)) (found ++ freshOnes d found (F.bases c)) := by
  constructor
  all_goals rw [← List.cons_append]
  case reached =>
    intro b hb
    rcases List.mem_append.mp hb with hb | hb
    · exact h.reached b hb
    · exact (h.distance_fresh hb).1
  case nodup =>
    refine List.nodup_cons.mpr ⟨fun hd => ?_, nodup_append_freshOnes h.nodup.of_cons⟩
    rcases List.mem_append.mp hd with hd | hd
    · exact (List.nodup_cons.mp h.nodup).1 hd
    · exact (mem_freshOnes.mp hd).2.1 rfl
  case looked =>
    intro a ha
    rcases List.mem_append.mp ha with ha | ha
    · exact (h.looked_look ha).imp_left (List.mem_append_left _)
    · exact .inl (List.mem_append_right _ ha)
  case suffix =>
    exact List.suffix_append_self_iff.mpr ((List.suffix_cons c queue).trans h.suffix)
  case sorted =>
    refine List.pairwise_append.mpr
      ⟨h.sorted, List.pairwise_of_forall_mem_list fun a ha b hb => ?_, fun a ha b hb => ?_⟩
    · rw [(h.distance_fresh ha).2, (h.distance_fresh hb).2]
    · rw [(h.distance_fresh hb).2]
      exact h.span c rfl a ha
  case span =>
    intro c' hc' b hb
    have hcc' : distance F.Extends d c ≤ distance F.Extends d c' := by
      rcases List.mem_append.mp (List.mem_of_mem_head? hc') with hmem | hmem
      · exact h.le_of_mem hmem
      · rw [(h.distance_fresh hmem).2]
        exact Nat.le_succ _
    have hfar : distance F.Extends d b ≤ distance F.Extends d c + 1 := by
      rcases List.mem_append.mp hb with hb | hb
      · exact h.span c rfl b hb
      · exact (h.distance_fresh hb).2.le
    omega

/-- a search that starts from a stage ends in one -/
theorem Searches.ranked (h : F.Searches d queue found above) :
    F.Ranked d queue found → F.Ranked d [] above := by
  induction h with
  | done => exact fun hranked => hranked
  | look _ ih => exact fun hranked => ih hranked.look

/-! ## what the search finds -/

theorem ranked_ancestors (F : Forest) (d : DeclarationId) : F.Ranked d [] (F.ancestors d) :=
  (F.searches_ancestors d).ranked ranked_start

/-- the ancestors of a class are listed once each -/
theorem nodup_ancestors (F : Forest) (d : DeclarationId) : (F.ancestors d).Nodup :=
  (F.ranked_ancestors d).nodup.of_cons

/-- **The ancestors of a class are the other classes that it inherits from.** -/
theorem mem_ancestors : b ∈ F.ancestors d ↔ F.Inherits d b ∧ b ≠ d := by
  have hranked := F.ranked_ancestors d
  constructor
  · refine fun h => ⟨inherits_iff.mpr (hranked.reached b (List.mem_cons_of_mem _ h)), ?_⟩
    rintro rfl
    exact (List.nodup_cons.mp hranked.nodup).1 h
  · rintro ⟨h, hne⟩
    have hmem : b ∈ d :: F.ancestors d := by
      clear hne
      induction h with
      | refl => exact List.mem_cons_self
      | tail _ hb ih => exact (hranked.looked _ ih).resolve_left List.not_mem_nil hb
    exact (List.mem_cons.mp hmem).resolve_left hne

theorem inherits_of_mem_ancestors (h : b ∈ F.ancestors d) : F.Inherits d b := (mem_ancestors.mp h).1

/-- **The search for the classes above a class is breadth-first.**  It comes to an end, whatever is above
what; it lists each of the other classes that the class extends, on any number of steps, and nothing
else; and it lists those first to which fewer steps lead. -/
theorem ancestors_breadthFirst (F : Forest) (d : DeclarationId) :
    F.Searches d [d] [] (F.ancestors d)
      ∧ (F.ancestors d).Nodup
      ∧ (∀ b, b ∈ F.ancestors d ↔ Relation.ReflTransGen F.Extends d b ∧ b ≠ d)
      ∧ (F.ancestors d).Pairwise fun a b => distance F.Extends d a ≤ distance F.Extends d b := by
  refine ⟨F.searches_ancestors d, F.nodup_ancestors d, fun b => ?_, ?_⟩
  · rw [mem_ancestors, inherits_iff]
  · exact (List.pairwise_cons.mp (F.ranked_ancestors d).sorted).2

end

end Forest

end LinkRepair
