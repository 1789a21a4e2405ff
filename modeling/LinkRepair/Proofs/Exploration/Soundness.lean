import LinkRepair.Proofs.Exploration.Reachability

/-!
# Memos that outlive the forest they were made for

A repair changes the forest while it goes on using its memo.  What a classifier was answered is then
no longer what the graph says; but what the graph and the memo say together stays right.

* `Forest.Spoiled`, `Forest.Tainted`   broken by itself or in the memo; one of these is reached;
* `Memo.Sound`                         no tainted classifier has the answer "linked";
* `explore_fst_eq_none_iff_not_tainted`   then an answer is "linked" just for what is not tainted;
* `Forest.Answers`                     what a list of questions is answered, now and later on;
* `Forest.Eases`                       a change that takes edges away and breaks nothing;
* `Memo.Sound.eases`                   such a change keeps a memo sound, and taints nothing.
-/

namespace LinkRepair

namespace Forest

/-- broken by itself, or found broken when it was asked about -/
def Spoiled (F : Forest) (m : Memo) (s : SymbolId) : Prop :=
  F.Broken s ∨ ∃ c, m.find? s = some (some c)

/-- a spoiled classifier is reached -/
def Tainted (F : Forest) (m : Memo) (s : SymbolId) : Prop := ∃ n, F.Hits (F.Spoiled m) n s

end Forest

/-- no tainted classifier has the answer "linked" -/
def Memo.Sound (m : Memo) (F : Forest) : Prop := ∀ s, m.find? s = some none → ¬ F.Tainted m s

namespace Forest

section
variable {F : Forest} {m : Memo} {s t : SymbolId}

theorem Spoiled.tainted (h : F.Spoiled m s) : F.Tainted m s := ⟨0, h⟩

theorem tainted_of_find? {c : Cause} (h : m.find? s = some (some c)) : F.Tainted m s :=
  ⟨0, .inr ⟨c, h⟩⟩

theorem Tainted.step (h : F.Tainted m t) (ht : t ∈ (F.standing s).needs) : F.Tainted m s := by
  obtain ⟨n, hn⟩ := h
  exact ⟨n + 1, hn.step ht⟩

/-- what reaches a tainted classifier is tainted -/
theorem tainted_of_hits {n : Nat} : F.Hits (F.Tainted m) n s → F.Tainted m s := by
  induction n generalizing s with
  | zero => exact fun h => h
  | succ n ih => rintro ⟨t, ht, h⟩; exact (ih h).step ht

theorem Tainted.keptIn {m' : Memo} (hk : m.KeptIn m') (h : F.Tainted m s) : F.Tainted m' s := by
  obtain ⟨n, hn⟩ := h
  refine ⟨n, hn.mono ?_⟩
  rintro t (ht | ⟨c, hc⟩)
  · exact .inl ht
  · exact .inr ⟨c, hk t _ hc⟩

/-- a classifier that rests on nothing is tainted only by itself -/
theorem not_tainted_of_needs_nil {isClass : Bool} (h : F.standing s = .rests [] isClass)
    (hm : ∀ c, m.find? s ≠ some (some c)) : ¬ F.Tainted m s := by
  rintro ⟨n, hn⟩
  cases n with
  | zero =>
    rcases hn with hb | ⟨c, hc⟩
    · obtain ⟨c, hc⟩ := broken_iff.mp hb
      rw [h] at hc
      cases hc
    · exact hm c hc
  | succ n =>
    obtain ⟨t, ht, _⟩ := hn
    rw [h] at ht
    exact absurd ht List.not_mem_nil

theorem agrees_of_sound (h : m.Sound F) : m.Agrees F (F.Spoiled m) where
  broken := fun _ hb => .inl hb
  known := fun _ h => h
  linked_right := fun s hs n hn => h s hs ⟨n, hn⟩
  broken_right := fun _ c hs => ⟨0, .inr ⟨c, hs⟩⟩

end

/-! ## questions -/

section
variable {F : Forest} {m : Memo}

theorem keptIn_explore (F : Forest) (m : Memo) (s : SymbolId) : m.KeptIn (F.explore m s).2 := by
  obtain ⟨o, ho, e⟩ := explores_explore F m s
  rw [e]
  exact ho.keptIn

theorem closed_explore (h : m.Closed) (s : SymbolId) : (F.explore m s).2.Closed := by
  obtain ⟨o, ho, e⟩ := explores_explore F m s
  rw [e]
  exact (ho.closed h).1

/-- **With a sound memo, an answer is "linked" just for what is not tainted.** -/
theorem explore_fst_eq_none_iff_not_tainted (h : m.Sound F) (s : SymbolId) :
    (F.explore m s).1 = none ↔ ¬ F.Tainted m s := by
  rw [explore_fst_eq_none_iff (agrees_of_sound h), Tainted, not_exists]

/-- a question taints nothing -/
theorem tainted_explore_iff (h : m.Sound F) (s t : SymbolId) :
    F.Tainted (F.explore m s).2 t ↔ F.Tainted m t := by
  have ha := agrees_explore (agrees_of_sound h) s
  constructor
  · rintro ⟨n, hn⟩
    refine tainted_of_hits (hn.mono ?_) (n := n)
    rintro u (hu | ⟨c, hc⟩)
    · exact ⟨0, .inl hu⟩
    · exact ha.broken_right u c hc
  · exact fun ht => ht.keptIn (keptIn_explore F m s)

theorem sound_explore (h : m.Sound F) (s : SymbolId) : (F.explore m s).2.Sound F := by
  intro t ht htaint
  obtain ⟨n, hn⟩ := (tainted_explore_iff h s t).mp htaint
  exact (agrees_explore (agrees_of_sound h) s).linked_right t ht n hn

theorem exploreFirst_cons_of_some {s : SymbolId} {rest : List SymbolId} {c : Cause}
    (h : (F.explore m s).1 = some c) :
    F.exploreFirst m (s :: rest) = (some c, (F.explore m s).2) := by
  conv_lhs => unfold exploreFirst
  rw [← h]
  split
  · rename_i e
    rw [e]
  · rename_i e
    rw [e] at h
    cases h

theorem exploreFirst_cons_of_none {s : SymbolId} {rest : List SymbolId}
    (h : (F.explore m s).1 = none) :
    F.exploreFirst m (s :: rest) = F.exploreFirst (F.explore m s).2 rest := by
  conv_lhs => unfold exploreFirst
  split
  · rename_i e
    rw [e] at h
    cases h
  · rename_i e
    rw [e]

theorem asked_exploreFirst (F : Forest) :
    ∀ (l : List SymbolId) (m : Memo), F.Asked m (F.exploreFirst m l).2 := by
  intro l
  induction l with
  | nil => intro m; exact .refl
  | cons s rest ih =>
    intro m
    have hs : F.Asked m (F.explore m s).2 := .symbol .refl s
    cases hv : (F.explore m s).1 with
    | some c =>
      rw [exploreFirst_cons_of_some hv]
      exact hs
    | none =>
      rw [exploreFirst_cons_of_none hv]
      exact hs.trans (ih _)

theorem Asked.keptIn {m' : Memo} (h : F.Asked m m') : m.KeptIn m' :=
  Asked.invariant (P := m.KeptIn) (fun m' s hm => hm.trans (keptIn_explore F m' s)) h (.refl m)

theorem Asked.closed {m' : Memo} (h : F.Asked m m') (hm : m.Closed) : m'.Closed :=
  Asked.invariant (P := Memo.Closed) (fun _ s hc => closed_explore hc s) h hm

theorem Asked.sound_and_tainted {m' : Memo} (h : F.Asked m m') (hm : m.Sound F) :
    m'.Sound F ∧ ∀ t, F.Tainted m' t ↔ F.Tainted m t :=
  Asked.invariant (P := fun m' => m'.Sound F ∧ ∀ t, F.Tainted m' t ↔ F.Tainted m t)
    (fun _ s hs => ⟨sound_explore hs.1 s, fun t => (tainted_explore_iff hs.1 s t).trans (hs.2 t)⟩)
    h ⟨hm, fun _ => Iff.rfl⟩

theorem Asked.sound {m' : Memo} (h : F.Asked m m') (hm : m.Sound F) : m'.Sound F :=
  (h.sound_and_tainted hm).1

theorem Asked.tainted_iff {m' : Memo} (h : F.Asked m m') (hm : m.Sound F) {t : SymbolId} :
    F.Tainted m' t ↔ F.Tainted m t := (h.sound_and_tainted hm).2 t

end

/-! ## answers to lists of questions -/

/-- a list of questions is answered `v`: no classifier of the list is tainted, or the first one that
is not known to be untainted has the cause in the memo -/
def Answers (F : Forest) (m : Memo) (l : List SymbolId) : Verdict → Prop
  | none => ∀ s ∈ l, ¬ F.Tainted m s
  | some c => ∃ before s after, l = before ++ s :: after ∧ (∀ t ∈ before, ¬ F.Tainted m t)
    ∧ m.find? s = some (some c)

section
variable {F : Forest} {m : Memo} {l : List SymbolId} {v : Verdict}

theorem answers_nil : F.Answers m [] none := fun _ hs => absurd hs List.not_mem_nil

theorem Answers.cons {s : SymbolId} (hs : ¬ F.Tainted m s) (h : F.Answers m l v) :
    F.Answers m (s :: l) v := by
  cases v with
  | none =>
    intro t ht
    rcases List.mem_cons.mp ht with rfl | ht
    · exact hs
    · exact h t ht
  | some c =>
    obtain ⟨before, t, after, rfl, hb, ht⟩ := h
    refine ⟨s :: before, t, after, rfl, fun u hu => ?_, ht⟩
    rcases List.mem_cons.mp hu with rfl | hu
    · exact hs
    · exact hb u hu

theorem answers_cons_some {s : SymbolId} {c : Cause} (h : m.find? s = some (some c)) :
    F.Answers m (s :: l) (some c) := ⟨[], s, l, rfl, fun _ ht => absurd ht List.not_mem_nil, h⟩

/-- the first cause counts -/
theorem Answers.append {l' : List SymbolId} {v' : Verdict} (h : F.Answers m l v)
    (h' : F.Answers m l' v') : F.Answers m (l ++ l') (v.or v') := by
  cases v with
  | some c =>
    obtain ⟨before, s, after, rfl, hb, hs⟩ := h
    exact ⟨before, s, after ++ l', by simp, hb, hs⟩
  | none =>
    rw [Option.none_or]
    induction l with
    | nil => exact h'
    | cons s l ih =>
      exact (ih (fun t ht => h t (List.mem_cons_of_mem _ ht))).cons (h s List.mem_cons_self)

/-- answers stay what they are while nothing is forgotten and nothing gets tainted -/
theorem Answers.mono {G : Forest} {m' : Memo} (h : F.Answers m l v) (hk : m.KeptIn m')
    (ht : ∀ s, ¬ F.Tainted m s → ¬ G.Tainted m' s) : G.Answers m' l v := by
  cases v with
  | none => exact fun s hs => ht s (h s hs)
  | some c =>
    obtain ⟨before, s, after, e, hb, hs⟩ := h
    exact ⟨before, s, after, e, fun t hbt => ht t (hb t hbt), hk s _ hs⟩

/-- what a list is answered is its answer from then on -/
theorem answers_exploreFirst : ∀ {l : List SymbolId} {m : Memo}, m.Sound F →
    F.Answers (F.exploreFirst m l).2 l (F.exploreFirst m l).1 := by
  intro l
  induction l with
  | nil => intro m _; exact answers_nil
  | cons s rest ih =>
    intro m hm
    have hfind := find?_explore F m s
    cases hv : (F.explore m s).1 with
    | some c =>
      rw [hv] at hfind
      rw [exploreFirst_cons_of_some hv]
      exact answers_cons_some hfind
    | none =>
      rw [exploreFirst_cons_of_none hv]
      have hs := sound_explore hm s
      have ha := asked_exploreFirst F rest (F.explore m s).2
      apply (ih hs).cons
      rw [ha.tainted_iff hs, tainted_explore_iff hm]
      exact (explore_fst_eq_none_iff_not_tainted hm s).mp hv

/-- **The answer to a list of questions is the one that it has.** -/
theorem Answers.exploreFirst_fst : ∀ {l : List SymbolId} {m : Memo}, m.Sound F →
    F.Answers m l v → (F.exploreFirst m l).1 = v := by
  intro l
  induction l with
  | nil =>
    intro m _ h
    cases v with
    | none => rfl
    | some c =>
      obtain ⟨before, s, after, e, _⟩ := h
      exact absurd e.symm (by simp)
  | cons s rest ih =>
    intro m hm h
    by_cases hs : F.Tainted m s
    · cases v with
      | none => exact absurd hs (h s List.mem_cons_self)
      | some c =>
        obtain ⟨before, t, after, e, hb, ht⟩ := h
        cases before with
        | nil =>
          obtain ⟨rfl, rfl⟩ := List.cons.inj e
          rw [exploreFirst_cons_of_some (c := c) (by rw [explore_of_find? ht])]
        | cons b before =>
          obtain ⟨rfl, -⟩ := List.cons.inj e
          exact absurd hs (hb s List.mem_cons_self)
    · have hv := (explore_fst_eq_none_iff_not_tainted hm s).mpr hs
      rw [exploreFirst_cons_of_none hv]
      apply ih (sound_explore hm s)
      have hk := keptIn_explore F m s
      have ht : ∀ t, ¬ F.Tainted m t → ¬ F.Tainted (F.explore m s).2 t :=
        fun t => mt (tainted_explore_iff hm s t).mp
      cases v with
      | none => exact fun t h' => ht t (h t (List.mem_cons_of_mem _ h'))
      | some c =>
        obtain ⟨before, t, after, e, hb, hfind⟩ := h
        cases before with
        | nil =>
          obtain ⟨rfl, rfl⟩ := List.cons.inj e
          exact absurd (tainted_of_find? hfind) hs
        | cons b before =>
          obtain ⟨rfl, rfl⟩ := List.cons.inj e
          exact ⟨before, t, after, rfl, fun u hu => ht u (hb u (List.mem_cons_of_mem _ hu)),
            hk t _ hfind⟩

theorem exploreFirst_fst_eq_none_iff (h : m.Sound F) :
    (F.exploreFirst m l).1 = none ↔ ∀ s ∈ l, ¬ F.Tainted m s := by
  constructor
  · intro hv s hs
    have ha := answers_exploreFirst (l := l) h
    rw [hv] at ha
    have := ha s hs
    rwa [(asked_exploreFirst F l m).tainted_iff h] at this
  · exact fun hl => Answers.exploreFirst_fst (v := none) h hl

/-- a cause that a list is answered with is in the memo -/
theorem exists_find?_of_exploreFirst {c : Cause} : ∀ {l : List SymbolId} {m : Memo},
    (F.exploreFirst m l).1 = some c →
    ∃ s ∈ l, (F.exploreFirst m l).2.find? s = some (some c) := by
  intro l
  induction l with
  | nil => intro m h; cases h
  | cons s rest ih =>
    intro m h
    cases hv : (F.explore m s).1 with
    | some c' =>
      rw [exploreFirst_cons_of_some hv] at h ⊢
      obtain rfl := Option.some.inj h
      exact ⟨s, List.mem_cons_self, by rw [find?_explore, hv]⟩
    | none =>
      rw [exploreFirst_cons_of_none hv] at h ⊢
      obtain ⟨t, ht, hf⟩ := ih h
      exact ⟨t, List.mem_cons_of_mem _ ht, hf⟩

end

/-! ## changes of the forest -/

/-- whatever was sound as long as others are, is so in `G`, and rests on nothing new there -/
def Eases (F G : Forest) : Prop :=
  ∀ s needs isClass, F.standing s = .rests needs isClass →
    ∃ needs', G.standing s = .rests needs' isClass ∧ needs' ⊆ needs

section
variable {F G H : Forest} {m : Memo}

theorem Eases.not_broken (h : F.Eases G) {s : SymbolId} (hs : ¬ F.Broken s) : ¬ G.Broken s := by
  rw [broken_iff] at hs ⊢
  rintro ⟨c, hc⟩
  cases e : F.standing s with
  | broken c' => exact hs ⟨c', e⟩
  | rests needs isClass =>
    obtain ⟨_, e', _⟩ := h s needs isClass e
    rw [e'] at hc
    cases hc

/-- what is tainted after such a change was so before -/
theorem Tainted.of_eases (h : F.Eases G) {s : SymbolId} (hs : G.Tainted m s) : F.Tainted m s := by
  obtain ⟨n, hn⟩ := hs
  induction n generalizing s with
  | zero =>
    rcases hn with hb | hc
    · by_cases hF : F.Broken s
      · exact ⟨0, .inl hF⟩
      · exact absurd hb (h.not_broken hF)
    · exact ⟨0, .inr hc⟩
  | succ n ih =>
    obtain ⟨t, ht, hn⟩ := hn
    cases e : F.standing s with
    | broken c => exact ⟨0, .inl (broken_iff.mpr ⟨c, e⟩)⟩
    | rests needs isClass =>
      obtain ⟨needs', e', hsub⟩ := h s needs isClass e
      rw [e'] at ht
      have ht' : t ∈ (F.standing s).needs := by rw [e]; exact hsub ht
      exact (ih hn).step ht'

end

end Forest

/-- **A change that eases the forest keeps a memo sound.** -/
theorem Memo.Sound.eases {F G : Forest} {m : Memo} (h : F.Eases G) (hm : m.Sound F) : m.Sound G :=
  fun s hs ht => hm s hs (ht.of_eases h)

theorem Memo.sound_empty (F : Forest) : Memo.empty.Sound F := by
  intro s h
  rw [Memo.find?_empty] at h
  cases h

end LinkRepair
