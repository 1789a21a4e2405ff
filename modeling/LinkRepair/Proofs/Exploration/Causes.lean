import LinkRepair.Proofs.Exploration.Soundness

/-!
# What causes tell

A cause is a path through the graph of classifiers.  It meets no classifier twice, ends in one that
is broken by itself, and every link of it is the answer to the question about its classifier.

* `Forest.Unenclosed`    a class that makes sense only inside another one and has lost it;
* `Forest.BoundedBy`     the edges from a type parameter to what its bounds mention, along which a
                         cause is passed on as it is;
* `Cause.Justified`      the reason for one link;
* `Memo.Keeps`           every link of a cause is kept under its own classifier, and has its reason;
* `Explores.justified`   a run keeps to that;
* `cause_justified`      so does any history of questions.

While a classifier is on the path, the memo has no answer for it; so it is in none of the causes that
are kept meanwhile, and may be put in front of them.
-/

namespace LinkRepair

namespace Forest

/-- a class that makes sense only inside another one, and is inside none or only inside a stand-in -/
def Unenclosed (F : Forest) (s : SymbolId) : Prop :=
  ∃ d x c, F.owner? s = some d ∧ F.declaration? d = some x ∧ x.class? = some c
    ∧ (c.isInner = true ∨ c.kind = .enumEntry)
    ∧ ∀ e y, F.enclosingClass d = some e → F.declaration? e = some y → y.origin = .missing

/-- a type parameter, and a classifier that one of its bounds mentions -/
def BoundedBy (F : Forest) (s t : SymbolId) : Prop :=
  ∃ x p type, F.definition? s = some x ∧ x.typeParameter? = some p ∧ type ∈ p.bounds
    ∧ t ∈ type.mentioned

end Forest

/-- the reason for a link.  A class passes on the cause of what it depends on directly, or through
the bounds of type parameters. -/
def Cause.Justified (F : Forest) : Cause → Prop
  | .missing s => F.isMissing s = true
  | .missingEnclosing s => F.Unenclosed s
  | .due s root => (∃ x c, F.definition? s = some x ∧ x.class? = some c)
    ∧ ∃ t, F.DependsOn s t ∧ Relation.ReflTransGen F.BoundedBy t root.symbol

/-- a cause that is kept in all its links -/
structure Memo.Keeps (F : Forest) (m : Memo) (c : Cause) : Prop where
  nodup : (c.links.map Cause.symbol).Nodup
  link : ∀ l ∈ c.links, l.Justified F ∧ m.find? l.symbol = some (some l)

/-- the answers "broken" of a memo are kept in all their links, the first of which the classifier
itself leads to -/
def Memo.KeepsAll (F : Forest) (m : Memo) : Prop :=
  ∀ s c, m.find? s = some (some c) →
    m.Keeps F c ∧ Relation.ReflTransGen F.BoundedBy s c.symbol

section
variable {F : Forest} {m m' : Memo} {s t : SymbolId} {c : Cause}

theorem Memo.Keeps.keptIn (h : m.Keeps F c) (hk : m.KeptIn m') : m'.Keeps F c where
  nodup := h.nodup
  link := fun l hl => ⟨(h.link l hl).1, hk _ _ (h.link l hl).2⟩

theorem Memo.keepsAll_empty (F : Forest) : Memo.empty.KeepsAll F := by
  intro s c h
  rw [Memo.find?_empty] at h
  cases h

theorem Memo.KeepsAll.insert {v : Verdict} (h : m.KeepsAll F) (hs : m.find? s = none)
    (hv : ∀ c, v = some c → (m.insert s v).Keeps F c
      ∧ Relation.ReflTransGen F.BoundedBy s c.symbol) : (m.insert s v).KeepsAll F := by
  intro t c ht
  rw [Memo.find?_insert] at ht
  split at ht
  · rename_i e
    rw [e]
    exact hv c (Option.some.inj ht)
  · obtain ⟨hc, hl⟩ := h t c ht
    exact ⟨hc.keptIn (Memo.KeptIn.insert v hs), hl⟩

/-- a link that is broken by itself is the whole cause -/
theorem Memo.keeps_insert (hc : c.links = [c]) (hs : c.symbol = s) (hj : c.Justified F) :
    (m.insert s (some c)).Keeps F c where
  nodup := by
    rw [hc]
    exact List.pairwise_singleton _ _
  link := by
    intro l hl
    rw [hc, List.mem_singleton] at hl
    rw [hl, Memo.find?_insert, if_pos hs]
    exact ⟨hj, rfl⟩

/-- a classifier without an answer may be put in front of a cause that is kept -/
theorem Memo.Keeps.due {root : Cause} (h : m.Keeps F root) (hs : m.find? s = none)
    (hj : (Cause.due s root).Justified F) : (m.insert s (some (.due s root))).Keeps F (.due s root) where
  nodup := by
    refine List.nodup_cons.mpr ⟨fun hmem => ?_, h.nodup⟩
    obtain ⟨l, hl, e⟩ := List.mem_map.mp hmem
    have hfind := (h.link l hl).2
    rw [e] at hfind
    rw [show (Cause.due s root).symbol = s from rfl, hs] at hfind
    cases hfind
  link := by
    intro l hl
    rcases List.mem_cons.mp hl with rfl | hl
    · refine ⟨hj, ?_⟩
      rw [Memo.find?_insert]
      exact if_pos rfl
    · exact ⟨(h.link l hl).1, Memo.KeptIn.insert _ hs _ _ (h.link l hl).2⟩

namespace Forest

/-- the cause of what is broken by itself -/
theorem justified_of_broken (h : F.standing s = .broken c) :
    c.links = [c] ∧ c.symbol = s ∧ c.Justified F := by
  by_cases hm : F.isMissing s = true
  · rw [standing_of_isMissing hm] at h
    cases h
    exact ⟨rfl, rfl, hm⟩
  · cases hx : F.definition? s with
    | none => exact absurd (by simp [isMissing, hx]) hm
    | some x =>
      have ho : x.origin ≠ .missing := fun e => hm (by simp [isMissing, hx, e])
      obtain ⟨d, hd, hx'⟩ := exists_owner?_of_definition? hx
      rw [standing_of_owner? hd hx', standingOf, if_neg ho] at h
      split at h
      · rename_i info hi
        split at h
        · rename_i hb
          rw [Bool.and_eq_true] at hb
          cases h
          exact ⟨rfl, rfl, d, x, info, hd, hx', class?_eq_some.mpr hi, needsEnclosing_iff.mp hb.1,
            lacksEnclosing_iff.mp hb.2⟩
        · cases h
      · cases h
      · cases h

/-- a class depends on what it rests on -/
theorem dependsOn_of_rests {needs : List SymbolId} (h : F.standing s = .rests needs true)
    (ht : t ∈ needs) : (∃ x c, F.definition? s = some x ∧ x.class? = some c) ∧ F.DependsOn s t := by
  have hnb : ¬ F.Broken s := fun hb => by
    obtain ⟨c, hc⟩ := broken_iff.mp hb
    rw [h] at hc
    cases hc
  refine ⟨?_, (dependsOn_iff_of_not_broken hnb).mpr (by rw [h]; exact ht)⟩
  obtain ⟨d, x, hd, hx, hdefined, hs⟩ := exists_of_standing_rests h
  rw [standingOf, if_neg hdefined] at hs
  split at hs
  · rename_i info hi
    exact ⟨x, info, definition?_of_owner? hd hx, class?_eq_some.mpr hi⟩
  · cases hs
  · cases hs

/-- whatever else rests on something is a type parameter -/
theorem boundedBy_of_rests {needs : List SymbolId} (h : F.standing s = .rests needs false)
    (ht : t ∈ needs) : F.BoundedBy s t := by
  obtain ⟨d, x, hd, hx, hdefined, hs⟩ := exists_of_standing_rests h
  rw [standingOf, if_neg hdefined] at hs
  split at hs
  · split at hs <;> cases hs
  · rename_i p hp
    cases hs
    obtain ⟨type, htype, hmem⟩ := List.mem_flatMap.mp ht
    exact ⟨x, p, type, definition?_of_owner? hd hx, typeParameter?_eq_some.mpr hp, htype, hmem⟩
  · cases hs
    exact absurd ht List.not_mem_nil

end Forest

end

/-! ## the search -/

/-- what an outcome says of the classifiers in `l`: a cause is kept in all its links, and one of the
classifiers leads to it -/
structure Outcome.Justified (F : Forest) (l : List SymbolId) (o : Outcome) : Prop where
  memo : o.memo.KeepsAll F
  cause : ∀ c, o.verdict = some c →
    o.memo.Keeps F c ∧ ∃ t ∈ l, Relation.ReflTransGen F.BoundedBy t c.symbol

section
variable {F : Forest} {path : List SymbolId} {s : SymbolId}

theorem justified_leave {o : Outcome} (hm : o.memo.KeepsAll F) (hs : o.memo.find? s = none)
    (hv : ∀ c, o.verdict = some c → (o.memo.insert s (some c)).Keeps F c
      ∧ Relation.ReflTransGen F.BoundedBy s c.symbol) :
    (leave path.length s o).Justified F [s] where
  memo := by
    rcases leave_memo path.length s o with e | ⟨e, -⟩
    · rw [e]
      refine hm.insert hs fun c hc => ?_
      rw [hc]
      exact hv c hc
    · rw [e]
      exact hm
  cause := by
    intro c hc
    rw [leave_verdict] at hc
    rw [leave_memo_some hc]
    exact ⟨(hv c hc).1, s, List.mem_singleton_self s, (hv c hc).2⟩

/-- **A run keeps every cause in all its links.** -/
theorem Explores.justified {m : Memo} {o : Outcome} (h : Explores F path m s o) :
    m.KeepsAll F → o.Justified F [s] := by
  induction h using Explores.rec
    (motive_2 := fun path m l o _ => m.KeepsAll F → o.Justified F l) with
  | @kept path m s v hm =>
    intro hk
    refine ⟨hk, fun c hc => ?_⟩
    dsimp only at hc
    rw [hc] at hm
    exact ⟨(hk s c hm).1, s, List.mem_singleton_self s, (hk s c hm).2⟩
  | met hm hp =>
    exact fun hk => ⟨hk, fun c hc => by cases hc⟩
  | @broken path m s c hm hp hst =>
    intro hk
    refine justified_leave hk hm fun c' hc' => ?_
    obtain rfl := Option.some.inj hc'
    obtain ⟨hl, hs, hj⟩ := Forest.justified_of_broken hst
    refine ⟨Memo.keeps_insert hl hs hj, ?_⟩
    rw [hs]
  | @rests path m s needs isClass o hm hp hst ho ih =>
    intro hk
    have hio := ih hk
    have hfind := ho.find?_head hm
    refine justified_leave hio.memo hfind fun c hc => ?_
    obtain ⟨root, hroot, rfl⟩ := Option.map_eq_some_iff.mp hc
    obtain ⟨hkeeps, t, ht, hlead⟩ := hio.cause root hroot
    cases isClass with
    | true =>
      obtain ⟨hclass, hdep⟩ := Forest.dependsOn_of_rests hst ht
      exact ⟨hkeeps.due hfind ⟨hclass, t, hdep, hlead⟩, .refl⟩
    | false =>
      exact ⟨hkeeps.keptIn (Memo.KeptIn.insert _ hfind),
        .head (Forest.boundedBy_of_rests hst ht) hlead⟩
  | nil =>
    rename_i hk
    exact ⟨hk, fun c hc => by cases hc⟩
  | @stop path m s rest o c ho hc ih =>
    rename_i hk
    have h := ih hk
    refine ⟨h.memo, fun c hc => ?_⟩
    obtain ⟨hkeeps, t, ht, hlead⟩ := h.cause c hc
    rw [List.mem_singleton.mp ht] at hlead
    exact ⟨hkeeps, s, List.mem_cons_self, hlead⟩
  | @next path m s rest first later ho hv hlater iho ihl =>
    rename_i hk
    have h := ihl (iho hk).memo
    refine ⟨h.memo, fun c hc => ?_⟩
    obtain ⟨hkeeps, t, ht, hlead⟩ := h.cause c hc
    exact ⟨hkeeps, t, List.mem_cons_of_mem _ ht, hlead⟩

end

/-! ## questions -/

namespace Forest

section
variable {F : Forest} {memo : Memo}

theorem keepsAll_explore (h : memo.KeepsAll F) (s : SymbolId) :
    (F.explore memo s).2.KeepsAll F := by
  obtain ⟨o, ho, e⟩ := explores_explore F memo s
  rw [e]
  exact (ho.justified h).memo

/-- any history of questions keeps every cause in all its links -/
theorem Asked.keepsAll (h : F.Asked .empty memo) : memo.KeepsAll F :=
  Asked.invariant (P := Memo.KeepsAll F) (fun _ s hm => keepsAll_explore hm s) h
    (Memo.keepsAll_empty F)

/-- a cause that is given is kept -/
theorem exists_find?_of_cause {k : Cause} {m : Memo}
    (hk : (∃ s, F.explore memo s = (some k, m)) ∨ ∃ t, F.exploreType memo t = (some k, m)) :
    F.Asked memo m ∧ ∃ s, m.find? s = some (some k) := by
  rcases hk with ⟨s, hk⟩ | ⟨t, hk⟩
  · have hm : m = (F.explore memo s).2 := by rw [hk]
    rw [hm]
    exact ⟨.symbol .refl s, s, by rw [find?_explore, hk]⟩
  · have hm : m = (F.exploreType memo t).2 := by rw [hk]
    have hv : (F.exploreFirst memo t.mentioned).1 = some k := congrArg Prod.fst hk
    obtain ⟨s, _, hs⟩ := exists_find?_of_exploreFirst hv
    rw [hm]
    exact ⟨.type .refl t, s, hs⟩

/-- **Causes are justified simple paths.**  A cause that is the answer to a question about a symbol or
a type, after any history of questions, meets no classifier twice, and each link has its reason; the
last one is broken by itself; and each link is the answer to any later question about its
classifier. -/
theorem cause_justified (h : F.Asked .empty memo) {k : Cause} {m : Memo}
    (hk : (∃ s, F.explore memo s = (some k, m)) ∨ ∃ t, F.exploreType memo t = (some k, m)) :
    (k.links.map Cause.symbol).Nodup
      ∧ ((∃ s, k.innermost = .missing s ∧ F.isMissing s = true)
        ∨ ∃ s, k.innermost = .missingEnclosing s ∧ F.Unenclosed s)
      ∧ (∀ s root, .due s root ∈ k.links → (∃ x c, F.definition? s = some x ∧ x.class? = some c)
        ∧ ∃ t, F.DependsOn s t ∧ Relation.ReflTransGen F.BoundedBy t root.symbol)
      ∧ ∀ l ∈ k.links, ∀ m', F.Asked m m' → (F.explore m' l.symbol).1 = some l := by
  obtain ⟨ha, s, hs⟩ := exists_find?_of_cause hk
  obtain ⟨hkeeps, -⟩ := (h.trans ha).keepsAll s k hs
  refine ⟨hkeeps.nodup, ?_, fun s root hl => (hkeeps.link _ hl).1, fun l hl m' hm' => ?_⟩
  · have hj := (hkeeps.link _ k.innermost_mem_links).1
    cases hi : k.innermost with
    | missing s =>
      rw [hi] at hj
      exact .inl ⟨s, rfl, hj⟩
    | missingEnclosing s =>
      rw [hi] at hj
      exact .inr ⟨s, rfl, hj⟩
    | due s root => exact absurd hi (k.innermost_ne_due s root)
  · rw [explore_of_find? (hm'.keptIn _ _ (hkeeps.link l hl).2)]

end

/-- two classes that are each other's super type; the second one also has as super type a type
parameter, which is bounded by a class that lost the class around it -/
def boundedPair : Forest where
  name := "lib"
  files := #[]
  symbols := #[⟨.classLike, none, some ⟨0⟩⟩, ⟨.classLike, none, some ⟨1⟩⟩,
    ⟨.typeParameter, none, some ⟨2⟩⟩, ⟨.classLike, none, some ⟨3⟩⟩]
  declarations :=
    #[⟨⟨0⟩, "A", .defined, none, .undefined,
        .ofClass { ClassInfo.blank with superTypes := [.simple ⟨1⟩] }⟩,
      ⟨⟨1⟩, "B", .defined, none, .undefined,
        .ofClass { ClassInfo.blank with superTypes := [.simple ⟨0⟩, .simple ⟨2⟩] }⟩,
      ⟨⟨2⟩, "T", .defined, none, .undefined, .ofTypeParameter ⟨[.simple ⟨3⟩]⟩⟩,
      ⟨⟨3⟩, "Inner", .defined, none, .undefined,
        .ofClass { ClassInfo.blank with isInner := true }⟩]
  expressions := #[]

/-- the cause of `A` passes through `B`, and through the type parameter without naming it; the answer
about `B` is the part of it from there on -/
theorem cause_justified_boundedPair :
    boundedPair.explore .empty ⟨0⟩
        = (some (.due ⟨0⟩ (.due ⟨1⟩ (.missingEnclosing ⟨3⟩))), (boundedPair.explore .empty ⟨0⟩).2)
      ∧ boundedPair.Unenclosed ⟨3⟩
      ∧ (boundedPair.explore (boundedPair.explore .empty ⟨0⟩).2 ⟨1⟩).1
        = some (.due ⟨1⟩ (.missingEnclosing ⟨3⟩)) := by
  have hk : boundedPair.explore .empty ⟨0⟩
      = (some (.due ⟨0⟩ (.due ⟨1⟩ (.missingEnclosing ⟨3⟩))), (boundedPair.explore .empty ⟨0⟩).2) :=
    Prod.ext (by decide) rfl
  obtain ⟨-, hin, -, hl⟩ := cause_justified Asked.refl (.inl ⟨⟨0⟩, hk⟩)
  refine ⟨hk, ?_, hl (.due ⟨1⟩ (.missingEnclosing ⟨3⟩)) (by decide) _ .refl⟩
  rcases hin with ⟨s, e, _⟩ | ⟨s, e, hs⟩
  · cases e
  · cases e
    exact hs

end Forest

end LinkRepair
