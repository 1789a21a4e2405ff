import LinkRepair.Proofs.Exploration.Causes
import LinkRepair.Proofs.Exploration.Recursion

/-!
# Answers and what was asked before

Inside a cycle the search is cut where it comes around, which depends on where it came in, and a
broken answer found below such a cut is kept.  How much of an answer the history of questions can
change:

* `Forest.Faulty`          a broken classifier is reached;
* `settles_of_faulty`      where no faulty classifier is on a cycle, the answers are those of the
                           plain recursion, cycles of sound classifiers or not;
* `Links.reached`          the classifiers that a cause names are reached from the one it is about;
* `explore_eq_fresh`       whether there is a cause is never changed; the cause is not where no faulty
                           classifier is on a cycle, and its end is not where only one is broken;
* `explore_crossedPair`    two classes on a cycle, each broken on its own, whose causes do change.
-/

namespace LinkRepair

namespace Forest

/-- a classifier from which one is reached that is broken by itself -/
def Faulty (F : Forest) (s : SymbolId) : Prop :=
  ∃ t, Relation.ReflTransGen F.DependsOn s t ∧ F.Broken t

section
variable {F : Forest} {s t : SymbolId}

theorem Broken.faulty (h : F.Broken s) : F.Faulty s := ⟨s, .refl, h⟩

theorem Faulty.needs (h : F.Faulty t) (hn : F.Needs s t) : F.Faulty s := by
  obtain ⟨u, htu, hu⟩ := h
  exact ⟨u, .head (DependsOn.of_needs hn) htu, hu⟩

/-- an edge is one of the search, but for those of what is broken by itself -/
theorem DependsOn.needs (h : F.DependsOn s t)
    (hs : (F.definition? s).isNone ∨ F.judge (fun _ => none) s = none) : F.Needs s t := by
  rcases hs with hs | hs
  · exact absurd h (not_dependsOn_of_undefined (Option.isNone_iff_eq_none.mp hs))
  · refine (dependsOn_iff_of_not_broken fun hb => ?_).mp h
    obtain ⟨c, hc⟩ := broken_iff.mp hb
    rw [judge_eq, hc] at hs
    cases hs

/-- a faulty classifier is one whose answer is a cause, whatever was asked before -/
theorem Asked.explore_eq_none_iff_not_faulty {memo : Memo} (h : F.Asked .empty memo) (s : SymbolId) :
    (F.explore memo s).1 = none ↔ ¬ F.Faulty s := by
  rw [h.explore_fst_eq_none_iff, Faulty]
  push Not
  rfl

theorem faulty_iff_explore : F.Faulty s ↔ (F.explore .empty s).1 ≠ none := by
  rw [Ne, Asked.refl.explore_eq_none_iff_not_faulty, not_not]

/-! ## where no faulty classifier is on a cycle -/

/-- the recursion finds nothing where there is nothing to be found -/
theorem plainWithin_eq_none : ∀ {levels : Nat} {s : SymbolId}, ¬ F.Faulty s →
    F.plainWithin levels s = none := by
  intro levels
  induction levels with
  | zero => intro s _; rfl
  | succ levels ih =>
    intro s hs
    rw [plainWithin, judge_eq]
    cases hst : F.standing s with
    | broken c => exact absurd (broken_iff.mpr ⟨c, hst⟩).faulty hs
    | rests needs isClass =>
      have hnone : needs.findSome? (F.plainWithin levels) = none := by
        refine List.findSome?_eq_none_iff.mpr fun t ht => ih fun hf => hs (hf.needs ?_)
        unfold Needs
        rw [hst]
        exact ht
      rw [Standing.verdict, hnone, Option.map_none]

/-- one more level changes nothing, for faulty classifiers above each other are different ones -/
theorem plainVerdict_eq_of_faulty (hs : ∀ t, Relation.ReflTransGen F.Needs s t → F.Faulty t →
    ¬ Relation.TransGen F.Needs t t) : F.plainVerdict s = F.judge F.plainVerdict s := by
  have hneeds : ∀ t u, F.Needs t u ∧ F.Faulty u → F.Needs t u := fun _ _ h => h.1
  refine (induction_levels (R := fun t u => F.Needs t u ∧ F.Faulty u)
    (P := fun levels t => F.plainWithin (levels + 1) t = F.plainWithin levels t)
    hneeds (fun t hst htt => ?_) fun levels t ih => judge_congr fun u hu => ?_).symm
  · have hf : F.Faulty t := by
      obtain ⟨u, -, hut⟩ := Relation.TransGen.tail'_iff.mp htt
      exact hut.2
    exact hs t (Relation.ReflTransGen.mono hneeds _ _ hst) hf (Relation.TransGen.mono hneeds _ _ htt)
  · by_cases hf : F.Faulty u
    · exact ih u ⟨hu, hf⟩
    · rw [plainWithin_eq_none hf, plainWithin_eq_none hf]

/-- **Where no faulty classifier is on a cycle, the recursion settles the verdicts.** -/
theorem settles_of_faulty (hs : ∀ t, Relation.ReflTransGen F.Needs s t → F.Faulty t →
    ¬ Relation.TransGen F.Needs t t) : F.Settles (Relation.ReflTransGen F.Needs s) where
  judged := fun _ ht => plainVerdict_eq_of_faulty fun u hu => hs u (ht.trans hu)
  circular := fun t ht hc => plainWithin_eq_none fun hf => hs t ht hf hc
  needs := fun _ _ ht hu => ht.tail hu

/-! ## the end of a cause -/

theorem BoundedBy.dependsOn (h : F.BoundedBy s t) : F.DependsOn s t := by
  obtain ⟨x, p, type, hx, hp, ht, hm⟩ := h
  exact .bound hx hp ht hm

/-- the end of a cause is reached from the classifier at its front -/
theorem reaches_innermost : ∀ {c : Cause}, (∀ l ∈ c.links, l.Justified F) →
    Relation.ReflTransGen F.DependsOn c.symbol c.innermost.symbol := by
  intro c
  induction c with
  | missing => exact fun _ => .refl
  | missingEnclosing => exact fun _ => .refl
  | due s root ih =>
    intro h
    obtain ⟨-, t, hst, htr⟩ := h _ List.mem_cons_self
    have hroot := ih fun l hl => h l (List.mem_cons_of_mem _ hl)
    exact .head hst ((Relation.ReflTransGen.mono (fun _ _ => BoundedBy.dependsOn) _ _ htr).trans hroot)

/-- the link at the end of a cause is broken by itself -/
theorem broken_innermost {c : Cause} (h : c.innermost.Justified F) :
    F.Broken c.innermost.symbol := by
  cases hi : c.innermost with
  | missing s =>
    rw [hi] at h
    exact broken_iff.mpr ⟨_, standing_of_isMissing h⟩
  | missingEnclosing s =>
    rw [hi] at h
    obtain ⟨d, x, i, hd, hx, hc, hn, ho⟩ := h
    exact .unenclosed hd hx hc hn ho
  | due s root => exact absurd hi (c.innermost_ne_due s root)

variable {memo : Memo}

/-- what is broken by itself has the cause of its standing, whatever was asked before -/
theorem find?_of_broken (h : F.Asked .empty memo) {c : Cause} (hs : F.standing s = .broken c)
    {v : Verdict} (hv : memo.find? s = some v) : v = some c := by
  have hneeds : ∀ t, ¬ F.Needs s t := fun t ht => by
    unfold Needs at ht
    rw [hs] at ht
    exact List.not_mem_nil ht
  have hW := settles_of_faulty (F := F) (s := s) fun t hst _ htt => by
    rcases hst.cases_head with rfl | ⟨u, hu, -⟩
    · obtain ⟨u, hu, -⟩ := Relation.TransGen.head'_iff.mp htt
      exact hneeds u hu
    · exact hneeds u hu
  rw [h.plain hW (Memo.plain_empty F _) s v .refl hv, hW.judged s .refl, judge_eq, hs]
  rfl

/-- **A cause ends in a classifier that is reached and is broken by itself**, with the cause that
this one has in any history. -/
theorem innermost_of_explore (h : F.Asked .empty memo) {k : Cause}
    (hk : (F.explore memo s).1 = some k) :
    ∃ t, Relation.ReflTransGen F.DependsOn s t ∧ F.standing t = .broken k.innermost := by
  have ha : F.Asked .empty (F.explore memo s).2 := .symbol h s
  obtain ⟨hkeeps, hlead⟩ := ha.keepsAll s k (by rw [find?_explore, hk])
  obtain ⟨hj, hfind⟩ := hkeeps.link _ k.innermost_mem_links
  refine ⟨k.innermost.symbol, ?_, ?_⟩
  · exact (Relation.ReflTransGen.mono (fun _ _ => BoundedBy.dependsOn) _ _ hlead).trans
      (reaches_innermost fun l hl => (hkeeps.link l hl).1)
  · obtain ⟨c, hc⟩ := broken_iff.mp (broken_innermost hj)
    rw [hc, Option.some.inj (find?_of_broken ha hc hfind)]

/-! ## what the history can change -/

/-- **How far an answer depends on what was asked before.**  Whether a classifier is fully linked does
not.  Its cause does not where no faulty classifier that is reached is on a cycle.  Where only one
that is reached is broken by itself, the end of the cause does not. -/
theorem explore_eq_fresh (h : F.Asked .empty memo) (s : SymbolId) :
    ((F.explore memo s).1 = none ↔ (F.explore .empty s).1 = none)
      ∧ ((∀ t, Relation.ReflTransGen F.DependsOn s t → F.Faulty t →
          ¬ Relation.TransGen F.DependsOn t t) → (F.explore memo s).1 = (F.explore .empty s).1)
      ∧ ((∀ t u, Relation.ReflTransGen F.DependsOn s t → F.Broken t →
          Relation.ReflTransGen F.DependsOn s u → F.Broken u → t = u) →
        (F.explore memo s).1.map Cause.innermost = (F.explore .empty s).1.map Cause.innermost) := by
  have hnone : (F.explore memo s).1 = none ↔ (F.explore .empty s).1 = none := by
    rw [h.explore_eq_none_iff_not_faulty, Asked.refl.explore_eq_none_iff_not_faulty]
  refine ⟨hnone, fun hs => ?_, fun hone => ?_⟩
  · have hW := settles_of_faulty (F := F) (s := s) fun t hst hf htt =>
      hs t (Relation.ReflTransGen.mono (fun _ _ => DependsOn.of_needs) _ _ hst) hf
        (Relation.TransGen.mono (fun _ _ => DependsOn.of_needs) _ _ htt)
    have hanswer : ∀ {m : Memo}, F.Asked .empty m → (F.explore m s).1 = F.plainVerdict s := fun hm =>
      (plain_explore hW (hm.plain hW (Memo.plain_empty F _)) (F.standsAs_refl _ _) s).2 .refl
    rw [hanswer h, hanswer .refl]
  · cases hk : (F.explore memo s).1 with
    | none => rw [hnone.mp hk]
    | some k =>
      cases hk' : (F.explore .empty s).1 with
      | none =>
        rw [hnone.mpr hk'] at hk
        cases hk
      | some k' =>
        obtain ⟨t, hst, ht⟩ := innermost_of_explore h hk
        obtain ⟨u, hsu, hu⟩ := innermost_of_explore .refl hk'
        obtain rfl := hone t u hst (broken_iff.mpr ⟨_, ht⟩) hsu (broken_iff.mpr ⟨_, hu⟩)
        rw [ht] at hu
        rw [Option.map_some, Option.map_some, Standing.broken.inj hu]

end

/-- two classes that are each other's super type, and each of which has another one that is gone;
the class `C` has the super types `D`, which is its own super type, and one that is gone -/
def crossedPair : Forest where
  name := "lib"
  files := #[]
  symbols := #[⟨.classLike, none, some ⟨0⟩⟩, ⟨.classLike, none, some ⟨1⟩⟩,
    ⟨.classLike, none, some ⟨2⟩⟩, ⟨.classLike, none, some ⟨3⟩⟩, ⟨.classLike, none, none⟩,
    ⟨.classLike, none, none⟩]
  declarations :=
    #[⟨⟨0⟩, "A", .defined, none, .undefined,
        .ofClass { ClassInfo.blank with superTypes := [.simple ⟨1⟩, .simple ⟨4⟩] }⟩,
      ⟨⟨1⟩, "B", .defined, none, .undefined,
        .ofClass { ClassInfo.blank with superTypes := [.simple ⟨0⟩, .simple ⟨5⟩] }⟩,
      ⟨⟨2⟩, "C", .defined, none, .undefined,
        .ofClass { ClassInfo.blank with superTypes := [.simple ⟨3⟩, .simple ⟨4⟩] }⟩,
      ⟨⟨3⟩, "D", .defined, none, .undefined,
        .ofClass { ClassInfo.blank with superTypes := [.simple ⟨3⟩] }⟩]
  expressions := #[]

/-- `B` alone ends in a class that is gone for `A`, and after a question about `A` in one that is gone
for itself.  `C` is on no cycle, and its cause is the same. -/
theorem explore_crossedPair :
    (crossedPair.explore .empty ⟨1⟩).1 = some (.due ⟨1⟩ (.due ⟨0⟩ (.missing ⟨4⟩)))
      ∧ (crossedPair.explore (crossedPair.explore .empty ⟨0⟩).2 ⟨1⟩).1
        = some (.due ⟨1⟩ (.missing ⟨5⟩))
      ∧ (crossedPair.explore (crossedPair.explore .empty ⟨0⟩).2 ⟨2⟩).1
        = (crossedPair.explore .empty ⟨2⟩).1 := by
  have hdown : ∀ a ∈ [⟨2⟩, ⟨3⟩, (⟨4⟩ : SymbolId)], ∀ b, crossedPair.DependsOn a b →
      b ∈ [⟨3⟩, (⟨4⟩ : SymbolId)] := by
    have hneeds : ∀ a ∈ [⟨2⟩, ⟨3⟩, (⟨4⟩ : SymbolId)],
        ((crossedPair.definition? a).isNone ∨ crossedPair.judge (fun _ => none) a = none)
          ∧ (crossedPair.standing a).needs ⊆ [⟨3⟩, ⟨4⟩] := by
      decide
    exact fun a ha b hab => (hneeds a ha).2 (hab.needs (hneeds a ha).1)
  have hbelow : ∀ a ∈ [⟨2⟩, ⟨3⟩, (⟨4⟩ : SymbolId)], ∀ b, Relation.TransGen crossedPair.DependsOn a b →
      b ∈ [⟨3⟩, (⟨4⟩ : SymbolId)] := by
    intro a ha b hab
    induction hab with
    | single h => exact hdown a ha _ h
    | tail _ h ih => exact hdown _ (List.mem_cons_of_mem _ ih) _ h
  have hsound : ¬ crossedPair.Faulty ⟨3⟩ := by
    rw [faulty_iff_explore]
    decide
  refine ⟨by decide, by decide, ?_⟩
  refine (explore_eq_fresh (Asked.refl.symbol (F := crossedPair) ⟨0⟩) ⟨2⟩).2.1 fun t hst hf htt => ?_
  rcases Relation.reflTransGen_iff_eq_or_transGen.mp hst with rfl | hst
  · exact absurd (hbelow ⟨2⟩ (by decide) _ htt) (by decide)
  · rcases List.mem_cons.mp (hbelow ⟨2⟩ (by decide) _ hst) with rfl | ht
    · exact hsound hf
    · obtain ⟨u, hu, -⟩ := Relation.TransGen.head'_iff.mp htt
      rw [List.mem_singleton.mp ht] at hu
      exact not_dependsOn_of_undefined (Option.isNone_iff_eq_none.mp (by decide)) hu

end Forest

end LinkRepair
