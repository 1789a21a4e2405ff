import LinkRepair.Proofs.Exploration.Soundness

/-!
# The plain recursion

Where classifiers rest on each other in no cycle, the search with its memo answers what a recursion
without one answers.

* `Forest.judge`           one step of the recursion, from verdicts on what a classifier rests on;
* `Forest.plainVerdict`    the recursion, as deep as there are symbols;
* `Forest.Shallow`         the classifiers below which the recursion is not deeper than a number;
* `Forest.Founds`          a set of classifiers at which the recursion comes to an end;
* `Forest.Settles`         a set on which it is one recursion, and finds nothing on cycles;
* `Memo.Plain`             the answers for these are those of the recursion;
* `Explores.plain`         a run keeps them so, also in a forest that was changed since, as long as
                           a classifier whose standing changed has its answer in the memo;
* `explore_eq_plainVerdict`   the answer to a question, whatever was asked before.

The classifiers on the path lead to the one that is searched, so a classifier that is met again is on
a cycle, and the search takes it as linked there.  That does no harm where the recursion finds nothing
on cycles; and where none is reached, the search is never cut.
-/

namespace LinkRepair

/-! ## the recursion -/

mutual

/-- the first cause in a type: that of its classifier, then those of its arguments in order -/
def TypeRef.firstCause (verdict : SymbolId → Verdict) : TypeRef → Verdict
  | .named classifier arguments _ =>
    (verdict classifier).or (TypeArgument.firstCause verdict arguments)
  | .marker .. => none

/-- the first cause in a list of arguments -/
def TypeArgument.firstCause (verdict : SymbolId → Verdict) : List TypeArgument → Verdict
  | [] => none
  | .star :: rest => TypeArgument.firstCause verdict rest
  | .projection type :: rest =>
    (type.firstCause verdict).or (TypeArgument.firstCause verdict rest)

end

/-- it is the first cause among the classifiers that the type mentions -/
theorem TypeRef.firstCause_eq (verdict : SymbolId → Verdict) (t : TypeRef) :
    t.firstCause verdict = t.mentioned.findSome? verdict := by
  induction t using TypeRef.rec
    (motive_2 := fun a => TypeArgument.firstCause verdict [a]
      = (TypeArgument.mentioned [a]).findSome? verdict)
    (motive_3 := fun as => TypeArgument.firstCause verdict as
      = (TypeArgument.mentioned as).findSome? verdict) with
  | named c as n ih =>
    simp only [TypeRef.firstCause, TypeRef.mentioned, List.findSome?_cons, ih]
    cases verdict c <;> rfl
  | marker e u => simp [TypeRef.firstCause, TypeRef.mentioned]
  | star => rfl
  | projection t ih => simp [TypeArgument.firstCause, TypeArgument.mentioned, ih]
  | nil => rfl
  | cons a as iha ihas =>
    cases a with
    | star => simpa [TypeArgument.firstCause, TypeArgument.mentioned] using ihas
    | projection t =>
      simp only [TypeArgument.firstCause, TypeArgument.mentioned, List.append_nil,
        Option.or_none] at iha
      simp [TypeArgument.firstCause, TypeArgument.mentioned, iha, ihas, List.findSome?_append]

namespace Forest

/-- one step of the recursion.  A missing classifier is the cause itself, and so is a class that
makes sense only inside another one and has lost it; else the first cause of a class is that of its
super types, in order, and then that of the class around it; that of a type parameter is the first
one of its bounds. -/
def judge (F : Forest) (verdict : SymbolId → Verdict) (s : SymbolId) : Verdict :=
  if F.isMissing s then some (.missing s)
  else
    (F.owner? s).bind fun d =>
      (F.declaration? d).bind fun x =>
        match x.content with
        | .ofClass c =>
          if c.needsEnclosing && F.lacksEnclosing d then some (.missingEnclosing s)
          else ((c.superTypes.findSome? (TypeRef.firstCause verdict)).or
            ((F.enclosingSymbol? d).bind verdict)).map (.due s)
        | .ofTypeParameter p => p.bounds.findSome? (TypeRef.firstCause verdict)
        | _ => none

/-- the recursion down to a number of levels -/
def plainWithin (F : Forest) : Nat → SymbolId → Verdict
  | 0 => fun _ => none
  | levels + 1 => F.judge (F.plainWithin levels)

def plainVerdict (F : Forest) : SymbolId → Verdict := F.plainWithin (F.symbols.size + 1)

end Forest

theorem findSome?_firstCause (verdict : SymbolId → Verdict) (types : List TypeRef) :
    types.findSome? (TypeRef.firstCause verdict)
      = (types.flatMap TypeRef.mentioned).findSome? verdict := by
  induction types with
  | nil => rfl
  | cons t rest ih =>
    rw [List.flatMap_cons, List.findSome?_append, List.findSome?_cons, ih, t.firstCause_eq]
    cases t.mentioned.findSome? verdict <;> rfl

theorem findSome?_congr {α β : Type} {f g : α → Option β} {l : List α} (h : ∀ a ∈ l, f a = g a) :
    l.findSome? f = l.findSome? g := by
  induction l with
  | nil => rfl
  | cons a rest ih =>
    rw [List.findSome?_cons, List.findSome?_cons, h a List.mem_cons_self,
      ih fun b hb => h b (List.mem_cons_of_mem _ hb)]

theorem Option.findSome?_toList {α β : Type} (f : α → Option β) (o : Option α) :
    o.toList.findSome? f = o.bind f := by
  cases o with
  | none => rfl
  | some a => simp

/-- a verdict by standing -/
def Standing.verdict (verdict : SymbolId → Verdict) (s : SymbolId) : Standing → Verdict
  | .broken c => some c
  | .rests needs isClass => (needs.findSome? verdict).map (blame s isClass)

namespace Forest

section
variable {F G : Forest} {s t : SymbolId}

/-- a step of the recursion judges by the standing -/
theorem judge_eq (F : Forest) (verdict : SymbolId → Verdict) (s : SymbolId) :
    F.judge verdict s = (F.standing s).verdict verdict s := by
  by_cases hm : F.isMissing s = true
  · rw [standing_of_isMissing hm, judge, if_pos hm]
    rfl
  · cases hx : F.definition? s with
    | none => exact absurd (by simp [isMissing, hx]) hm
    | some x =>
      obtain ⟨d, hd, hx'⟩ := exists_owner?_of_definition? hx
      have ho : x.origin ≠ .missing := fun e => hm (by simp [isMissing, hx, e])
      rw [judge, if_neg hm, hd, Option.bind_some, hx', Option.bind_some,
        standing_of_owner? hd hx', standingOf, if_neg ho]
      cases hc : x.content with
      | ofClass c =>
        dsimp only
        split
        · rfl
        · rw [findSome?_firstCause, ← Option.findSome?_toList, ← List.findSome?_append]
          rfl
      | ofTypeParameter p =>
        dsimp only
        rw [findSome?_firstCause]
        exact Option.map_id'.symm
      | _ => rfl

/-! ## how deep the recursion goes -/

/-- the edges along which the recursion goes -/
def Needs (F : Forest) (s t : SymbolId) : Prop := t ∈ (F.standing s).needs

/-- the recursion is not deeper than a number of levels -/
def Shallow (F : Forest) : Nat → SymbolId → Prop
  | 0, _ => False
  | levels + 1, s => ∀ t, F.Needs s t → F.Shallow levels t

/-- the recursion comes to an end -/
def Grounded (F : Forest) (s : SymbolId) : Prop := ∃ levels, F.Shallow levels s

theorem Shallow.succ {levels : Nat} : ∀ {s : SymbolId}, F.Shallow levels s →
    F.Shallow (levels + 1) s := by
  induction levels with
  | zero => exact fun h => h.elim
  | succ levels ih => exact fun h t ht => ih (h t ht)

theorem Grounded.needs (h : F.Grounded s) (ht : F.Needs s t) : F.Grounded t := by
  obtain ⟨levels, h⟩ := h
  cases levels with
  | zero => exact h.elim
  | succ levels => exact ⟨levels, h t ht⟩

theorem Grounded.below (h : F.Grounded s) (ht : Relation.TransGen F.Needs s t) : F.Grounded t := by
  induction ht with
  | single ht => exact h.needs ht
  | tail _ ht ih => exact ih.needs ht

/-- where the recursion comes to an end, no cycle is met -/
theorem Grounded.not_transGen (h : F.Grounded s) : ¬ Relation.TransGen F.Needs s s := by
  obtain ⟨levels, h⟩ := h
  induction levels generalizing s with
  | zero => exact h.elim
  | succ levels ih =>
    intro hs
    obtain ⟨t, hst, hts⟩ := Relation.TransGen.head'_iff.mp hs
    exact ih (h t hst) (Relation.TransGen.tail'_iff.mpr ⟨s, hts, hst⟩)

/-- what judges by equal verdicts judges equally -/
theorem judge_congr {verdict verdict' : SymbolId → Verdict}
    (h : ∀ t, F.Needs s t → verdict t = verdict' t) : F.judge verdict s = F.judge verdict' s := by
  rw [judge_eq, judge_eq]
  unfold Needs at h
  cases hs : F.standing s with
  | broken c => rfl
  | rests needs isClass =>
    rw [hs] at h
    have e : needs.findSome? verdict = needs.findSome? verdict' := findSome?_congr h
    simp only [Standing.verdict, e]

/-- more levels do not matter -/
theorem Shallow.plainWithin_succ {levels : Nat} : ∀ {s : SymbolId}, F.Shallow levels s →
    F.plainWithin (levels + 1) s = F.plainWithin levels s := by
  induction levels with
  | zero => exact fun h => h.elim
  | succ levels ih => exact fun h => judge_congr fun t ht => ih (h t ht)

theorem Shallow.plainWithin_eq {levels more : Nat} (h : F.Shallow levels s) (hle : levels ≤ more) :
    F.Shallow more s ∧ F.plainWithin more s = F.plainWithin levels s := by
  induction hle with
  | refl => exact ⟨h, rfl⟩
  | step _ ih => exact ⟨ih.1.succ, ih.1.plainWithin_succ.trans ih.2⟩

theorem index_lt_of_needs (h : F.Needs s t) : s.index < F.symbols.size := by
  unfold Needs at h
  cases e : F.standing s with
  | broken c =>
    rw [e] at h
    exact absurd h List.not_mem_nil
  | rests needs isClass => exact index_lt_of_rests e

/-- what one more level gains, the levels of the recursion gain for a classifier from which `R`
leads to no cycle: those above each other are different ones, and there is a level for every symbol -/
theorem induction_levels {R : SymbolId → SymbolId → Prop} {P : Nat → SymbolId → Prop}
    (hneeds : ∀ t u, R t u → F.Needs t u)
    (hs : ∀ t, Relation.ReflTransGen R s t → ¬ Relation.TransGen R t t)
    (step : ∀ levels t, (∀ u, R t u → P levels u) → P (levels + 1) t) :
    P (F.symbols.size + 1) s := by
  suffices h : ∀ (levels : Nat) (t : SymbolId) (path : List SymbolId), path.Nodup →
      (∀ a ∈ path, a.index < F.symbols.size) → (∀ a ∈ path, Relation.TransGen R a t) →
      Relation.ReflTransGen R s t → F.symbols.size < levels + path.length → P levels t from
    h _ s [] List.nodup_nil (by simp) (by simp) .refl (by simp)
  intro levels
  induction levels with
  | zero =>
    intro t path hnd hin _ _ hroom
    have h := length_path_le hnd hin
    omega
  | succ levels ih =>
    intro t path hnd hin hlead hst hroom
    refine step levels t fun u hu => ?_
    have hfresh : t ∉ path := fun ht => hs t hst (hlead t ht)
    refine ih u (t :: path) (List.nodup_cons.mpr ⟨hfresh, hnd⟩) ?_ ?_ (hst.tail hu) ?_
    · exact List.forall_mem_cons.mpr ⟨index_lt_of_needs (hneeds t u hu), hin⟩
    · exact List.forall_mem_cons.mpr ⟨.single hu, fun a ha => (hlead a ha).tail hu⟩
    · rw [List.length_cons]
      omega

/-- where no cycle is reached, the recursion comes to its end within its levels -/
theorem shallow_size (hs : ∀ t, Relation.ReflTransGen F.Needs s t →
    ¬ Relation.TransGen F.Needs t t) : F.Shallow (F.symbols.size + 1) s :=
  induction_levels (P := F.Shallow) (fun _ _ h => h) hs fun _ _ h => h

theorem Grounded.shallow_size (h : F.Grounded s) : F.Shallow (F.symbols.size + 1) s := by
  refine Forest.shallow_size fun t hst => ?_
  rcases Relation.reflTransGen_iff_eq_or_transGen.mp hst with rfl | hst
  · exact h.not_transGen
  · exact (h.below hst).not_transGen

theorem Shallow.plainVerdict {levels : Nat} (h : F.Shallow levels s) :
    F.plainVerdict s = F.plainWithin levels s := by
  rcases Nat.le_total levels (F.symbols.size + 1) with hle | hle
  · exact (h.plainWithin_eq hle).2
  · exact ((Grounded.shallow_size ⟨levels, h⟩).plainWithin_eq hle).2.symm

/-- **The recursion is one**: the verdict on a classifier is judged from those on what it rests on. -/
theorem Grounded.plainVerdict_eq (h : F.Grounded s) :
    F.plainVerdict s = F.judge F.plainVerdict s := by
  obtain ⟨levels, h⟩ := h
  cases levels with
  | zero => exact h.elim
  | succ levels =>
    rw [h.plainVerdict]
    exact judge_congr fun t ht => (h t ht).plainVerdict.symm

end

end Forest

/-! ## the search -/

/-- the recursion comes to an end at classifiers of `W`, and rests on others of `W` -/
structure Forest.Founds (F : Forest) (W : SymbolId → Prop) : Prop where
  grounded : ∀ s, W s → F.Grounded s
  needs : ∀ s t, W s → F.Needs s t → W t

/-- on `W` the verdicts are judged from each other, and those on a cycle are "linked" -/
structure Forest.Settles (F : Forest) (W : SymbolId → Prop) : Prop where
  judged : ∀ s, W s → F.plainVerdict s = F.judge F.plainVerdict s
  circular : ∀ s, W s → Relation.TransGen F.Needs s s → F.plainVerdict s = none
  needs : ∀ s t, W s → F.Needs s t → W t

/-- the answers for classifiers of `W` are those of the recursion -/
def Memo.Plain (F : Forest) (W : SymbolId → Prop) (m : Memo) : Prop :=
  ∀ s v, W s → m.find? s = some v → v = F.plainVerdict s

/-- what is not answered yet has the standing in `G` that it had in `F` -/
def Forest.StandsAs (F : Forest) (W : SymbolId → Prop) (G : Forest) (m : Memo) : Prop :=
  ∀ s, W s → m.find? s = none → G.standing s = F.standing s

/-- what an outcome says of a list of classifiers: the first cause among them -/
structure Outcome.Plain (F : Forest) (W : SymbolId → Prop) (l : List SymbolId) (o : Outcome) :
    Prop where
  memo : o.memo.Plain F W
  verdict : (∀ s ∈ l, W s) → o.verdict = l.findSome? F.plainVerdict

/-- the classifiers on the path lead to `s` -/
def Forest.LedTo (F : Forest) (W : SymbolId → Prop) (path : List SymbolId) (s : SymbolId) : Prop :=
  ∀ a ∈ path, W a → Relation.TransGen F.Needs a s

theorem Forest.founds_grounded (F : Forest) : F.Founds F.Grounded := ⟨fun _ h => h, fun _ _ h => h.needs⟩

section
variable {F G : Forest} {W : SymbolId → Prop} {m m' : Memo} {s : SymbolId} {path : List SymbolId}

theorem Forest.Founds.settles (hW : F.Founds W) : F.Settles W where
  judged := fun s hs => (hW.grounded s hs).plainVerdict_eq
  circular := fun s hs hc => absurd hc (hW.grounded s hs).not_transGen
  needs := hW.needs

theorem Forest.Settles.below (hW : F.Settles W) (hs : W s) {t : SymbolId}
    (h : Relation.TransGen F.Needs s t) : W t := by
  induction h with
  | single h => exact hW.needs _ _ hs h
  | tail _ h ih => exact hW.needs _ _ ih h

theorem Memo.plain_empty (F : Forest) (W : SymbolId → Prop) : Memo.empty.Plain F W := by
  intro s v _ h
  rw [Memo.find?_empty] at h
  cases h

theorem Memo.Plain.insert {v : Verdict} (h : m.Plain F W) (hv : W s → v = F.plainVerdict s) :
    (m.insert s v).Plain F W := by
  intro t w ht hw
  rw [Memo.find?_insert] at hw
  split at hw
  · rename_i e
    obtain rfl := Option.some.inj hw
    rw [e] at ht ⊢
    exact hv ht
  · exact h t w ht hw

theorem Forest.StandsAs.keptIn (h : F.StandsAs W G m) (hk : m.KeptIn m') :
    F.StandsAs W G m' := by
  intro s hs hm'
  refine h s hs ?_
  cases hm : m.find? s with
  | none => rfl
  | some v =>
    rw [hk s v hm] at hm'
    cases hm'

theorem Forest.standsAs_refl (F : Forest) (W : SymbolId → Prop) (m : Memo) : F.StandsAs W F m :=
  fun _ _ _ => rfl

/-- leaving a classifier passes on what was found, and keeps it if it is kept at all -/
theorem plain_leave {o : Outcome} (hm : o.memo.Plain F W)
    (hv : W s → o.verdict = F.plainVerdict s) : (leave path.length s o).Plain F W [s] where
  memo := by
    rcases leave_memo path.length s o with e | ⟨e, -⟩
    · rw [e]
      exact hm.insert hv
    · rw [e]
      exact hm
  verdict := fun hs => by
    rw [leave_verdict, hv (hs s (List.mem_singleton_self s)), List.findSome?_singleton]

/-- **A run finds what the recursion finds.**  By induction on the run: where a cycle is cut, the
classifier is on the path that leads to it, so it is on a cycle. -/
theorem Explores.plain (hW : F.Settles W) {o : Outcome} (h : Explores G path m s o) :
    m.Plain F W → F.StandsAs W G m → F.LedTo W path s → o.Plain F W [s] := by
  induction h using Explores.rec
    (motive_2 := fun path m l o _ => m.Plain F W → F.StandsAs W G m → (∀ t ∈ l, F.LedTo W path t) →
      o.Plain F W l) with
  | @kept path m s v hm =>
    intro hp _ _
    refine ⟨hp, fun hs => ?_⟩
    rw [List.findSome?_singleton]
    exact hp s v (hs s (List.mem_singleton_self s)) hm
  | @met path m s k hm hk =>
    intro hp _ hl
    refine ⟨hp, fun hs => ?_⟩
    have hs := hs s (List.mem_singleton_self s)
    have hmem : s ∈ path := by
      by_contra hn
      rw [positionOn_eq_none.mpr hn] at hk
      cases hk
    rw [List.findSome?_singleton, hW.circular s hs (hl s hmem hs)]
  | @broken path m s c hm hk hst =>
    intro hp hstands _
    refine plain_leave hp fun hs => ?_
    rw [hW.judged s hs, Forest.judge_eq, ← hstands s hs hm, hst]
    rfl
  | @rests path m s needs isClass o hm hk hst ho ih =>
    intro hp hstands hl
    have hfst : W s → F.standing s = .rests needs isClass := fun hs =>
      (hstands s hs hm).symm.trans hst
    have hneeds : W s → ∀ t ∈ needs, F.Needs s t := fun hs t ht => by
      unfold Forest.Needs
      rw [hfst hs]
      exact ht
    have hio := ih hp hstands fun t ht a ha hga => by
      rcases List.mem_cons.mp ha with rfl | ha
      · exact .single (hneeds hga t ht)
      · have hs := hW.below hga (hl a ha hga)
        exact (hl a ha hga).tail (hneeds hs t ht)
    refine plain_leave hio.memo fun hs => ?_
    have hv := hio.verdict fun t ht => hW.needs s t hs (hneeds hs t ht)
    dsimp only
    rw [hv, hW.judged s hs, Forest.judge_eq, hfst hs]
    rfl
  | nil =>
    rename_i hp _ _
    exact ⟨hp, fun _ => rfl⟩
  | @stop path m s rest o c ho hc ih =>
    rename_i hp hstands hl
    have h := ih hp hstands (hl s List.mem_cons_self)
    refine ⟨h.memo, fun hs => ?_⟩
    have hv := h.verdict fun t ht => hs t (by
      rw [List.mem_singleton.mp ht]
      exact List.mem_cons_self)
    rw [List.findSome?_singleton] at hv
    rw [hv] at hc
    rw [List.findSome?_cons, hv, hc]
  | @next path m s rest first later ho hv hlater iho ihl =>
    rename_i hp hstands hl
    have h := iho hp hstands (hl s List.mem_cons_self)
    have h' := ihl h.memo (hstands.keptIn ho.keptIn) fun t ht => hl t (List.mem_cons_of_mem _ ht)
    refine ⟨h'.memo, fun hs => ?_⟩
    have hfirst := h.verdict fun t ht => hs t (by
      rw [List.mem_singleton.mp ht]
      exact List.mem_cons_self)
    have hrest := h'.verdict fun t ht => hs t (List.mem_cons_of_mem _ ht)
    rw [List.findSome?_singleton, hv] at hfirst
    dsimp only
    rw [List.findSome?_cons, ← hfirst, hrest]

end

/-! ## questions -/

namespace Forest

section
variable {F G : Forest} {W : SymbolId → Prop} {m : Memo}

/-- a question has the answer of the recursion, also in a forest that was changed since -/
theorem plain_explore (hW : F.Settles W) (h : m.Plain F W) (hG : F.StandsAs W G m) (s : SymbolId) :
    (G.explore m s).2.Plain F W ∧ (W s → (G.explore m s).1 = F.plainVerdict s) := by
  obtain ⟨o, ho, e⟩ := explores_explore G m s
  have hp := ho.plain hW h hG fun _ ha => absurd ha List.not_mem_nil
  rw [e]
  refine ⟨hp.memo, fun hs => ?_⟩
  have hv := hp.verdict fun t ht => by rwa [List.mem_singleton.mp ht]
  rwa [List.findSome?_singleton] at hv

/-- the first cause among some classifiers is that of the recursion -/
theorem plain_exploreFirst (hW : F.Settles W) : ∀ {l : List SymbolId} {m : Memo}, m.Plain F W →
    F.StandsAs W G m → (G.exploreFirst m l).2.Plain F W
      ∧ ((∀ s ∈ l, W s) → (G.exploreFirst m l).1 = l.findSome? F.plainVerdict)
  | [], _, h, _ => ⟨h, fun _ => rfl⟩
  | s :: l, m, h, hG => by
    obtain ⟨hp, hv⟩ := plain_explore hW h hG s
    have hk := keptIn_explore G m s
    unfold exploreFirst
    generalize G.explore m s = answer at hp hv hk
    obtain ⟨_ | c, m'⟩ := answer
    · obtain ⟨hp', hv'⟩ := plain_exploreFirst hW (l := l) hp (hG.keptIn hk)
      refine ⟨hp', fun hl => ?_⟩
      rw [List.findSome?_cons, ← hv (hl s List.mem_cons_self)]
      exact hv' fun t ht => hl t (List.mem_cons_of_mem _ ht)
    · refine ⟨hp, fun hl => ?_⟩
      rw [List.findSome?_cons, ← hv (hl s List.mem_cons_self)]

theorem Asked.plain (hW : F.Settles W) {m' : Memo} (h : F.Asked m m') (hm : m.Plain F W) :
    m'.Plain F W :=
  Asked.invariant (P := fun m' => m'.Plain F W)
    (fun m' s hm' => (plain_explore hW hm' (F.standsAs_refl W m') s).1) h hm

/-- what the search needs, the classifier depends on -/
theorem DependsOn.of_needs {s t : SymbolId} (h : F.Needs s t) : F.DependsOn s t := by
  refine (dependsOn_iff_of_not_broken fun hb => ?_).mpr h
  obtain ⟨c, hc⟩ := broken_iff.mp hb
  unfold Needs at h
  rw [hc] at h
  exact absurd h List.not_mem_nil

/-- **The search with a memo answers as the plain recursion does**, cause included, for a classifier
below which no cycle is reached, whatever was asked before. -/
theorem explore_eq_plainVerdict {memo : Memo} (h : F.Asked .empty memo) {s : SymbolId}
    (hs : ∀ t, Relation.ReflTransGen F.DependsOn s t → ¬ Relation.TransGen F.DependsOn t t) :
    (F.explore memo s).1 = F.plainVerdict s
      ∧ ∀ t, Relation.ReflTransGen F.DependsOn s t →
        F.plainVerdict t = F.judge F.plainVerdict t := by
  have hground : ∀ t, Relation.ReflTransGen F.DependsOn s t → F.Grounded t := by
    intro t hst
    refine ⟨_, shallow_size fun u htu htt => ?_⟩
    have hsu := hst.trans (Relation.ReflTransGen.mono (fun _ _ => DependsOn.of_needs) _ _ htu)
    exact hs u hsu (Relation.TransGen.mono (fun _ _ => DependsOn.of_needs) _ _ htt)
  refine ⟨?_, fun t hst => (hground t hst).plainVerdict_eq⟩
  have hW := F.founds_grounded.settles
  exact (plain_explore hW (h.plain hW (Memo.plain_empty F _)) (F.standsAs_refl _ memo) s).2
    (hground s .refl)

end

theorem not_dependsOn_of_undefined {F : Forest} {s t : SymbolId} (h : F.definition? s = none) :
    ¬ F.DependsOn s t := by
  rintro (⟨hx, _, _, _⟩ | ⟨hd, hx, _, _, _, _⟩ | ⟨hx, _, _, _⟩)
  · rw [h] at hx
    cases hx
  · rw [definition?_of_owner? hd hx] at h
    cases h
  · rw [h] at hx
    cases hx

/-- where a rank goes down along every edge, no cycle is reached -/
theorem not_transGen_of_rank {α : Type} {edge : α → α → Prop} (within : α → Prop) (rank : α → Nat)
    (h : ∀ a b, within a → edge a b → within b ∧ rank b < rank a) {s : α} (hs : within s) :
    ∀ t, Relation.ReflTransGen edge s t → ¬ Relation.TransGen edge t t := by
  have hlt : ∀ {a b}, within a → Relation.TransGen edge a b → within b ∧ rank b < rank a := by
    intro a b ha hab
    induction hab with
    | single hab => exact h _ _ ha hab
    | tail _ hbc ih =>
      have := h _ _ ih.1 hbc
      exact ⟨this.1, Nat.lt_trans this.2 ih.2⟩
  intro t hst htt
  have ht : within t := by
    rcases Relation.reflTransGen_iff_eq_or_transGen.mp hst with rfl | hst
    · exact hs
    · exact (hlt hs hst).1
  exact Nat.lt_irrefl _ (hlt ht htt).2

/-- the class `C` has the super types `B` and one that is gone; `B` has the super type `A`, whose
super type is gone too; and `D` and `E` are on a cycle, from which `C` is reached -/
def belowCycle : Forest where
  name := "lib"
  files := #[]
  symbols := #[⟨.classLike, none, some ⟨0⟩⟩, ⟨.classLike, none, some ⟨1⟩⟩,
    ⟨.classLike, none, some ⟨2⟩⟩, ⟨.classLike, none, some ⟨3⟩⟩, ⟨.classLike, none, some ⟨4⟩⟩,
    ⟨.classLike, none, none⟩, ⟨.classLike, none, none⟩]
  declarations :=
    #[⟨⟨0⟩, "A", .defined, none, .undefined,
        .ofClass { ClassInfo.blank with superTypes := [.simple ⟨5⟩] }⟩,
      ⟨⟨1⟩, "B", .defined, none, .undefined,
        .ofClass { ClassInfo.blank with superTypes := [.simple ⟨0⟩] }⟩,
      ⟨⟨2⟩, "C", .defined, none, .undefined,
        .ofClass { ClassInfo.blank with superTypes := [.simple ⟨1⟩, .simple ⟨6⟩] }⟩,
      ⟨⟨3⟩, "D", .defined, none, .undefined,
        .ofClass { ClassInfo.blank with superTypes := [.simple ⟨4⟩, .simple ⟨2⟩] }⟩,
      ⟨⟨4⟩, "E", .defined, none, .undefined,
        .ofClass { ClassInfo.blank with superTypes := [.simple ⟨3⟩] }⟩]
  expressions := #[]

/-- `C` is met below the cycle first, and its cause is that of `B` all the same -/
theorem explore_belowCycle :
    (∀ t, Relation.ReflTransGen belowCycle.DependsOn ⟨2⟩ t →
        ¬ Relation.TransGen belowCycle.DependsOn t t)
      ∧ (belowCycle.explore (belowCycle.explore .empty ⟨3⟩).2 ⟨2⟩).1
        = some (.due ⟨2⟩ (.due ⟨1⟩ (.due ⟨0⟩ (.missing ⟨5⟩)))) := by
  have hs : ∀ t, Relation.ReflTransGen belowCycle.DependsOn ⟨2⟩ t →
      ¬ Relation.TransGen belowCycle.DependsOn t t := by
    refine not_transGen_of_rank (· ∈ [⟨0⟩, ⟨1⟩, ⟨2⟩, ⟨5⟩, ⟨6⟩])
      (fun s => if s.index < 5 then s.index + 1 else 0) (fun a b ha hab => ?_) (by decide)
    have hstands : ∀ a ∈ [⟨0⟩, ⟨1⟩, ⟨2⟩, ⟨5⟩, (⟨6⟩ : SymbolId)], (belowCycle.definition? a).isNone
        ∨ ∃ c ∈ [true, false], belowCycle.standing a = .rests (belowCycle.standing a).needs c := by
      decide
    have hdown : ∀ a ∈ [⟨0⟩, ⟨1⟩, ⟨2⟩, ⟨5⟩, (⟨6⟩ : SymbolId)], ∀ b ∈ (belowCycle.standing a).needs,
        b ∈ [⟨0⟩, ⟨1⟩, ⟨2⟩, ⟨5⟩, (⟨6⟩ : SymbolId)]
          ∧ (if b.index < 5 then b.index + 1 else 0) < (if a.index < 5 then a.index + 1 else 0) := by
      decide
    rcases hstands a ha with hx | ⟨_, _, hst⟩
    · exact absurd hab (not_dependsOn_of_undefined (Option.isNone_iff_eq_none.mp hx))
    · refine hdown a ha b ((dependsOn_iff_of_not_broken fun hb => ?_).mp hab)
      obtain ⟨c, hc⟩ := broken_iff.mp hb
      rw [hst] at hc
      cases hc
  refine ⟨hs, ?_⟩
  rw [(explore_eq_plainVerdict (Asked.refl.symbol (F := belowCycle) ⟨3⟩) hs).1]
  decide

end Forest

end LinkRepair
