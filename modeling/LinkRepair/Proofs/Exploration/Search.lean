import Mathlib.Data.List.Perm.Subperm
import LinkRepair.Classifier.Exploration

/-!
# The search without a bound

`Forest.exploreWithin` carries a bound on its depth.  Here the search is given by rules that have
none, and the function is shown to follow them to their end whenever the bound leaves room for
every symbol of the forest:

* `Explores F path memo s o`      the search from `s` below `path` ends with the outcome `o`;
* `ExploresAll F path memo l o`   the same for a list, up to the first broken classifier;
* `explores_explore`              every question is answered by a run of the rules;
* `Explores.unique`               the rules leave no choice.

A symbol stands on the path once only, and only bound symbols get there, so a path is never longer
than the store of symbols.  What a run does to the memo is read off the rules: nothing is forgotten
(`Explores.keptIn`), and every broken answer that is kept names a classifier for which it is kept
itself (`Explores.closed`).
-/

namespace LinkRepair

mutual

inductive Explores (F : Forest) : List SymbolId → Memo → SymbolId → Outcome → Prop
  | kept {path : List SymbolId} {memo : Memo} {s : SymbolId} {v : Verdict}
      (hm : memo.find? s = some v) : Explores F path memo s ⟨v, none, memo⟩
  | met {path : List SymbolId} {memo : Memo} {s : SymbolId} {k : Nat}
      (hm : memo.find? s = none) (hk : positionOn s path = some k) :
      Explores F path memo s ⟨none, some k, memo⟩
  | broken {path : List SymbolId} {memo : Memo} {s : SymbolId} {c : Cause}
      (hm : memo.find? s = none) (hk : positionOn s path = none)
      (hs : F.standing s = .broken c) :
      Explores F path memo s (leave path.length s ⟨some c, none, memo⟩)
  | rests {path : List SymbolId} {memo : Memo} {s : SymbolId} {needs : List SymbolId}
      {isClass : Bool} {o : Outcome}
      (hm : memo.find? s = none) (hk : positionOn s path = none)
      (hs : F.standing s = .rests needs isClass) (ho : ExploresAll F (s :: path) memo needs o) :
      Explores F path memo s
        (leave path.length s ⟨o.verdict.map (blame s isClass), o.cut, o.memo⟩)

inductive ExploresAll (F : Forest) : List SymbolId → Memo → List SymbolId → Outcome → Prop
  | nil {path : List SymbolId} {memo : Memo} : ExploresAll F path memo [] ⟨none, none, memo⟩
  | stop {path : List SymbolId} {memo : Memo} {s : SymbolId} {rest : List SymbolId}
      {o : Outcome} {c : Cause} (ho : Explores F path memo s o) (hc : o.verdict = some c) :
      ExploresAll F path memo (s :: rest) o
  | next {path : List SymbolId} {memo : Memo} {s : SymbolId} {rest : List SymbolId}
      {first later : Outcome} (ho : Explores F path memo s first) (hv : first.verdict = none)
      (hl : ExploresAll F path first.memo rest later) :
      ExploresAll F path memo (s :: rest)
        ⟨later.verdict, higherCut first.cut later.cut, later.memo⟩

end

/-! ## the function follows the rules -/

section
variable {F : Forest}

/-- only a bound symbol rests on others -/
theorem Forest.isSome_symbol?_of_rests {s : SymbolId} {needs : List SymbolId} {isClass : Bool}
    (h : F.standing s = .rests needs isClass) : (F.symbol? s).isSome = true := by
  cases hs : F.symbol? s with
  | some x => rfl
  | none =>
    have ho : F.owner? s = none := by simp [Forest.owner?, hs]
    rw [Forest.standing_of_owner?_none ho] at h
    cases h

theorem Forest.index_lt_of_rests {s : SymbolId} {needs : List SymbolId} {isClass : Bool}
    (h : F.standing s = .rests needs isClass) : s.index < F.symbols.size := by
  have hs := Forest.isSome_symbol?_of_rests h
  unfold Forest.symbol? at hs
  simpa using hs

/-- a path is never longer than the store of symbols -/
theorem length_path_le {path : List SymbolId} (hnd : path.Nodup)
    (hin : ∀ t ∈ path, t.index < F.symbols.size) : path.length ≤ F.symbols.size := by
  have hsub : path ⊆ (List.range F.symbols.size).map SymbolId.mk := by
    intro t ht
    exact List.mem_map.mpr ⟨t.index, List.mem_range.mpr (hin t ht), rfl⟩
  have h := (List.subperm_of_subset hnd hsub).length_le
  rw [List.length_map, List.length_range] at h
  exact h

/-- one classifier after the other, by any function that follows the rules for one -/
theorem exploresAll_askInOrder {path : List SymbolId} {ask : Memo → SymbolId → Outcome}
    (h : ∀ memo s, Explores F path memo s (ask memo s)) :
    ∀ (l : List SymbolId) (memo : Memo), ExploresAll F path memo l (askInOrder ask memo l) := by
  intro l
  induction l with
  | nil => intro memo; exact .nil
  | cons s rest ih =>
    intro memo
    cases hv : (ask memo s).verdict with
    | some c =>
      have e : askInOrder ask memo (s :: rest) = ask memo s := by simp [askInOrder, hv]
      rw [e]
      exact .stop (h memo s) hv
    | none =>
      have e : askInOrder ask memo (s :: rest)
          = ⟨(askInOrder ask (ask memo s).memo rest).verdict,
            higherCut (ask memo s).cut (askInOrder ask (ask memo s).memo rest).cut,
            (askInOrder ask (ask memo s).memo rest).memo⟩ := by simp [askInOrder, hv]
      rw [e]
      exact .next (h memo s) hv (ih _)

/-- with room for every symbol, the bound is never reached -/
theorem explores_exploreWithin :
    ∀ (bound : Nat) (path : List SymbolId), path.Nodup →
      (∀ t ∈ path, t.index < F.symbols.size) → F.symbols.size < bound + path.length →
      ∀ (memo : Memo) (s : SymbolId), Explores F path memo s (F.exploreWithin bound path memo s) := by
  intro bound
  induction bound with
  | zero =>
    intro path hnd hin hroom
    have h := length_path_le hnd hin
    omega
  | succ bound ih =>
    intro path hnd hin hroom memo s
    unfold Forest.exploreWithin
    cases hm : memo.find? s with
    | some v => exact .kept hm
    | none =>
      dsimp only
      cases hk : positionOn s path with
      | some k => exact .met hm hk
      | none =>
        dsimp only
        cases hs : F.standing s with
        | broken c => exact .broken hm hk hs
        | rests needs isClass =>
          have hfresh : s ∉ path := positionOn_eq_none.mp hk
          have hin' : ∀ t ∈ s :: path, t.index < F.symbols.size := by
            intro t ht
            rcases List.mem_cons.mp ht with rfl | ht
            · exact Forest.index_lt_of_rests hs
            · exact hin t ht
          have hroom' : F.symbols.size < bound + (s :: path).length := by
            rw [List.length_cons]; omega
          have hask := ih (s :: path) (List.nodup_cons.mpr ⟨hfresh, hnd⟩) hin' hroom'
          exact .rests hm hk hs (exploresAll_askInOrder hask needs memo)

/-- **Every question is answered by a run of the rules.** -/
theorem explores_explore (F : Forest) (memo : Memo) (s : SymbolId) :
    ∃ o, Explores F [] memo s o ∧ F.explore memo s = (o.verdict, o.memo) := by
  refine ⟨F.exploreWithin (F.symbols.size + 1) [] memo s, ?_, rfl⟩
  refine explores_exploreWithin _ [] List.nodup_nil (by simp) ?_ memo s
  rw [List.length_nil]; omega

end

/-! ## the rules leave no choice -/

section
variable {F : Forest}

theorem Explores.unique {path : List SymbolId} {memo : Memo} {s : SymbolId} {o : Outcome}
    (h : Explores F path memo s o) : ∀ o', Explores F path memo s o' → o = o' := by
  induction h using Explores.rec
    (motive_2 := fun path memo l o _ => ∀ o', ExploresAll F path memo l o' → o = o') with
  | kept hm => intro o' h'; cases h' <;> simp_all
  | met hm hk => intro o' h'; cases h' <;> simp_all
  | broken hm hk hs => intro o' h'; cases h' <;> simp_all
  | rests hm hk hs ho ih =>
    intro o' h'
    cases h' with
    | kept hm' => rw [hm] at hm'; cases hm'
    | met _ hk' => rw [hk] at hk'; cases hk'
    | broken _ _ hs' => rw [hs] at hs'; cases hs'
    | rests _ _ hs' ho' =>
      rw [hs] at hs'
      cases hs'
      rw [ih _ ho']
  | nil => rename_i h'; cases h'; rfl
  | stop ho hc ih =>
    rename_i o' h'
    cases h' with
    | stop ho' _ => exact ih _ ho'
    | next ho' hv' _ =>
      rw [ih _ ho', hv'] at hc
      cases hc
  | next ho hv hl iho ihl =>
    rename_i o' h'
    cases h' with
    | stop ho' hc' =>
      rw [← iho _ ho', hv] at hc'
      cases hc'
    | next ho' _ hl' =>
      have e := iho _ ho'
      subst e
      rw [ihl _ hl']

end

/-! ## what a run does to the memo -/

/-- every answer of the first memo is an answer of the second one -/
def Memo.KeptIn (m m' : Memo) : Prop := ∀ s v, m.find? s = some v → m'.find? s = some v

theorem Memo.KeptIn.refl (m : Memo) : m.KeptIn m := fun _ _ h => h

theorem Memo.KeptIn.trans {m₁ m₂ m₃ : Memo} (h : m₁.KeptIn m₂) (h' : m₂.KeptIn m₃) :
    m₁.KeptIn m₃ := fun s v e => h' s v (h s v e)

theorem Memo.KeptIn.insert {m : Memo} {s : SymbolId} (v : Verdict) (h : m.find? s = none) :
    m.KeptIn (m.insert s v) := by
  intro t w e
  rw [Memo.find?_insert, if_neg]
  · exact e
  · rintro rfl
    rw [h] at e
    cases e

/-- a cause that is kept is also kept for the classifier that it names -/
def Memo.Closed (m : Memo) : Prop :=
  ∀ s c, m.find? s = some (some c) → m.find? c.symbol = some (some c)

theorem Memo.closed_empty : Memo.empty.Closed := by
  intro s c h
  rw [Memo.find?_empty] at h
  cases h

theorem Memo.Closed.insert {m : Memo} {s : SymbolId} {v : Verdict} (hm : m.Closed)
    (hs : m.find? s = none)
    (hv : ∀ c, v = some c → c.symbol = s ∨ m.find? c.symbol = some (some c)) :
    (m.insert s v).Closed := by
  intro t c h
  rw [Memo.find?_insert] at h ⊢
  by_cases ht : t = s
  · rw [if_pos ht] at h
    have hc : v = some c := Option.some.inj h
    rcases hv c hc with e | e
    · rw [if_pos e, hc]
    · rw [if_neg, e]
      rintro e'
      rw [e', hs] at e
      cases e
  · rw [if_neg ht] at h
    have e := hm t c h
    rw [if_neg, e]
    rintro e'
    rw [e', hs] at e
    cases e

/-- an answer is kept unless it is provisional -/
theorem leave_memo (depth : Nat) (s : SymbolId) (o : Outcome) :
    (leave depth s o).memo = o.memo.insert s o.verdict
      ∨ (leave depth s o).memo = o.memo ∧ o.verdict = none := by
  unfold leave
  dsimp only
  split
  · rename_i h
    rw [Bool.and_eq_true, Option.isNone_iff_eq_none] at h
    exact .inr ⟨rfl, h.2⟩
  · exact .inl rfl

theorem leave_memo_some {depth : Nat} {s : SymbolId} {o : Outcome} {c : Cause}
    (h : o.verdict = some c) : (leave depth s o).memo = o.memo.insert s (some c) := by
  rcases leave_memo depth s o with e | ⟨-, e⟩
  · rw [e, h]
  · rw [h] at e
    cases e

/-- leaving a classifier keeps nothing for those on the path above it -/
theorem find?_leave_path {path : List SymbolId} {s t : SymbolId} {o : Outcome}
    (hk : positionOn s path = none) (ht : t ∈ path) (h : o.memo.find? t = none) :
    (leave path.length s o).memo.find? t = none := by
  have hne : t ≠ s := fun e => positionOn_eq_none.mp hk (e ▸ ht)
  rcases leave_memo path.length s o with e | ⟨e, -⟩
  · rw [e, Memo.find?_insert, if_neg hne, h]
  · rw [e, h]

theorem keptIn_leave {depth : Nat} {s : SymbolId} {v : Verdict} {cut : Option Nat} {m : Memo}
    (h : m.find? s = none) : m.KeptIn (leave depth s ⟨v, cut, m⟩).memo := by
  rcases leave_memo depth s ⟨v, cut, m⟩ with e | ⟨e, -⟩
  · rw [e]; exact .insert _ h
  · rw [e]; exact .refl _

/-- the memo has the cause that the search returns with, under the classifier that it names -/
def Outcome.Named (o : Outcome) : Prop :=
  ∀ c, o.verdict = some c → o.memo.find? c.symbol = some (some c)

theorem closed_leave {depth : Nat} {s : SymbolId} {o : Outcome} (hs : o.memo.find? s = none)
    (hcl : o.memo.Closed)
    (hv : ∀ c, o.verdict = some c → c.symbol = s ∨ o.memo.find? c.symbol = some (some c)) :
    (leave depth s o).memo.Closed ∧ (leave depth s o).Named := by
  constructor
  · rcases leave_memo depth s o with e | ⟨e, -⟩
    · rw [e]; exact hcl.insert hs hv
    · rw [e]; exact hcl
  · intro c h
    rw [leave_verdict] at h
    rw [leave_memo_some h, Memo.find?_insert]
    rcases hv c h with e | e
    · rw [if_pos e]
    · rw [if_neg, e]
      rintro e'
      rw [e', hs] at e
      cases e

/-- a classifier that is broken by itself is the one that its cause names -/
theorem Forest.symbol_of_broken {F : Forest} {s : SymbolId} {c : Cause}
    (h : F.standing s = .broken c) : c.symbol = s := by
  unfold Forest.standing Forest.standingOf at h
  split at h
  · cases h; rfl
  · split at h
    · cases h; rfl
    · split at h
      · cases h; rfl
      · split at h
        · split at h <;> cases h
          rfl
        · cases h
        · cases h

section
variable {F : Forest}

/-- nothing is kept for the classifiers on the path -/
theorem Explores.find?_path {path : List SymbolId} {memo : Memo} {s : SymbolId} {o : Outcome}
    (h : Explores F path memo s o) :
    ∀ t ∈ path, memo.find? t = none → o.memo.find? t = none := by
  induction h using Explores.rec
    (motive_2 := fun path memo _ o _ => ∀ t ∈ path, memo.find? t = none → o.memo.find? t = none) with
  | kept hm => exact fun t _ e => e
  | met hm hk => exact fun t _ e => e
  | broken hm hk hs => exact fun t ht e => find?_leave_path hk ht e
  | rests hm hk hs ho ih =>
    exact fun t ht e => find?_leave_path hk ht (ih t (List.mem_cons_of_mem _ ht) e)
  | nil => assumption
  | stop ho hc ih => rename_i t ht e; exact ih t ht e
  | next ho hv hl iho ihl => rename_i t ht e; exact ihl t ht (iho t ht e)

/-- a classifier has no answer before the search leaves it -/
theorem ExploresAll.find?_head {path : List SymbolId} {s : SymbolId} {l : List SymbolId} :
    ∀ {memo : Memo} {o : Outcome}, ExploresAll F (s :: path) memo l o → memo.find? s = none →
      o.memo.find? s = none := by
  induction l with
  | nil => intro memo o h hm; cases h; exact hm
  | cons t rest ih =>
    intro memo o h hm
    cases h with
    | stop ho hc => exact ho.find?_path s List.mem_cons_self hm
    | next ho hv hl =>
      have h' := ih hl (ho.find?_path s List.mem_cons_self hm)
      exact h'

/-- **Nothing is forgotten.** -/
theorem Explores.keptIn {path : List SymbolId} {memo : Memo} {s : SymbolId} {o : Outcome}
    (h : Explores F path memo s o) : memo.KeptIn o.memo := by
  induction h using Explores.rec
    (motive_2 := fun _ memo _ o _ => memo.KeptIn o.memo) with
  | kept hm => exact .refl _
  | met hm hk => exact .refl _
  | broken hm hk hs => exact keptIn_leave hm
  | rests hm hk hs ho ih => exact ih.trans (keptIn_leave (ho.find?_head hm))
  | nil => exact .refl _
  | stop ho hc ih => exact ih
  | next ho hv hl iho ihl => exact iho.trans ihl

/-- **A broken answer is kept for the classifier that its cause names.** -/
theorem Explores.closed {path : List SymbolId} {memo : Memo} {s : SymbolId} {o : Outcome}
    (h : Explores F path memo s o) : memo.Closed → o.memo.Closed ∧ o.Named := by
  induction h using Explores.rec
    (motive_2 := fun _ memo _ o _ => memo.Closed → o.memo.Closed ∧ o.Named) with
  | kept hm =>
    intro hc
    refine ⟨hc, fun c e => ?_⟩
    dsimp only at e
    rw [e] at hm
    exact hc _ _ hm
  | met hm hk => exact fun hc => ⟨hc, fun c e => by cases e⟩
  | broken hm hk hs =>
    intro hc
    refine closed_leave hm hc (fun c e => .inl ?_)
    cases e
    exact Forest.symbol_of_broken hs
  | rests hm hk hs ho ih =>
    rename_i isClass o
    intro hc
    obtain ⟨hcl, hn⟩ := ih hc
    refine closed_leave (ho.find?_head hm) hcl (fun c e => ?_)
    obtain ⟨root, hr, rfl⟩ := Option.map_eq_some_iff.mp e
    cases isClass with
    | true => exact .inl rfl
    | false => exact .inr (hn root hr)
  | nil => rename_i hc; exact ⟨hc, fun c e => by cases e⟩
  | stop ho hc ih => rename_i hcl; exact ih hcl
  | next ho hv hl iho ihl => rename_i hcl; exact ihl (iho hcl).1

end

end LinkRepair
