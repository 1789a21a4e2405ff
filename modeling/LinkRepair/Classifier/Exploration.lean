import LinkRepair.Classifier.Standing

/-!
# Exploration of classifiers

Whether a classifier is fully linked is decided by a depth-first search over what it rests on.
Answers are kept in a memo.  Classifiers may rest on each other in cycles: a classifier that is met
again on the path below itself is taken as linked there, and the search returns how high up the
path it was cut.  An answer "linked" that relied on such a cut above its classifier is only
provisional and is not kept; an answer "broken" always is, for a cut can not make it wrong.

* `Memo`                  the answers kept so far;
* `Forest.exploreWithin`  the search below a path;
* `Forest.explore`        the answer to a question, and the memo afterwards;
* `Forest.exploreFirst`   the first broken one of a list of classifiers;
* `Forest.exploreType`    the same for what a type mentions.

The bound of the search is one more than the number of symbols: only a bound symbol rests on
others, and no symbol stands on the path twice.
-/

namespace LinkRepair

/-! ## the memo -/

/-- answers by symbol; the first entry of a symbol counts -/
structure Memo where
  entries : List (SymbolId × Verdict)

namespace Memo

def empty : Memo := ⟨[]⟩

def find? (memo : Memo) (s : SymbolId) : Option Verdict := memo.entries.lookup s

def insert (memo : Memo) (s : SymbolId) (v : Verdict) : Memo := ⟨(s, v) :: memo.entries⟩

theorem find?_empty (s : SymbolId) : empty.find? s = none := rfl

theorem find?_insert (memo : Memo) (s : SymbolId) (v : Verdict) (t : SymbolId) :
    (memo.insert s v).find? t = if t = s then some v else memo.find? t := by
  unfold find? insert
  rw [List.lookup_cons]
  by_cases h : t = s
  · simp [h]
  · simp [beq_eq_false_iff_ne.mpr h, h]

end Memo

/-! ## the search -/

/-- the state of a search when it returns from a classifier -/
structure Outcome where
  verdict : Verdict
  /-- the position of the highest classifier on the path at which a cycle was cut -/
  cut : Option Nat
  memo : Memo

/-- the higher one of two cuts -/
def higherCut : Option Nat → Option Nat → Option Nat
  | some a, some b => some (min a b)
  | none, b => b
  | a, none => a

theorem higherCut_none_right (a : Option Nat) : higherCut a none = a := by cases a <;> rfl

/-- asks for one classifier after the other, up to the first broken one -/
def askInOrder (ask : Memo → SymbolId → Outcome) : Memo → List SymbolId → Outcome
  | memo, [] => ⟨none, none, memo⟩
  | memo, s :: rest =>
    let first := ask memo s
    match first.verdict with
    | some _ => first
    | none =>
      let later := askInOrder ask first.memo rest
      ⟨later.verdict, higherCut first.cut later.cut, later.memo⟩

/-- the position of a classifier on a path that lists the latest one first; the first one that was
entered is at position `0` -/
def positionOn (s : SymbolId) : List SymbolId → Option Nat
  | [] => none
  | t :: above => if t = s then some above.length else positionOn s above

theorem positionOn_eq_none {s : SymbolId} {path : List SymbolId} :
    positionOn s path = none ↔ s ∉ path := by
  induction path with
  | nil => simp [positionOn]
  | cons t above ih =>
    by_cases h : t = s
    · simp [positionOn, h]
    · simp [positionOn, h, ih, Ne.symm h]

/-- leaves a classifier at position `depth`: cuts at it or below it are forgotten, and its answer
is kept unless it is provisional -/
def leave (depth : Nat) (s : SymbolId) (o : Outcome) : Outcome :=
  let above := o.cut.filter fun k => k < depth
  if above.isSome && o.verdict.isNone then ⟨o.verdict, above, o.memo⟩
  else ⟨o.verdict, above, o.memo.insert s o.verdict⟩

theorem leave_verdict (depth : Nat) (s : SymbolId) (o : Outcome) :
    (leave depth s o).verdict = o.verdict := by
  unfold leave; dsimp only; split <;> rfl

/-- nothing is above the first position, so the answer there is always kept -/
theorem leave_zero (s : SymbolId) (o : Outcome) :
    leave 0 s o = ⟨o.verdict, none, o.memo.insert s o.verdict⟩ := by
  unfold leave
  simp

namespace Forest

def exploreWithin (F : Forest) : Nat → List SymbolId → Memo → SymbolId → Outcome
  | 0, _, memo, _ => ⟨none, none, memo⟩
  | bound + 1, path, memo, s =>
    match memo.find? s with
    | some v => ⟨v, none, memo⟩
    | none =>
      match positionOn s path with
      | some k => ⟨none, some k, memo⟩
      | none =>
        leave path.length s <|
          match F.standing s with
          | .broken c => ⟨some c, none, memo⟩
          | .rests needs isClass =>
            let o := askInOrder (F.exploreWithin bound (s :: path)) memo needs
            ⟨o.verdict.map (blame s isClass), o.cut, o.memo⟩

def explore (F : Forest) (memo : Memo) (s : SymbolId) : Verdict × Memo :=
  let o := F.exploreWithin (F.symbols.size + 1) [] memo s
  (o.verdict, o.memo)

def exploreFirst (F : Forest) (memo : Memo) : List SymbolId → Verdict × Memo
  | [] => (none, memo)
  | s :: rest =>
    match F.explore memo s with
    | (some c, memo) => (some c, memo)
    | (none, memo) => F.exploreFirst memo rest

def exploreType (F : Forest) (memo : Memo) (t : TypeRef) : Verdict × Memo :=
  F.exploreFirst memo t.mentioned

/-- an answer that was kept is given again -/
theorem explore_of_find? {F : Forest} {memo : Memo} {s : SymbolId} {v : Verdict}
    (h : memo.find? s = some v) : F.explore memo s = (v, memo) := by
  simp [explore, exploreWithin, h]

/-- every question leaves its answer in the memo -/
theorem find?_explore (F : Forest) (memo : Memo) (s : SymbolId) :
    (F.explore memo s).2.find? s = some (F.explore memo s).1 := by
  cases h : memo.find? s with
  | some v => rw [explore_of_find? h, h]
  | none =>
    unfold explore exploreWithin
    simp only [h, positionOn, List.length_nil]
    rw [leave_zero]
    simp [Memo.find?_insert]

/-- asking again changes nothing -/
theorem explore_explore (F : Forest) (memo : Memo) (s : SymbolId) :
    F.explore (F.explore memo s).2 s = F.explore memo s := by
  rw [explore_of_find? (find?_explore F memo s)]

theorem exploreType_marker (F : Forest) (memo : Memo) (e u : SymbolId) :
    F.exploreType memo (.marker e u) = (none, memo) := by
  simp [exploreType, TypeRef.mentioned_marker, exploreFirst]

end Forest

end LinkRepair
