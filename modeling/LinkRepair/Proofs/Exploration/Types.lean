import LinkRepair.Proofs.Exploration.History

/-!
# Questions about types

A type is asked about from its head inwards: its classifier, then its arguments in order, each in the
same way, up to the first answer "broken".  Stars and markers are passed over.  The memo that one
question leaves behind is the memo that the next one starts with.

* `TypeRef.erasures`             the classifiers that the markers in a type erase to;
* `find?_classifiers`            these apart, a type lists what it mentions, in the same order;
* `Forest.exploreNested`         the questions about a type, along its structure;
* `exploreType_eq_nested`        they are those about what the type mentions, one after the other;
* `Asked.find?_exploreFirst`     the answer to a list of questions is the one about the first faulty
                                 classifier in it, from then on;
* `exploreType_eq_find?`         so is the answer about a type, with the classifiers that it lists.

A broken classifier can have another cause when it is asked about in another order; what is asked here
stays the same later on because every cause that is found is kept.
-/

namespace LinkRepair

/-! ## the classifiers of a type -/

mutual

/-- the classifiers that the markers in a type erase to -/
def TypeRef.erasures : TypeRef → List SymbolId
  | .named _ arguments _ => TypeArgument.erasures arguments
  | .marker erasure _ => [erasure]

/-- the same for a list of arguments -/
def TypeArgument.erasures : List TypeArgument → List SymbolId
  | [] => []
  | .star :: rest => TypeArgument.erasures rest
  | .projection type :: rest => type.erasures ++ TypeArgument.erasures rest

end

mutual

theorem TypeRef.filter_classifiers (p : SymbolId → Bool) : ∀ t : TypeRef,
    (∀ s ∈ t.erasures, p s = false) → t.classifiers.filter p = t.mentioned.filter p
  | .named c arguments _, h => by
    have harguments := TypeArgument.filter_classifiers p arguments (by rwa [TypeRef.erasures] at h)
    rw [TypeRef.classifiers, TypeRef.mentioned, List.filter_cons, List.filter_cons, harguments]
  | .marker e _, h => by
    have he : p e = false := h e (by rw [TypeRef.erasures]; exact List.mem_singleton_self e)
    rw [TypeRef.classifiers, TypeRef.mentioned, List.filter_cons_of_neg (by rw [he]; decide),
      List.filter_nil]

theorem TypeArgument.filter_classifiers (p : SymbolId → Bool) : ∀ arguments : List TypeArgument,
    (∀ s ∈ TypeArgument.erasures arguments, p s = false) →
      (TypeArgument.classifiers arguments).filter p = (TypeArgument.mentioned arguments).filter p
  | [], _ => rfl
  | .star :: rest, h => TypeArgument.filter_classifiers p rest h
  | .projection t :: rest, h => by
    rw [TypeArgument.erasures] at h
    have ht := TypeRef.filter_classifiers p t fun s hs => h s (List.mem_append_left _ hs)
    have hrest := TypeArgument.filter_classifiers p rest fun s hs => h s (List.mem_append_right _ hs)
    rw [TypeArgument.classifiers, TypeArgument.mentioned, List.filter_append, List.filter_append, ht,
      hrest]

end

/-- what markers erase to apart, the first classifier of a kind is the first one mentioned -/
theorem TypeRef.find?_classifiers {p : SymbolId → Bool} {t : TypeRef}
    (h : ∀ s ∈ t.erasures, p s = false) : t.classifiers.find? p = t.mentioned.find? p := by
  rw [← List.head?_filter, ← List.head?_filter, t.filter_classifiers p h]

namespace Forest

/-! ## along the structure of a type -/

mutual

/-- asks about a type: about its classifier, then about its arguments -/
def exploreNested (F : Forest) : TypeRef → Memo → Verdict × Memo
  | .marker .., memo => (none, memo)
  | .named classifier arguments _, memo =>
    match F.explore memo classifier with
    | (some c, memo) => (some c, memo)
    | (none, memo) => F.exploreArguments arguments memo

/-- asks about the arguments of a type, up to the first broken one -/
def exploreArguments (F : Forest) : List TypeArgument → Memo → Verdict × Memo
  | [], memo => (none, memo)
  | .star :: rest, memo => F.exploreArguments rest memo
  | .projection type :: rest, memo =>
    match F.exploreNested type memo with
    | (some c, memo) => (some c, memo)
    | (none, memo) => F.exploreArguments rest memo

end

section
variable {F : Forest} {memo : Memo}

/-- a list of questions after another: it is asked if nothing broken was found before -/
theorem exploreFirst_append (l k : List SymbolId) (memo : Memo) :
    F.exploreFirst memo (l ++ k) = match F.exploreFirst memo l with
      | (some c, memo) => (some c, memo)
      | (none, memo) => F.exploreFirst memo k := by
  induction l generalizing memo with
  | nil => rfl
  | cons s l ih =>
    rw [List.cons_append]
    cases hs : (F.explore memo s).1 with
    | some c => rw [exploreFirst_cons_of_some hs, exploreFirst_cons_of_some hs]
    | none => rw [exploreFirst_cons_of_none hs, exploreFirst_cons_of_none hs, ih]

mutual

theorem exploreNested_eq (F : Forest) : ∀ (t : TypeRef) (memo : Memo),
    F.exploreNested t memo = F.exploreFirst memo t.mentioned
  | .marker e u, memo => by rw [exploreNested, TypeRef.mentioned_marker, exploreFirst]
  | .named c arguments n, memo => by
    rw [exploreNested, TypeRef.mentioned, exploreFirst]
    rcases F.explore memo c with ⟨_ | cause, memo'⟩
    · exact exploreArguments_eq F arguments memo'
    · rfl

theorem exploreArguments_eq (F : Forest) : ∀ (arguments : List TypeArgument) (memo : Memo),
    F.exploreArguments arguments memo = F.exploreFirst memo (TypeArgument.mentioned arguments)
  | [], _ => rfl
  | .star :: rest, memo => exploreArguments_eq F rest memo
  | .projection t :: rest, memo => by
    rw [exploreArguments, TypeArgument.mentioned, exploreFirst_append, exploreNested_eq F t memo]
    rcases F.exploreFirst memo t.mentioned with ⟨_ | cause, memo'⟩
    · exact exploreArguments_eq F rest memo'
    · rfl

end

/-- **To ask about a type is to ask about what it mentions**, in that order. -/
theorem exploreType_eq_nested (F : Forest) (memo : Memo) (t : TypeRef) :
    F.exploreType memo t = F.exploreNested t memo := (F.exploreNested_eq t memo).symm

/-! ## the first faulty classifier -/

instance (s : SymbolId) : Decidable (F.Faulty s) := decidable_of_iff _ faulty_iff_explore.symm

theorem Asked.tainted_iff_faulty (h : F.Asked .empty memo) (s : SymbolId) :
    F.Tainted memo s ↔ F.Faulty s := by
  rw [← not_iff_not, ← explore_fst_eq_none_iff_not_tainted (h.sound (Memo.sound_empty F)),
    h.explore_eq_none_iff_not_faulty]

/-- the answer that a list of questions has is the one about its first faulty classifier -/
theorem Answers.eq_find? {l : List SymbolId} {v : Verdict} (h : F.Asked .empty memo)
    (ha : F.Answers memo l v) :
    v = (l.find? fun s => F.Faulty s).bind fun s => (F.explore memo s).1 := by
  cases v with
  | none =>
    have hnone : l.find? (fun s => F.Faulty s) = none := List.find?_eq_none.mpr fun s hs => by
      rw [decide_eq_true_iff, ← h.tainted_iff_faulty]
      exact ha s hs
    rw [hnone, Option.bind_none]
  | some c =>
    obtain ⟨before, s, after, rfl, hbefore, hs⟩ := ha
    have hnone : before.find? (fun s => F.Faulty s) = none := List.find?_eq_none.mpr fun t ht => by
      rw [decide_eq_true_iff, ← h.tainted_iff_faulty]
      exact hbefore t ht
    have hfaulty : F.Faulty s := (h.tainted_iff_faulty s).mp (tainted_of_find? hs)
    have hfirst : (s :: after).find? (fun t => F.Faulty t) = some s :=
      List.find?_cons_of_pos (decide_eq_true hfaulty)
    rw [List.find?_append, hnone, Option.none_or, hfirst, Option.bind_some, explore_of_find? hs]

/-- **The answer to a list of questions is the one about the first faulty classifier in it**, whatever
is asked afterwards. -/
theorem Asked.exploreFirst_eq_find? {later : Memo} (h : F.Asked .empty memo) (l : List SymbolId)
    (hlater : F.Asked (F.exploreFirst memo l).2 later) :
    (F.exploreFirst memo l).1
      = (l.find? fun s => F.Faulty s).bind fun s => (F.explore later s).1 := by
  have hsound : memo.Sound F := h.sound (Memo.sound_empty F)
  have hafter := asked_exploreFirst F l memo
  have hanswers : F.Answers later l (F.exploreFirst memo l).1 :=
    (answers_exploreFirst hsound).mono hlater.keptIn fun s =>
      mt (hlater.tainted_iff (hafter.sound hsound)).mp
  exact hanswers.eq_find? ((h.trans hafter).trans hlater)

/-- **The answer about a type is the one about the first faulty classifier that it lists**, cause
included, now and whatever is asked later; it is "linked" if the type lists none.  Whether a classifier
is faulty shows in its answer at any time.  The answer is found along the structure of the type. -/
theorem exploreType_eq_find? {later : Memo} (h : F.Asked .empty memo) {t : TypeRef}
    (herasures : ∀ s ∈ t.erasures, ¬ F.Faulty s) (hlater : F.Asked (F.exploreType memo t).2 later) :
    F.exploreType memo t = F.exploreNested t memo
      ∧ (F.exploreType memo t).1
        = (t.classifiers.find? fun s => F.Faulty s).bind (fun s => (F.explore later s).1)
      ∧ ∀ s, (F.explore later s).1 = none ↔ ¬ F.Faulty s := by
  have hend : F.Asked .empty later := (h.type t).trans hlater
  refine ⟨exploreType_eq_nested F memo t, ?_, hend.explore_eq_none_iff_not_faulty⟩
  rw [TypeRef.find?_classifiers fun s hs => decide_eq_false (herasures s hs)]
  exact h.exploreFirst_eq_find? t.mentioned hlater

end

/-- a type with a star, a marker and two arguments inside each other, over the classes of `crossedPair`:
its classifier `D` is linked, the marker erases to it, and `B` is asked about before `A` -/
def crossedType : TypeRef :=
  .named ⟨3⟩ [.star, .projection (.marker ⟨3⟩ ⟨5⟩),
    .projection (.named ⟨3⟩ [.projection (.named ⟨1⟩ [.projection (.simple ⟨0⟩)] true)] false)] false

/-- After a question about `C` the type has the cause of `B`, and `B` has it still when `A` was asked
about; had `A` been asked about first, `B` would have another one. -/
theorem exploreType_crossedType :
    (∀ s ∈ crossedType.erasures, ¬ crossedPair.Faulty s)
      ∧ crossedType.classifiers = [⟨3⟩, ⟨3⟩, ⟨3⟩, ⟨1⟩, ⟨0⟩]
      ∧ let memo := (crossedPair.explore .empty ⟨2⟩).2
        let asked := crossedPair.exploreType memo crossedType
        asked.1 = some (.due ⟨1⟩ (.due ⟨0⟩ (.missing ⟨4⟩)))
          ∧ asked.1 = (crossedPair.explore (crossedPair.explore asked.2 ⟨0⟩).2 ⟨1⟩).1 := by
  have herasures : ∀ s ∈ crossedType.erasures, ¬ crossedPair.Faulty s := by decide
  have h := (exploreType_eq_find? (Asked.refl.symbol (F := crossedPair) ⟨2⟩) herasures
    (Asked.refl.symbol ⟨0⟩)).2.1
  rw [show crossedType.classifiers.find? (fun s => crossedPair.Faulty s) = some ⟨1⟩ by decide] at h
  exact ⟨herasures, by decide, by decide, h⟩

end Forest

end LinkRepair
