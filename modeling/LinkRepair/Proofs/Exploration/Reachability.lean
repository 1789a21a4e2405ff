import Mathlib.Logic.Relation
import LinkRepair.Proofs.Exploration.Search

/-!
# Answers and reachability

What an answer says about the classifiers that are reached from the one it is about.

* `Forest.Broken`, `Forest.DependsOn`   broken by itself, and the edges between classifiers;
* `Forest.Hits F X n s`                 a classifier in `X` is `n` steps of the search away from `s`;
* `Memo.Agrees F X memo`                the answers in the memo are right, with `X` as the broken ones;
* `Explores.agrees`                     a run keeps them right, and its own answer is right but for
                                        what it left to the classifiers on the path;
* `explore_eq_none_iff`                 an answer is "linked" just when no broken classifier is
                                        reached, whatever was asked before.

The search takes a classifier that it meets again as linked.  What such an answer is worth is said
with distances: a classifier at distance `n` from a broken one may be answered "linked" only if the
path has another one, at or below the cut, that is no farther from a broken one.  When the search
leaves the classifier at which it was cut, that one would be nearer to a broken one than itself.
-/

namespace LinkRepair

namespace Forest

/-! ## the graph of classifiers -/

/-- broken by itself: nothing or only a stand-in is behind the symbol, or the class makes sense only
inside another one and is not inside one, or only inside a stand-in -/
inductive Broken (F : Forest) (s : SymbolId) : Prop
  | undefined (h : F.definition? s = none)
  | standIn {x : Declaration} (h : F.definition? s = some x) (hx : x.origin = .missing)
  | unenclosed {d : DeclarationId} {x : Declaration} {c : ClassInfo} (hd : F.owner? s = some d)
      (hx : F.declaration? d = some x) (hc : x.class? = some c)
      (hn : c.isInner = true ∨ c.kind = .enumEntry)
      (ho : ∀ e y, F.enclosingClass d = some e → F.declaration? e = some y → y.origin = .missing)

/-- a class depends on what its super types mention and on the class around it, a type parameter on
what its bounds mention -/
inductive DependsOn (F : Forest) (s t : SymbolId) : Prop
  | superType {x : Declaration} {c : ClassInfo} {type : TypeRef} (h : F.definition? s = some x)
      (hc : x.class? = some c) (ht : type ∈ c.superTypes) (hm : t ∈ type.mentioned)
  | enclosing {d e : DeclarationId} {x y : Declaration} {c : ClassInfo} (hd : F.owner? s = some d)
      (hx : F.declaration? d = some x) (hc : x.class? = some c) (he : F.enclosingClass d = some e)
      (hy : F.declaration? e = some y) (ht : t = y.symbol)
  | bound {x : Declaration} {p : TypeParameterInfo} {type : TypeRef} (h : F.definition? s = some x)
      (hp : x.typeParameter? = some p) (ht : type ∈ p.bounds) (hm : t ∈ type.mentioned)

theorem definition?_of_owner? {F : Forest} {s : SymbolId} {d : DeclarationId} {x : Declaration}
    (h : F.owner? s = some d) (hx : F.declaration? d = some x) : F.definition? s = some x := by
  simp [definition?, h, hx]

theorem exists_owner?_of_definition? {F : Forest} {s : SymbolId} {x : Declaration}
    (h : F.definition? s = some x) : ∃ d, F.owner? s = some d ∧ F.declaration? d = some x := by
  unfold definition? at h
  exact Option.bind_eq_some_iff.mp h

theorem standing_of_definition?_none {F : Forest} {s : SymbolId} (h : F.definition? s = none) :
    F.standing s = .broken (.missing s) :=
  standing_of_isMissing (by simp [isMissing, h])

/-- a class lacks the one around it just when every declaration around it is a stand-in -/
theorem lacksEnclosing_iff {F : Forest} {d : DeclarationId} :
    F.lacksEnclosing d = true
      ↔ ∀ e y, F.enclosingClass d = some e → F.declaration? e = some y → y.origin = .missing := by
  unfold lacksEnclosing
  cases he : F.enclosingClass d with
  | none => simp
  | some e =>
    cases hy : F.declaration? e with
    | none =>
      refine iff_of_true (by simp [hy]) (fun e' y he' hy' => ?_)
      cases he'
      rw [hy] at hy'
      cases hy'
    | some y =>
      simp only [Option.bind_some, hy, beq_iff_eq]
      constructor
      · intro h e' y' he' hy'
        cases he'
        rw [hy] at hy'
        cases hy'
        exact h
      · intro h
        exact h e y rfl hy

theorem needsEnclosing_iff {c : ClassInfo} :
    c.needsEnclosing = true ↔ c.isInner = true ∨ c.kind = .enumEntry := by
  simp [ClassInfo.needsEnclosing]

theorem class?_eq_some {x : Declaration} {c : ClassInfo} :
    x.class? = some c ↔ x.content = .ofClass c := by
  unfold Declaration.class?
  cases x.content <;> simp

theorem typeParameter?_eq_some {x : Declaration} {p : TypeParameterInfo} :
    x.typeParameter? = some p ↔ x.content = .ofTypeParameter p := by
  unfold Declaration.typeParameter?
  cases x.content <;> simp

/-- what rests on others has a declaration that is no stand-in -/
theorem exists_of_standing_rests {F : Forest} {s : SymbolId} {needs : List SymbolId}
    {isClass : Bool} (h : F.standing s = .rests needs isClass) :
    ∃ d x, F.owner? s = some d ∧ F.declaration? d = some x ∧ x.origin ≠ .missing
      ∧ F.standingOf s d x = .rests needs isClass := by
  cases ho : F.owner? s with
  | none => rw [standing_of_owner?_none ho] at h; cases h
  | some d =>
    cases hx : F.declaration? d with
    | none => simp [standing, ho, hx] at h
    | some x =>
      rw [standing_of_owner? ho hx] at h
      refine ⟨d, x, rfl, hx, fun hm => ?_, h⟩
      simp [standingOf, hm] at h

/-- the standing of a class that is no stand-in -/
theorem standing_class {F : Forest} {s : SymbolId} {d : DeclarationId} {x : Declaration}
    {c : ClassInfo} (hd : F.owner? s = some d) (hx : F.declaration? d = some x)
    (ho : x.origin ≠ .missing) (hc : x.class? = some c) :
    F.standing s = if c.needsEnclosing && F.lacksEnclosing d then .broken (.missingEnclosing s)
      else .rests (F.classNeeds d c) true := by
  rw [standing_of_owner? hd hx]
  unfold standingOf
  rw [if_neg ho, class?_eq_some.mp hc]

theorem standing_typeParameter {F : Forest} {s : SymbolId} {x : Declaration}
    {p : TypeParameterInfo} (hx : F.definition? s = some x) (ho : x.origin ≠ .missing)
    (hp : x.typeParameter? = some p) :
    F.standing s = .rests (p.bounds.flatMap TypeRef.mentioned) false := by
  obtain ⟨d, hd, hx⟩ := exists_owner?_of_definition? hx
  rw [standing_of_owner? hd hx]
  unfold standingOf
  rw [if_neg ho, typeParameter?_eq_some.mp hp]

/-- what is broken by itself has that standing -/
theorem broken_iff {F : Forest} {s : SymbolId} :
    F.Broken s ↔ ∃ c, F.standing s = .broken c := by
  constructor
  · rintro (h | ⟨h, hx⟩ | ⟨hd, hx, hc, hn, ho⟩)
    · exact ⟨_, standing_of_definition?_none h⟩
    · exact ⟨_, standing_of_isMissing (by simp [isMissing, h, hx])⟩
    · rename_i d x c
      by_cases hm : x.origin = .missing
      · exact ⟨_, standing_of_isMissing (by simp [isMissing, definition?_of_owner? hd hx, hm])⟩
      · refine ⟨.missingEnclosing s, ?_⟩
        rw [standing_class hd hx hm hc, needsEnclosing_iff.mpr hn, lacksEnclosing_iff.mpr ho]
        rfl
  · rintro ⟨c, h⟩
    cases hx : F.definition? s with
    | none => exact .undefined hx
    | some x =>
      by_cases hm : x.origin = .missing
      · exact .standIn hx hm
      · obtain ⟨d, hd, hx'⟩ := exists_owner?_of_definition? hx
        rw [standing_of_owner? hd hx'] at h
        unfold standingOf at h
        rw [if_neg hm] at h
        split at h
        · rename_i info hi
          split at h
          · rename_i hb
            rw [Bool.and_eq_true] at hb
            exact .unenclosed hd hx' (class?_eq_some.mpr hi) (needsEnclosing_iff.mp hb.1)
              (lacksEnclosing_iff.mp hb.2)
          · cases h
        · cases h
        · cases h

theorem mem_classNeeds {F : Forest} {d : DeclarationId} {c : ClassInfo} {t : SymbolId} :
    t ∈ F.classNeeds d c ↔ (∃ type ∈ c.superTypes, t ∈ type.mentioned)
      ∨ ∃ e y, F.enclosingClass d = some e ∧ F.declaration? e = some y ∧ t = y.symbol := by
  unfold classNeeds enclosingSymbol?
  rw [List.mem_append, List.mem_flatMap, Option.mem_toList, Option.map_eq_some_iff]
  simp only [Option.bind_eq_some_iff]
  apply or_congr Iff.rfl
  constructor
  · rintro ⟨y, ⟨e, he, hy⟩, rfl⟩
    exact ⟨e, y, he, hy, rfl⟩
  · rintro ⟨e, y, he, hy, rfl⟩
    exact ⟨y, ⟨e, he, hy⟩, rfl⟩

/-- the standing of a class that is not broken by itself -/
theorem standing_class_of_not_broken {F : Forest} {s : SymbolId} {d : DeclarationId}
    {x : Declaration} {c : ClassInfo} (h : ¬ F.Broken s) (hd : F.owner? s = some d)
    (hx : F.declaration? d = some x) (hc : x.class? = some c) :
    F.standing s = .rests (F.classNeeds d c) true := by
  have hm : x.origin ≠ .missing := fun e => h (.standIn (definition?_of_owner? hd hx) e)
  have e := standing_class hd hx hm hc
  split at e
  · exact absurd (broken_iff.mpr ⟨_, e⟩) h
  · exact e

/-- what is not broken by itself is looked at along its edges -/
theorem dependsOn_iff_of_not_broken {F : Forest} {s t : SymbolId} (h : ¬ F.Broken s) :
    F.DependsOn s t ↔ t ∈ (F.standing s).needs := by
  cases hx : F.definition? s with
  | none => exact absurd (.undefined hx) h
  | some x =>
    have hm : x.origin ≠ .missing := fun e => h (.standIn hx e)
    obtain ⟨d, hd, hx'⟩ := exists_owner?_of_definition? hx
    constructor
    · rintro (⟨h', hc, ht, hm'⟩ | ⟨hd', hx'', hc, he, hy, rfl⟩ | ⟨h', hp, ht, hm'⟩)
      · rw [hx] at h'
        cases h'
        rw [standing_class_of_not_broken h hd hx' hc]
        exact mem_classNeeds.mpr (.inl ⟨_, ht, hm'⟩)
      · rw [standing_class_of_not_broken h hd' hx'' hc]
        exact mem_classNeeds.mpr (.inr ⟨_, _, he, hy, rfl⟩)
      · rw [standing_typeParameter h' (fun e => h (.standIn h' e)) hp]
        exact List.mem_flatMap.mpr ⟨_, ht, hm'⟩
    · intro ht
      cases hc : x.content with
      | ofClass c =>
        rw [standing_class_of_not_broken h hd hx' (class?_eq_some.mpr hc)] at ht
        rcases mem_classNeeds.mp ht with ⟨type, htype, hmem⟩ | ⟨e, y, he, hy, rfl⟩
        · exact .superType hx (class?_eq_some.mpr hc) htype hmem
        · exact .enclosing hd hx' (class?_eq_some.mpr hc) he hy rfl
      | ofTypeParameter p =>
        rw [standing_typeParameter hx hm (typeParameter?_eq_some.mpr hc)] at ht
        obtain ⟨type, htype, hmem⟩ := List.mem_flatMap.mp ht
        exact .bound hx (typeParameter?_eq_some.mpr hc) htype hmem
      | _ => simp [standing_of_owner? hd hx', standingOf, hm, hc, Standing.needs] at ht

/-! ## distances -/

/-- a classifier in `X` is `n` steps of the search away -/
def Hits (F : Forest) (X : SymbolId → Prop) : Nat → SymbolId → Prop
  | 0, s => X s
  | n + 1, s => ∃ t ∈ (F.standing s).needs, F.Hits X n t

theorem Hits.step {F : Forest} {X : SymbolId → Prop} {n : Nat} {s t : SymbolId}
    (h : F.Hits X n t) (ht : t ∈ (F.standing s).needs) : F.Hits X (n + 1) s := ⟨t, ht, h⟩

theorem Hits.mono {F : Forest} {X Y : SymbolId → Prop} (hXY : ∀ s, X s → Y s) :
    ∀ {n : Nat} {s : SymbolId}, F.Hits X n s → F.Hits Y n s := by
  intro n
  induction n with
  | zero => intro s h; exact hXY s h
  | succ n ih => rintro s ⟨t, ht, h⟩; exact ⟨t, ht, ih h⟩

/-- a classifier that hits a broken one is one from which a broken one is reached -/
theorem exists_hits_broken_iff {F : Forest} {s : SymbolId} :
    (∃ n, F.Hits F.Broken n s) ↔ ∃ t, Relation.ReflTransGen F.DependsOn s t ∧ F.Broken t := by
  constructor
  · rintro ⟨n, h⟩
    induction n generalizing s with
    | zero => exact ⟨s, .refl, h⟩
    | succ n ih =>
      obtain ⟨t, ht, h⟩ := h
      by_cases hs : F.Broken s
      · exact ⟨s, .refl, hs⟩
      · obtain ⟨u, hu, hb⟩ := ih h
        exact ⟨u, .head ((dependsOn_iff_of_not_broken hs).mpr ht) hu, hb⟩
  · rintro ⟨t, hst, hb⟩
    induction hst using Relation.ReflTransGen.head_induction_on with
    | refl => exact ⟨0, hb⟩
    | @head a c hsu _ ih =>
      by_cases ha : F.Broken a
      · exact ⟨0, ha⟩
      · obtain ⟨n, h⟩ := ih
        exact ⟨n + 1, h.step ((dependsOn_iff_of_not_broken ha).mp hsu)⟩

end Forest

/-! ## answers that are right -/

/-- the answers of a memo are right, where the classifiers in `X` count as broken: these are the ones
that are broken by themselves and some that the memo has as broken -/
structure Memo.Agrees (F : Forest) (X : SymbolId → Prop) (m : Memo) : Prop where
  /-- what is broken by itself counts as broken -/
  broken : ∀ s, F.Broken s → X s
  known : ∀ s, X s → F.Broken s ∨ ∃ c, m.find? s = some (some c)
  linked_right : ∀ s, m.find? s = some none → ∀ n, ¬ F.Hits X n s
  broken_right : ∀ s c, m.find? s = some (some c) → ∃ n, F.Hits X n s

section
variable {F : Forest} {X : SymbolId → Prop}

theorem Memo.Agrees.insert {m : Memo} (h : m.Agrees F X) {s : SymbolId} {v : Verdict}
    (hs : m.find? s = none) (hv : v.isSome = true ↔ ∃ n, F.Hits X n s) :
    (m.insert s v).Agrees F X where
  broken := h.broken
  known := by
    intro t ht
    rcases h.known t ht with e | ⟨c, e⟩
    · exact .inl e
    · exact .inr ⟨c, Memo.KeptIn.insert v hs t _ e⟩
  linked_right := by
    intro t e n hn
    rw [Memo.find?_insert] at e
    split at e
    · rename_i ht
      subst ht
      have hsome := hv.mpr ⟨n, hn⟩
      rw [Option.some.inj e] at hsome
      cases hsome
    · exact h.linked_right t e n hn
  broken_right := by
    intro t c e
    rw [Memo.find?_insert] at e
    split at e
    · rename_i ht
      subst ht
      rw [Option.some.inj e] at hv
      exact hv.mp rfl
    · exact h.broken_right t c e

/-- what an outcome may say of the classifiers in `l` below a path: "broken" only if one of them hits,
and "linked" only if none does, but for those that have a classifier of the path, at or below the cut,
that hits as near -/
structure Outcome.Fair (F : Forest) (X : SymbolId → Prop) (path l : List SymbolId) (o : Outcome) :
    Prop where
  agrees : o.memo.Agrees F X
  broken : ∀ c, o.verdict = some c → ∃ t ∈ l, ∃ n, F.Hits X n t
  linked : o.verdict = none → ∀ t ∈ l, ∀ n, F.Hits X n t →
    ∃ a m j k, m ≤ n ∧ F.Hits X m a ∧ positionOn a path = some j ∧ o.cut = some k ∧ k ≤ j

theorem higherCut_le_left {a : Option Nat} {k : Nat} (h : a = some k) (b : Option Nat) :
    ∃ k', higherCut a b = some k' ∧ k' ≤ k := by
  subst h
  cases b with
  | none => exact ⟨k, rfl, Nat.le_refl k⟩
  | some l => exact ⟨min k l, rfl, Nat.min_le_left k l⟩

theorem higherCut_le_right (a : Option Nat) {b : Option Nat} {k : Nat} (h : b = some k) :
    ∃ k', higherCut a b = some k' ∧ k' ≤ k := by
  subst h
  cases a with
  | none => exact ⟨k, rfl, Nat.le_refl k⟩
  | some l => exact ⟨min l k, rfl, Nat.min_le_right l k⟩

theorem positionOn_lt {s : SymbolId} {path : List SymbolId} {j : Nat}
    (h : positionOn s path = some j) : j < path.length := by
  induction path with
  | nil => cases h
  | cons t above ih =>
    unfold positionOn at h
    split at h
    · cases h
      exact Nat.lt_succ_self _
    · exact Nat.lt_succ_of_lt (ih h)

theorem leave_cut (depth : Nat) (s : SymbolId) (o : Outcome) :
    (leave depth s o).cut = o.cut.filter fun k => k < depth := by
  unfold leave
  dsimp only
  split <;> rfl

/-- an answer "linked" that is kept relied on no cut above -/
theorem leave_memo_of_none (depth : Nat) (s : SymbolId) (cut : Option Nat) (m : Memo) :
    (leave depth s ⟨none, cut, m⟩).memo = m.insert s none ∧ (leave depth s ⟨none, cut, m⟩).cut = none
      ∨ (leave depth s ⟨none, cut, m⟩).memo = m := by
  unfold leave
  dsimp only
  split
  · exact .inr rfl
  · rename_i hc
    rw [Option.isNone_none, Bool.and_true, Bool.not_eq_true, Option.isSome_eq_false_iff,
      Option.isNone_iff_eq_none] at hc
    exact .inl ⟨rfl, hc⟩

/-- the classifier that is left hits no nearer than one that the path keeps to below the cut: its
first need does, or else is as far from a broken one as the classifier itself -/
theorem exists_hits_above {path needs : List SymbolId} {s : SymbolId} {isClass : Bool} {o : Outcome}
    (hX : ¬ X s) (hs : F.standing s = .rests needs isClass) (ho : o.Fair F X (s :: path) needs)
    (hv : o.verdict = none) : ∀ n, F.Hits X n s →
      ∃ a m j k, m ≤ n ∧ F.Hits X m a ∧ positionOn a path = some j
        ∧ (o.cut.filter fun k => k < path.length) = some k ∧ k ≤ j := by
  intro n
  induction n using Nat.strongRecOn with
  | _ n ih =>
    intro hn
    cases n with
    | zero => exact absurd hn hX
    | succ n =>
      obtain ⟨t, ht, hn⟩ := hn
      rw [hs] at ht
      obtain ⟨a, m, j, k, hmn, hm, hj, hk, hkj⟩ := ho.linked hv t ht n hn
      unfold positionOn at hj
      split at hj
      · rename_i ha
        rw [← ha] at hm
        obtain ⟨a', m', j', k', hm', h⟩ := ih m (Nat.lt_succ_of_le hmn) hm
        exact ⟨a', m', j', k', Nat.le_trans hm' (Nat.le_succ_of_le hmn), h⟩
      · have hlt := positionOn_lt hj
        refine ⟨a, m, j, k, Nat.le_succ_of_le hmn, hm, hj, ?_, hkj⟩
        rw [hk, Option.filter_some, if_pos (by simpa using Nat.lt_of_le_of_lt hkj hlt)]

/-- leaving a classifier passes on a fair outcome -/
theorem fair_leave {path needs : List SymbolId} {s : SymbolId} {isClass : Bool} {o : Outcome}
    (hX : ¬ X s) (hfind : o.memo.find? s = none) (hs : F.standing s = .rests needs isClass)
    (ho : o.Fair F X (s :: path) needs) :
    (leave path.length s ⟨o.verdict.map (blame s isClass), o.cut, o.memo⟩).Fair F X path [s] := by
  have hneeds : (F.standing s).needs = needs := by rw [hs]; rfl
  cases hv : o.verdict with
  | some c =>
    obtain ⟨t, ht, n, hn⟩ := ho.broken c hv
    have hits : ∃ n, F.Hits X n s := ⟨n + 1, hn.step (hneeds ▸ ht)⟩
    refine ⟨?_, fun _ _ => ⟨s, List.mem_singleton_self s, hits⟩, fun h => ?_⟩
    · rw [leave_memo_some rfl]
      exact ho.agrees.insert hfind (iff_of_true rfl hits)
    · rw [leave_verdict] at h
      cases h
  | none =>
    have above := exists_hits_above hX hs ho hv
    refine ⟨?_, fun c h => ?_, fun _ t ht n hn => ?_⟩
    · show Memo.Agrees F X (leave path.length s ⟨none, o.cut, o.memo⟩).memo
      rcases leave_memo_of_none path.length s o.cut o.memo with ⟨e, hcut⟩ | e
      · rw [leave_cut] at hcut
        rw [e]
        refine ho.agrees.insert hfind (iff_of_false (by simp) ?_)
        rintro ⟨n, hn⟩
        obtain ⟨_, _, _, k, _, _, _, hk, _⟩ := above n hn
        rw [hcut] at hk
        cases hk
      · rw [e]
        exact ho.agrees
    · rw [leave_verdict] at h
      cases h
    · rw [List.mem_singleton.mp ht] at hn
      obtain ⟨a, m, j, k, hmn, hm, hj, hk, hkj⟩ := above n hn
      exact ⟨a, m, j, k, hmn, hm, hj, by rw [leave_cut]; exact hk, hkj⟩

theorem fair_broken {path : List SymbolId} {s : SymbolId} {c : Cause} {m : Memo}
    (hm : m.Agrees F X) (hfind : m.find? s = none) (hs : F.standing s = .broken c) :
    (leave path.length s ⟨some c, none, m⟩).Fair F X path [s] := by
  have hits : ∃ n, F.Hits X n s := ⟨0, hm.broken s (Forest.broken_iff.mpr ⟨c, hs⟩)⟩
  refine ⟨?_, fun _ _ => ⟨s, List.mem_singleton_self s, hits⟩, fun h => ?_⟩
  · rw [leave_memo_some rfl]
    exact hm.insert hfind (iff_of_true rfl hits)
  · rw [leave_verdict] at h
    cases h

/-- what is not answered yet and not broken by itself does not count as broken -/
theorem Memo.Agrees.not_mem {m : Memo} (h : m.Agrees F X) {s : SymbolId} {needs : List SymbolId}
    {isClass : Bool} (hfind : m.find? s = none) (hs : F.standing s = .rests needs isClass) :
    ¬ X s := by
  intro hX
  rcases h.known s hX with e | ⟨c, e⟩
  · obtain ⟨c, e⟩ := Forest.broken_iff.mp e
    rw [hs] at e
    cases e
  · rw [hfind] at e
    cases e

theorem fair_next {path rest : List SymbolId} {s : SymbolId} {first later : Outcome}
    (hv : first.verdict = none) (hf : first.Fair F X path [s]) (hl : later.Fair F X path rest) :
    Outcome.Fair F X path (s :: rest)
      ⟨later.verdict, higherCut first.cut later.cut, later.memo⟩ := by
  refine ⟨hl.agrees, fun c h => ?_, fun h t ht n hn => ?_⟩
  · obtain ⟨t, ht, hits⟩ := hl.broken c h
    exact ⟨t, List.mem_cons_of_mem _ ht, hits⟩
  · rcases List.mem_cons.mp ht with rfl | ht
    · obtain ⟨a, m, j, k, hmn, hm, hj, hk, hkj⟩ := hf.linked hv t (List.mem_singleton_self t) n hn
      obtain ⟨k', hk', hle⟩ := higherCut_le_left hk later.cut
      exact ⟨a, m, j, k', hmn, hm, hj, hk', Nat.le_trans hle hkj⟩
    · obtain ⟨a, m, j, k, hmn, hm, hj, hk, hkj⟩ := hl.linked h t ht n hn
      obtain ⟨k', hk', hle⟩ := higherCut_le_right first.cut hk
      exact ⟨a, m, j, k', hmn, hm, hj, hk', Nat.le_trans hle hkj⟩

/-- **A run keeps the answers right.** -/
theorem Explores.fair {path : List SymbolId} {memo : Memo} {s : SymbolId} {o : Outcome}
    (h : Explores F path memo s o) : memo.Agrees F X → o.Fair F X path [s] := by
  induction h using Explores.rec
    (motive_2 := fun path memo l o _ => memo.Agrees F X → o.Fair F X path l) with
  | @kept path memo s v hm =>
    intro ha
    refine ⟨ha, fun c e => ?_, fun e t ht n hn => ?_⟩
    · dsimp only at e
      rw [e] at hm
      exact ⟨s, List.mem_singleton_self s, ha.broken_right s c hm⟩
    · dsimp only at e
      rw [e] at hm
      rw [List.mem_singleton.mp ht] at hn
      exact absurd hn (ha.linked_right s hm n)
  | @met path memo s k hm hk =>
    intro ha
    refine ⟨ha, nofun, fun _ t ht n hn => ?_⟩
    rw [List.mem_singleton.mp ht] at hn
    exact ⟨s, n, k, k, Nat.le_refl n, hn, hk, rfl, Nat.le_refl k⟩
  | broken hm hk hs => exact fun ha => fair_broken ha hm hs
  | rests hm hk hs ho ih =>
    exact fun ha => fair_leave (ha.not_mem hm hs) (ho.find?_head hm) hs (ih ha)
  | nil =>
    rename_i ha
    exact ⟨ha, nofun, fun _ t ht => absurd ht List.not_mem_nil⟩
  | @stop path memo s rest o c ho hc ih =>
    rename_i ha
    have hf := ih ha
    refine ⟨hf.agrees, fun c e => ?_, fun e => ?_⟩
    · obtain ⟨t, ht, hits⟩ := hf.broken c e
      rw [List.mem_singleton.mp ht] at hits
      exact ⟨s, List.mem_cons_self, hits⟩
    · rw [hc] at e
      cases e
  | next ho hv hl iho ihl =>
    rename_i ha
    have hf := iho ha
    exact fair_next hv hf (ihl hf.agrees)

end

/-! ## answers after any history -/

namespace Forest

/-- the memos that questions about an unchanged forest make of a memo -/
inductive Asked (F : Forest) (memo : Memo) : Memo → Prop
  | refl : F.Asked memo memo
  | symbol {m : Memo} (h : F.Asked memo m) (s : SymbolId) : F.Asked memo (F.explore m s).2
  | type {m : Memo} (h : F.Asked memo m) (t : TypeRef) : F.Asked memo (F.exploreType m t).2

theorem Asked.trans {F : Forest} {m₁ m₂ m₃ : Memo} (h : F.Asked m₁ m₂) (h' : F.Asked m₂ m₃) :
    F.Asked m₁ m₃ := by
  induction h' with
  | refl => exact h
  | symbol _ s ih => exact .symbol ih s
  | type _ t ih => exact .type ih t

/-- what every question keeps, a list of questions keeps -/
theorem exploreFirst_invariant {F : Forest} {P : Memo → Prop}
    (h : ∀ m s, P m → P (F.explore m s).2) :
    ∀ (l : List SymbolId) (m : Memo), P m → P (F.exploreFirst m l).2 := by
  intro l
  induction l with
  | nil => intro m hm; exact hm
  | cons s rest ih =>
    intro m hm
    have hs := h m s hm
    unfold exploreFirst
    split
    · rename_i e
      rw [e] at hs
      exact hs
    · rename_i e
      rw [e] at hs
      exact ih _ hs

/-- what every question keeps, any history of questions keeps -/
theorem Asked.invariant {F : Forest} {P : Memo → Prop} (h : ∀ m s, P m → P (F.explore m s).2)
    {m m' : Memo} (ha : F.Asked m m') (hm : P m) : P m' := by
  induction ha with
  | refl => exact hm
  | symbol _ s ih => exact h _ s ih
  | type _ t ih => exact exploreFirst_invariant h t.mentioned _ ih

section
variable {F : Forest} {X : SymbolId → Prop} {memo : Memo}

theorem agrees_explore (h : memo.Agrees F X) (s : SymbolId) : (F.explore memo s).2.Agrees F X := by
  obtain ⟨o, ho, e⟩ := explores_explore F memo s
  rw [e]
  exact (ho.fair h).agrees

/-- the answer to a question is right when those in the memo are -/
theorem explore_fst_eq_none_iff (h : memo.Agrees F X) (s : SymbolId) :
    (F.explore memo s).1 = none ↔ ∀ n, ¬ F.Hits X n s := by
  obtain ⟨o, ho, e⟩ := explores_explore F memo s
  have hf := ho.fair h
  rw [e]
  constructor
  · intro hv n hn
    -- no classifier is on the empty path
    obtain ⟨_, _, _, _, _, _, hj, _⟩ := hf.linked hv s (List.mem_singleton_self s) n hn
    cases hj
  · intro hn
    cases hv : o.verdict with
    | none => rfl
    | some c =>
      obtain ⟨t, ht, n, hits⟩ := hf.broken c hv
      rw [List.mem_singleton.mp ht] at hits
      exact absurd hits (hn n)

end

theorem agrees_empty (F : Forest) : Memo.empty.Agrees F F.Broken where
  broken := fun _ h => h
  known := fun _ h => .inl h
  linked_right := by
    intro s h
    rw [Memo.find?_empty] at h
    cases h
  broken_right := by
    intro s c h
    rw [Memo.find?_empty] at h
    cases h

/-- whatever was asked before, the answers in the memo are right -/
theorem Asked.agrees {F : Forest} {memo : Memo} (h : F.Asked .empty memo) : memo.Agrees F F.Broken :=
  Asked.invariant (P := fun m => m.Agrees F F.Broken) (fun _ s hm => agrees_explore hm s) h
    F.agrees_empty

/-- so is the answer to one more question -/
theorem Asked.explore_fst_eq_none_iff {F : Forest} {memo : Memo} (h : F.Asked .empty memo)
    (s : SymbolId) :
    (F.explore memo s).1 = none ↔ ∀ t, Relation.ReflTransGen F.DependsOn s t → ¬ F.Broken t := by
  rw [Forest.explore_fst_eq_none_iff h.agrees]
  constructor
  · intro hn t hst hb
    obtain ⟨n, hits⟩ := exists_hits_broken_iff.mpr ⟨t, hst, hb⟩
    exact hn n hits
  · intro hr n hits
    obtain ⟨t, hst, hb⟩ := exists_hits_broken_iff.mp ⟨n, hits⟩
    exact hr t hst hb

/-- **An answer is "linked" just when no broken classifier is reached**, whatever was asked before,
and the search for it comes to an end. -/
theorem explore_eq_none_iff_reaches {F : Forest} {memo : Memo} (h : F.Asked .empty memo)
    (s : SymbolId) :
    (∃ o, Explores F [] memo s o ∧ F.explore memo s = (o.verdict, o.memo))
      ∧ ((F.explore memo s).1 = none
        ↔ ∀ t, Relation.ReflTransGen F.DependsOn s t → ¬ F.Broken t) :=
  ⟨explores_explore F memo s, h.explore_fst_eq_none_iff s⟩

/-- two classes that are each other's super type; the first has one more, which is gone -/
def brokenPair : Forest where
  name := "lib"
  files := #[]
  symbols := #[⟨.classLike, none, some ⟨0⟩⟩, ⟨.classLike, none, some ⟨1⟩⟩, ⟨.classLike, none, none⟩]
  declarations :=
    #[⟨⟨0⟩, "A", .defined, none, .undefined,
        .ofClass { ClassInfo.blank with superTypes := [.simple ⟨1⟩, .simple ⟨2⟩] }⟩,
      ⟨⟨1⟩, "B", .defined, none, .undefined,
        .ofClass { ClassInfo.blank with superTypes := [.simple ⟨0⟩] }⟩]
  expressions := #[]

/-- the second class of the pair, asked about after the first one, is broken -/
theorem explore_brokenPair :
    (brokenPair.explore (brokenPair.explore .empty ⟨0⟩).2 ⟨1⟩).1 ≠ none
      ∧ ¬ ∀ t, Relation.ReflTransGen brokenPair.DependsOn ⟨1⟩ t → ¬ brokenPair.Broken t := by
  have h := (explore_eq_none_iff_reaches (Asked.refl.symbol (F := brokenPair) ⟨0⟩) ⟨1⟩).2
  have hne : (brokenPair.explore (brokenPair.explore .empty ⟨0⟩).2 ⟨1⟩).1 ≠ none := by decide
  exact ⟨hne, fun hr => hne (h.mpr hr)⟩

end Forest

end LinkRepair
