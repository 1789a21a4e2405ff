import LinkRepair.Proofs.Repair.Questions

/-!
# Verdicts last

A repair asks about classifiers in a forest that it has changed, with answers from before.  The
verdicts are those of the unrepaired forest all the same: what was tainted stays tainted, for a
class loses a super type, and a type parameter its bounds, only after its own answer was kept.

* `Forest.OwnersMatch`, `Forest.NeedsKnown`   the links between symbols and declarations are whole;
* `Pass.Frames.mem_needs`   what a classifier rests on stays, unless the classifier was asked about;
* `Pass.Step.tainted`       a step untaints no symbol that was there at the start;
* `Pass.Lasting`            the verdicts are those of an earlier forest;
* `repair_keeps_verdicts`   so it is at every question of a repair.
-/

namespace LinkRepair

namespace Forest

/-- a bound symbol is the symbol of its owner -/
def OwnersMatch (F : Forest) : Prop :=
  ∀ s d, F.owner? s = some d → ∃ x, F.declaration? d = some x ∧ x.symbol = s

def Knows (F : Forest) (s : SymbolId) : Prop := (F.symbol? s).isSome

/-- what a classifier rests on is a symbol of the forest -/
def NeedsKnown (F : Forest) : Prop :=
  ∀ s, ∀ t ∈ (F.standing s).needs, (F.symbol? t).isSome

/-- a symbol that rests on something is bound -/
theorem isSome_symbol?_of_needs {F : Forest} {s t : SymbolId} (h : t ∈ (F.standing s).needs) :
    (F.symbol? s).isSome := by
  cases ho : F.owner? s with
  | some d => exact isSome_symbol?_of_owner? ho
  | none =>
    rw [standing_of_owner?_none ho] at h
    exact absurd h List.not_mem_nil

end Forest

instance (F : Forest) : Decidable F.OwnersMatch :=
  decidable_of_iff
    (∀ s ∈ F.symbolIds, ∀ d ∈ (F.owner? s).toList,
      (F.declaration? d).map Declaration.symbol = some s) <| by
    constructor
    · intro h s d hd
      have hs : s ∈ F.symbolIds := Forest.mem_symbolIds.mpr (Forest.isSome_symbol?_of_owner? hd)
      exact Option.map_eq_some_iff.mp (h s hs d (Option.mem_toList.mpr hd))
    · intro h s _ d hd
      exact Option.map_eq_some_iff.mpr (h s d (Option.mem_toList.mp hd))

instance (F : Forest) : Decidable F.NeedsKnown :=
  decidable_of_iff
    (∀ s ∈ F.symbolIds, ∀ t ∈ (F.standing s).needs,
      (F.symbol? t).isSome) <| by
    constructor
    · exact fun h s t ht => h s (Forest.mem_symbolIds.mpr (Forest.isSome_symbol?_of_needs ht)) t ht
    · exact fun h s _ => h s

namespace Pass

/-! ## what a classifier rests on -/

section
variable {I : Intrinsics} {T K : DeclarationId → Prop} {p q : Pass} {s t : SymbolId}
  {d : DeclarationId} {x : Declaration}

/-- a symbol that is there keeps its owner, or stays unbound -/
theorem Frames.owner?_eq (h : Frames I T K p q) (hs : (p.forest.symbol? s).isSome) :
    q.forest.owner? s = p.forest.owner? s := by
  obtain ⟨x, hx⟩ := Option.isSome_iff_exists.mp hs
  unfold Forest.owner?
  rw [hx, h.symbol? s x hx]

theorem Frames.isSome_symbol? (h : Frames I T K p q) (hs : (p.forest.symbol? s).isSome) :
    (q.forest.symbol? s).isSome :=
  have ⟨x, hx⟩ := Option.isSome_iff_exists.mp hs
  Option.isSome_iff_exists.mpr ⟨x, h.symbol? s x hx⟩

/-- and if it is the symbol of its owner, then it stays that -/
theorem Frames.ownersMatch (h : Frames I T K p q) (hp : p.forest.OwnersMatch)
    (hs : (p.forest.symbol? s).isSome) (ho : q.forest.owner? s = some d) :
    ∃ y, q.forest.declaration? d = some y ∧ y.symbol = s := by
  rw [h.owner?_eq hs] at ho
  obtain ⟨x, hx, hxs⟩ := hp s d ho
  obtain ⟨y, hy, hb, _⟩ := h.declaration? d x hx
  exact ⟨y, hy, hb.symbol.trans hxs⟩

/-- what is broken by itself stays so -/
theorem Frames.broken (h : Frames I T K p q) (hp : p.forest.ParentsKnown)
    (hs : (p.forest.symbol? s).isSome) (hd : ∀ d, p.forest.owner? s = some d →
      (p.forest.declaration? d).isSome) (hb : p.forest.Broken s) : q.forest.Broken s := by
  rw [Forest.broken_iff] at hb ⊢
  obtain ⟨c, hc⟩ := hb
  have ho' := h.owner?_eq hs
  cases ho : p.forest.owner? s with
  | none => exact ⟨_, Forest.standing_of_owner?_none (ho'.trans ho)⟩
  | some d =>
    obtain ⟨x, y, hx, hy, hbecomes⟩ := h.exists_becomes (hd d ho)
    rw [Forest.standing_of_owner? ho hx] at hc
    rw [Forest.standing_of_owner? (ho'.trans ho) hy]
    unfold Forest.standingOf at hc ⊢
    rw [hbecomes.origin]
    by_cases hm : x.origin = .missing
    · exact ⟨_, if_pos hm⟩
    rw [if_neg hm] at hc
    rw [if_neg hm]
    have hcontent := hbecomes.content
    generalize x.content = content at hcontent hc
    generalize y.content = content' at hcontent
    cases hcontent with
    | @ofClass info superTypes added _ _ _ =>
      have hneeds : ({ info with superTypes := superTypes, members := info.members ++ added }
          : ClassInfo).needsEnclosing = info.needsEnclosing := rfl
      dsimp only at hc ⊢
      rw [hneeds, h.lacksEnclosing hp hx]
      cases hlack : info.needsEnclosing && p.forest.lacksEnclosing d with
      | true => exact ⟨_, rfl⟩
      | false =>
        rw [hlack] at hc
        cases hc
    | ofFunction | ofProperty | ofField | ofVariable | ofParameter | ofTypeParameter | ofEnumEntry
    | ofInitializer => cases hc

/-- **What a classifier rests on stays**, unless the classifier was asked about. -/
theorem Frames.mem_needs (h : Frames I T K p q) (hp : p.forest.ParentsKnown)
    (ho : p.forest.owner? s = some d) (hx : p.forest.declaration? d = some x) (hxs : x.symbol = s)
    (ht : t ∈ (p.forest.standing s).needs) :
    t ∈ (q.forest.standing s).needs ∨ (q.memo.find? s).isSome := by
  obtain ⟨y, hy, hbecomes, _⟩ := h.declaration? d x hx
  rw [Forest.standing_of_owner? ho hx] at ht
  rw [Forest.standing_of_owner? (h.owner? ho) hy]
  unfold Forest.standingOf at ht ⊢
  rw [hbecomes.origin]
  by_cases hm : x.origin = .missing
  · rw [if_pos hm] at ht
    exact absurd ht List.not_mem_nil
  rw [if_neg hm] at ht ⊢
  have hcontent := hbecomes.content
  rw [hxs] at hcontent
  generalize x.content = content at hcontent ht
  generalize y.content = content' at hcontent
  cases hcontent with
  | @ofClass info superTypes added _ hdrop _ =>
    have hneeds : ({ info with superTypes := superTypes, members := info.members ++ added }
        : ClassInfo).needsEnclosing = info.needsEnclosing := rfl
    dsimp only at ht ⊢
    rw [hneeds, h.lacksEnclosing hp hx]
    cases hlack : info.needsEnclosing && p.forest.lacksEnclosing d with
    | true =>
      rw [hlack] at ht
      exact absurd ht List.not_mem_nil
    | false =>
      rw [hlack] at ht
      simp only [Bool.false_eq_true, if_false, Standing.needs, Forest.classNeeds] at ht ⊢
      rw [h.enclosingSymbol? hp hx]
      rcases List.mem_append.mp ht with ht | ht
      · obtain ⟨type, htype, ht⟩ := List.mem_flatMap.mp ht
        rcases hdrop type htype with hkept | ⟨hasked, _⟩
        · exact .inl (List.mem_append_left _ (List.mem_flatMap.mpr ⟨type, hkept, ht⟩))
        · exact .inr hasked
      · exact .inl (List.mem_append_right _ ht)
  | ofTypeParameter hbounds =>
    rcases hbounds with rfl | ⟨c, hc, _⟩
    · exact .inl ht
    · exact .inr (Option.isSome_iff_exists.mpr ⟨_, hc⟩)
  | ofFunction | ofProperty | ofField | ofVariable | ofParameter | ofEnumEntry | ofInitializer =>
    exact absurd ht List.not_mem_nil

/-- what a tainted classifier rests on stays, or the answer is kept that it is broken -/
theorem Frames.mem_needs_of_tainted (h : Frames I T K p q) (hp : p.forest.ParentsKnown)
    (hm : p.memo.Sound p.forest) (hmemo : q.memo = p.memo) (ho : p.forest.owner? s = some d)
    (hx : p.forest.declaration? d = some x) (hxs : x.symbol = s) (ht : t ∈ (p.forest.standing s).needs)
    (htainted : p.forest.Tainted p.memo s) :
    t ∈ (q.forest.standing s).needs ∨ q.forest.Tainted q.memo s := by
  rcases h.mem_needs hp ho hx hxs ht with hkept | hasked
  · exact .inl hkept
  · obtain ⟨v, hv⟩ := Option.isSome_iff_exists.mp hasked
    cases v with
    | none => exact absurd htainted (hm s (hmemo ▸ hv))
    | some k => exact .inr (Forest.tainted_of_find? hv)

end

/-! ## what is tainted -/

/-- the verdicts in a pass are those of `F`: its memo can be relied on, and the symbols of `F` are
tainted if they were so in `F` -/
structure Lasting (F : Forest) (p : Pass) : Prop where
  sound : p.memo.Sound p.forest
  tainted : ∀ s, (F.symbol? s).isSome → (p.forest.Tainted p.memo s ↔ F.Tainted .empty s)

section
variable {cx : Context} {c : Scope} {F : Forest} {p q : Pass} {s : SymbolId}

/-- **A step untaints no symbol that was there at the start.** -/
theorem Step.tainted (hF : F.OwnersMatch) (hn : F.NeedsKnown) (hP : F.ParentsKnown)
    (hp : Chain cx c (start F) p) (h : Step cx c p q) (hs : (F.symbol? s).isSome)
    (ht : p.forest.Tainted p.memo s) : q.forest.Tainted q.memo s := by
  have hsane := (hp.sane (sane_start hP)).1
  rcases h.memo with hmemo | ⟨l, rfl⟩
  swap
  · exact ((Forest.asked_exploreFirst p.forest l p.memo).tainted_iff hsane.sound).mpr ht
  have hstart := hp.frames
  have heases : F.Eases p.forest := hstart.eases hP
  have hbroken : ∀ {t}, (F.symbol? t).isSome → p.forest.Broken t → q.forest.Tainted q.memo t :=
    fun ht hb => (Forest.Spoiled.tainted (.inl (h.frames.broken hsane.parents (hstart.isSome_symbol? ht)
      (fun d ho => by
        obtain ⟨y, hy, _⟩ := hstart.ownersMatch hF ht ho
        exact Option.isSome_iff_exists.mpr ⟨y, hy⟩) hb)))
  obtain ⟨n, hn'⟩ := ht
  -- along the path to what is spoiled, all symbols are from the start
  induction n generalizing s with
  | zero =>
    rcases hn' with hb | ⟨k, hk⟩
    · exact hbroken hs hb
    · exact Forest.tainted_of_find? (c := k) (hmemo ▸ hk)
  | succ n ih =>
    have htaint : p.forest.Tainted p.memo s := ⟨n + 1, hn'⟩
    obtain ⟨t, ht, hn'⟩ := hn'
    cases hst : F.standing s with
    | broken k =>
      have hb : p.forest.Broken s := hstart.broken hP hs (fun d ho => by
        obtain ⟨x, hx, _⟩ := hF s d ho
        exact Option.isSome_iff_exists.mpr ⟨x, hx⟩) (Forest.broken_iff.mpr ⟨k, hst⟩)
      exact hbroken hs hb
    | rests needs isClass =>
      obtain ⟨needs', hst', hsub⟩ := heases s needs isClass hst
      have htF : (F.symbol? t).isSome := by
        refine hn s t ?_
        rw [hst]
        rw [hst'] at ht
        exact hsub ht
      obtain ⟨d, x, ho, _⟩ := Forest.exists_of_standing_rests hst'
      obtain ⟨y, hy, hys⟩ := hstart.ownersMatch hF hs ho
      rcases h.frames.mem_needs_of_tainted hsane.parents hsane.sound hmemo ho hy hys ht htaint
        with hkept | hknown
      · exact (ih htF hn').step hkept
      · exact hknown

theorem lasting_chain (hF : F.OwnersMatch) (hn : F.NeedsKnown) (hP : F.ParentsKnown)
    (h : Chain cx c (start F) p) : Lasting F p where
  sound := (h.sane (sane_start hP)).1.sound
  tainted := fun s hs => by
    refine ⟨(h.sane (sane_start hP)).2 s, fun ht => ?_⟩
    induction h with
    | refl => exact ht
    | tail hp hstep ih => exact hstep.tainted hF hn hP hp hs ih

theorem Lasting.asked (hp : Lasting F p) {m : Memo} (h : p.forest.Asked p.memo m) :
    Lasting F { p with memo := m } where
  sound := h.sound hp.sound
  tainted := fun s hs => (h.tainted_iff hp.sound).trans (hp.tainted s hs)

/-- an answer is that of the unrepaired forest -/
theorem Lasting.explore (hp : Lasting F p) (hs : (F.symbol? s).isSome) :
    (p.forest.explore p.memo s).1 = none ↔ (F.explore .empty s).1 = none := by
  rw [Forest.explore_fst_eq_none_iff_not_tainted hp.sound,
    Forest.explore_fst_eq_none_iff_not_tainted (Memo.sound_empty F), hp.tainted s hs]

/-- so it is when only expressions were edited since -/
theorem Lasting.explore_continues (hp : Lasting F p) (h : Continues p q)
    (hs : (F.symbol? s).isSome) :
    (q.forest.explore q.memo s).1 = none ↔ (F.explore .empty s).1 = none := by
  rw [h.forest, Forest.explore_expressions]
  exact (hp.asked h.asked).explore hs

end

end Pass

/-- **Repairs never change a verdict.**  The questions of a repair make its memo, one after the
other; and each of them, in whatever became of the forest meanwhile, is answered "linked" just if the
unrepaired forest answers so to a new memo. -/
theorem repair_keeps_verdicts {F : Forest} (hF : F.OwnersMatch) (hn : F.NeedsKnown)
    (hP : F.ParentsKnown) (cx : Context) (roots : List Root) :
    Inquiry .empty (repairQuestions cx roots F) (repair cx roots F).memo
      ∧ ∀ x ∈ repairQuestions cx roots F, (F.symbol? x.symbol).isSome →
        (x.verdict = none ↔ (F.explore .empty x.symbol).1 = none) := by
  refine ⟨Pass.inquiry_repair cx roots F, fun x hx hs => ?_⟩
  have hfirst := Pass.asks_repairDeclarations cx roots F
  rcases List.mem_append.mp hx with hx | hx
  · exact (Pass.lasting_chain hF hn hP (hfirst.each x hx)).explore hs
  · have hsecond := (Pass.asks_repairExpressions cx roots _).each x hx
    exact (Pass.lasting_chain hF hn hP hfirst.related).explore_continues hsecond hs

/-! ## two classes that rest on each other -/

namespace Forest

/-- `A` has the super types `B` and one that is gone, and `B` has the super type `A` -/
def brokenCircle : Forest :=
  let base := (named "lib").installIntrinsics
  let file := base.2.newFile "pkg" "a.kt" ""
  let gone := file.2.newMissingSymbol "pkg" .classLike "Gone"
  let a := gone.2.newClass "pkg" (.file file.1) "A" .plain
  let b := a.2.newClass "pkg" (.file file.1) "B" .plain
  let up := b.2.addSuperType a.1 ((b.2.typeOf b.1).getD base.1.unitType)
  (up.addSuperType a.1 (.simple gone.1)).addSuperType b.1 ((up.typeOf a.1).getD base.1.unitType)

/-- the context of a repair of `brokenCircle` -/
def brokenCircleContext : Context := ⟨(named "lib").installIntrinsics.1, .warning⟩

end Forest

open Forest in
/-- the repaired circle has lost all super types, and only the memo knows that `B` was broken -/
theorem repair_keeps_verdicts_brokenCircle :
    let roots := brokenCircle.userRoots brokenCircleContext.intrinsics
    let r := repair brokenCircleContext roots brokenCircle
    brokenCircle.OwnersMatch ∧ brokenCircle.NeedsKnown ∧ brokenCircle.ParentsKnown
      ∧ (r.forest.explore .empty ⟨8⟩).1 = none
      ∧ (r.forest.explore r.memo ⟨8⟩).1 = some (.due ⟨8⟩ (.due ⟨7⟩ (.missing ⟨6⟩)))
      ∧ ∀ x ∈ repairQuestions brokenCircleContext roots brokenCircle,
        (brokenCircle.symbol? x.symbol).isSome →
        (x.verdict = none ↔ (brokenCircle.explore .empty x.symbol).1 = none) := by
  have hF : brokenCircle.OwnersMatch := by decide +kernel
  have hn : brokenCircle.NeedsKnown := by decide +kernel
  have hP : brokenCircle.ParentsKnown := by decide +kernel
  exact ⟨hF, hn, hP, by decide +kernel, by decide +kernel,
    (repair_keeps_verdicts hF hn hP brokenCircleContext _).2⟩

end LinkRepair
