import LinkRepair.Proofs.Repair.Lacks
import LinkRepair.Proofs.Repair.Reordering
import LinkRepair.Proofs.Repair.Termination

/-!
# Classes are given all that they lack, and no more

A class is given what it lacks after the classes that it inherits from, as far as these do not wait for
it in turn.  Members that were added demand nothing, and what is implemented stays so; therefore a class
lacks nothing from its turn on, whatever the classes above it are given later.

* `Pass.Enriches`              classes have more members, and nothing else is edited;
* `Furnishes.ancestors_eq`     then they have the same classes above them;
* `Enriches.demands_iff`       and they demand the same;
* `Enriches.complete_supply`   a class that was given what it lacks lacks nothing;
* `Pass.Equips`                classes are given what they lack, one after the other;
* `Equips.gets`                each gets one member for each function that it lacks when it is its turn;
* `Pass.Looks`                 which classes get a turn when a class is looked at;
* `implementMembers_completes` looking at a class completes it and the classes that it inherits from.
-/

namespace LinkRepair

namespace Forest

/-- from `F` to `H` the class `b` gets one member for each function that it lacks in `G`, and no other: the
members are new and different from one another, and each is made for a function of its own -/
def Gets (F G H : Forest) (b : DeclarationId) : Prop :=
  ∃ c added lacking, F.class? b = some c ∧ H.class? b = some { c with members := c.members ++ added }
    ∧ added.Nodup ∧ (∀ n ∈ added, F.declaration? n = none)
    ∧ List.Forall₂ (H.Fills b) added lacking ∧ lacking.Nodup ∧ ∀ m, m ∈ lacking ↔ G.Lacks b m

end Forest

namespace Pass

/-- `q` is `p` with more members in its classes, and nothing that was there is edited otherwise -/
structure Enriches (I : Intrinsics) (p q : Pass) : Prop extends Furnishes I p q where
  adds : Adds I (fun _ => True) p q

section
variable {I : Intrinsics} {K : DeclarationId → Prop} {p q r : Pass} {a b d m : DeclarationId}
  {x : Declaration}

/-- what is implemented stays so -/
theorem Adds.implemented (h : Adds I K p q) (hx : p.forest.declaration? m = some x)
    (hm : p.forest.Implemented d m x) : q.forest.Implemented d m x := by
  obtain ⟨b, n, hb, hn, himplements⟩ := hm
  have hstored := Forest.isSome_of_mem_memberFunctions hn
  refine ⟨b, n, Frames.inherits (fun _ => not_new) h hb,
    Frames.mem_memberFunctions (fun _ => not_new) h hn, ?_⟩
  rcases himplements with ⟨s, hs, hchain⟩ | ⟨hconcrete, hkey⟩
  · refine .inl ⟨s, (h.overriddenBy_eq hstored).symm ▸ hs, ?_⟩
    refine Relation.ReflTransGen.mono ?_ _ _ hchain
    rintro s t ⟨a, ho, ht⟩
    have ha : (p.forest.declaration? a).isSome := by
      cases hz : p.forest.declaration? a with
      | none => simp [Forest.overriddenBy, hz] at ht
      | some z => rfl
    exact ⟨a, Frames.owner? h ho, (h.overriddenBy_eq ha).symm ▸ ht⟩
  · have hm : (p.forest.declaration? m).isSome := Option.isSome_iff_exists.mpr ⟨x, hx⟩
    exact .inr ⟨(Frames.isAbstract_eq h hstored).trans hconcrete, (Frames.callKey_eq h hstored).trans
      (hkey.trans (Frames.callKey_eq h hm).symm)⟩

theorem Adds.class?_eq (h : Adds I K p q) (hK : ¬ K b) {c : ClassInfo} (hc : p.forest.class? b = some c) :
    q.forest.class? b = some c := by
  obtain ⟨x, hx, hxc⟩ := Forest.class?_eq hc
  exact Option.bind_eq_some_iff.mpr ⟨x, h.declaration?_eq hx (.inl hK), hxc⟩

/-- a function that is demanded stays as it is -/
theorem Adds.declaration?_eq_of_demands (h : Adds I K p q) (hm : p.forest.Demands d m) :
    q.forest.declaration? m = p.forest.declaration? m := by
  obtain ⟨_, _, _, hmb⟩ := hm.inherited
  obtain ⟨x, f, hx, hf⟩ := Forest.exists_function_of_mem_memberFunctions hmb
  rw [hx]
  exact h.declaration?_eq hx (.inr (by simp [Declaration.isClass, Declaration.class?, hf]))

theorem Enriches.refl (hC : p.forest.MembersKnown) : Enriches I p p := ⟨.refl hC, .refl p⟩

/-- which classes were looked at does not matter to the forest -/
theorem Enriches.withExamined (h : Enriches I p q) {l : List DeclarationId} (hl : p.examined ⊆ l) :
    Enriches I p { q with examined := l } where
  frames := { h.frames with examined := hl }
  known := h.known
  added := h.added
  adds := { (show Frames _ _ _ _ _ from h.adds) with examined := hl }

section
variable (hF : p.forest.Resolves) (h : Furnishes I p q) (hadds : Adds I K q r)
include hF h hadds

/-- the bases of a class stay the same when classes are given members -/
theorem Furnishes.bases_eq (ha : (p.forest.declaration? a).isSome) :
    r.forest.bases a = q.forest.bases a := by
  have ha' := h.frames.isSome ha
  unfold Forest.bases
  cases hc : q.forest.class? a with
  | none => rw [Frames.class?_none hadds ha' hc]
  | some c =>
    obtain ⟨l, hc'⟩ := Frames.class?_of_old hadds (not_new ha') hc
    obtain ⟨c₀, _, hc₀, hsub, _⟩ := h.frames.class?_before ha hc
    rw [hc']
    refine List.filterMap_congr fun s hs => ?_
    obtain ⟨t, ht, hs⟩ := List.mem_filterMap.mp hs
    obtain ⟨hknown, howner⟩ := hF.heads a c₀ hc₀ t (hsub.subset ht) s hs
    rw [Frames.classOf?_eq (h.frames.trans (Frames.mono hadds (fun _ _ => trivial) fun _ _ => trivial)) hknown
      howner, h.frames.classOf?_eq hknown howner]

/-- **The classes above a class stay the same** when classes are given members, in the same order. -/
theorem Furnishes.ancestors_eq (hd : (p.forest.declaration? d).isSome) :
    r.forest.ancestors d = q.forest.ancestors d :=
  (r.forest.searches_ancestors d).unique <| (q.forest.searches_ancestors d).congr
    (P := fun a => (p.forest.declaration? a).isSome) (fun _ ha => h.bases_eq hF hadds ha)
    (fun _ ha _ hb => Forest.isSome_of_mem_bases (h.mem_bases hF ha hb))
    fun a ha => by rwa [List.mem_singleton.mp ha]

end

section
variable (hF : p.forest.Resolves) (h : Enriches I p q)
include hF h

theorem Enriches.ancestors_eq (hd : (p.forest.declaration? d).isSome) :
    q.forest.ancestors d = p.forest.ancestors d :=
  (Furnishes.refl hF.members).ancestors_eq hF h.adds hd

theorem Enriches.inherits_iff (hd : (p.forest.declaration? d).isSome) :
    q.forest.Inherits d b ↔ p.forest.Inherits d b :=
  ⟨h.inherits hF hd, Frames.inherits (fun _ => not_new) h.adds⟩

/-- **What a class demands stays the same.** -/
theorem Enriches.demands_iff (hd : (p.forest.declaration? d).isSome) :
    q.forest.Demands d m ↔ p.forest.Demands d m := by
  refine ⟨h.demands hF hd, fun ⟨⟨b, hb, hne, hm⟩, habstract, x, hx, hdefined⟩ => ?_⟩
  have hstored := Forest.isSome_of_mem_memberFunctions hm
  obtain ⟨y, hy, hbecomes, _⟩ := h.frames.declaration? m x hx
  exact ⟨⟨b, (h.inherits_iff hF hd).mpr hb, hne, Frames.mem_memberFunctions (fun _ => not_new) h.adds hm⟩,
    (h.frames.isAbstract_eq hstored).trans habstract, y, hy, hbecomes.origin.trans hdefined⟩

/-- a class that lacks nothing never does so later -/
theorem Enriches.complete (h' : Enriches I p r) (hqr : Adds I K q r) (hd : (p.forest.declaration? d).isSome)
    (hc : q.forest.Complete d) : r.forest.Complete d := by
  intro m x hm hx
  have hq := (h.demands_iff hF hd).mpr ((h'.demands_iff hF hd).mp hm)
  rw [hqr.declaration?_eq_of_demands hq] at hx
  exact hqr.implemented hx (hc m x hq hx)

end

section
variable {cx : Context} (hF : p.forest.Resolves) (h : Enriches cx.intrinsics p q)
  (hd : (p.forest.declaration? d).isSome)
include hF h hd

theorem Enriches.supply : Enriches cx.intrinsics p (q.supply cx d) :=
  ⟨h.toFurnishes.supply hF hd, h.adds.trans ((adds_supply cx q d).mono fun _ _ => trivial)⟩

/-- **A class that was given what it lacks lacks nothing.** -/
theorem Enriches.complete_supply : (q.supply cx d).forest.Complete d := by
  intro m x hm hx
  have hadds := adds_supply cx q d
  have hq := (h.demands_iff hF hd).mpr (((h.supply hF hd).demands_iff hF hd).mp hm)
  rw [hadds.declaration?_eq_of_demands hq] at hx
  by_cases himplemented : q.forest.Implemented d m x
  · exact hadds.implemented hx himplemented
  · -- the member that is made for the function overrides it
    have hlacks : q.forest.Lacks d m := ⟨hq, fun y hy => Option.some.inj (hx.symm.trans hy) ▸ himplemented⟩
    obtain ⟨c, hc⟩ := Forest.exists_class?_of_demands hq
    obtain ⟨added, hc', hfills, _⟩ := h.supply_spec hF hd hc
    obtain ⟨n, hn, hfill⟩ := exists_mem_of_forall₂ hfills.flip (Forest.mem_unimplemented.mpr hlacks)
    obtain ⟨y, hy, hover⟩ := hfill.overridden
    rw [hadds.declaration?_eq_of_demands hq, hx] at hy
    obtain rfl := Option.some.inj hy
    refine ⟨d, n, .refl, ?_, .inl ⟨x.symbol, ?_, .refl⟩⟩
    · rw [Forest.memberFunctions_eq]
      exact List.mem_filter.mpr ⟨Forest.mem_membersOf.mpr ⟨_, hc', List.mem_append_right _ hn⟩, hfill.plain⟩
    · rw [hover]
      exact List.mem_singleton_self _

end

end

/-! ## one class after the other -/

/-- from `p` to `q` classes are given what they lack, one after the other, and nothing else is done to the
forest: `stages` are these classes, each with the forest in which it was found out what it lacks -/
inductive Equips (cx : Context) : Pass → List (DeclarationId × Forest) → Pass → Prop
  | refl (p : Pass) : Equips cx p [] p
  | examine {p q : Pass} {stages : List (DeclarationId × Forest)} (h : Equips cx p stages q)
      (d : DeclarationId) : Equips cx p stages { q with examined := d :: q.examined }
  | supply {p q : Pass} {stages : List (DeclarationId × Forest)} (h : Equips cx p stages q)
      (d : DeclarationId) : Equips cx p (stages ++ [(d, q.forest)]) (q.supply cx d)

section
variable {cx : Context} {p q r : Pass} {stages stages' : List (DeclarationId × Forest)}
  {b d : DeclarationId}

theorem Equips.trans (h : Equips cx p stages q) (h' : Equips cx q stages' r) :
    Equips cx p (stages ++ stages') r := by
  induction h' with
  | refl => rwa [List.append_nil]
  | examine _ d ih => exact ih.examine d
  | supply _ d ih =>
    rw [← List.append_assoc]
    exact ih.supply d

/-- only these classes list more members, and nothing else is edited -/
theorem Equips.adds (h : Equips cx p stages q) :
    Adds cx.intrinsics (fun b => b ∈ stages.map Prod.fst) p q := by
  induction h with
  | refl => exact .refl p
  | examine _ d ih =>
    exact Frames.trans ih (frames_of_forest_eq rfl (.refl _) (List.subset_cons_self _ _) rfl)
  | @supply q stages _ d ih =>
    have hclasses : (stages ++ [(d, q.forest)]).map Prod.fst = stages.map Prod.fst ++ [d] := by simp
    rw [hclasses]
    exact (ih.mono fun b hb => List.mem_append_left _ hb).trans ((adds_supply cx q d).mono fun b hb =>
      hb ▸ List.mem_append_right _ (List.mem_singleton_self _))

variable {p₀ : Pass} (hF : p₀.forest.Resolves) (hp : Enriches cx.intrinsics p₀ p)
include hF hp

theorem Equips.enriches (h : Equips cx p stages q)
    (hstored : ∀ b ∈ stages.map Prod.fst, (p₀.forest.declaration? b).isSome) :
    Enriches cx.intrinsics p₀ q := by
  induction h with
  | refl => exact hp
  | examine _ d ih =>
    have h := ih hstored
    exact h.withExamined fun a ha => List.mem_cons_of_mem _ (h.frames.examined ha)
  | @supply q stages _ d ih =>
    have hclasses : (stages ++ [(d, q.forest)]).map Prod.fst = stages.map Prod.fst ++ [d] := by simp
    rw [hclasses] at hstored
    exact (ih fun b hb => hstored b (List.mem_append_left _ hb)).supply hF
      (hstored d (List.mem_append_right _ (List.mem_singleton_self _)))

/-- **In the end these classes lack nothing.** -/
theorem Equips.complete (h : Equips cx p stages q)
    (hstored : ∀ b ∈ stages.map Prod.fst, (p₀.forest.declaration? b).isSome) :
    ∀ b ∈ stages.map Prod.fst, q.forest.Complete b := by
  induction h with
  | refl => exact fun b hb => absurd hb List.not_mem_nil
  | examine _ d ih => exact ih hstored
  | @supply q stages h d ih =>
    have hclasses : (stages ++ [(d, q.forest)]).map Prod.fst = stages.map Prod.fst ++ [d] := by simp
    rw [hclasses] at hstored ⊢
    have hbefore := fun b hb => hstored b (List.mem_append_left _ hb)
    have hd := hstored d (List.mem_append_right _ (List.mem_singleton_self _))
    have hq := h.enriches hF hp hbefore
    intro b hb
    rcases List.mem_append.mp hb with hb | hb
    · exact hq.complete hF (hq.supply hF hd) (adds_supply cx q d) (hbefore b hb) (ih hbefore b hb)
    · rw [List.mem_singleton.mp hb]
      exact hq.complete_supply hF hd

/-- **Each of these classes gets one member for each function that it lacks** when it is its turn. -/
theorem Equips.gets (hL : p₀.forest.ListsOnce) (h : Equips cx p stages q)
    (hstored : ∀ b ∈ stages.map Prod.fst, (p₀.forest.declaration? b).isSome)
    (hclass : ∀ b ∈ stages.map Prod.fst, (p.forest.class? b).isSome)
    (hnodup : (stages.map Prod.fst).Nodup) :
    ∀ b G, (b, G) ∈ stages → p.forest.Gets G q.forest b := by
  induction h with
  | refl => exact fun b G hb => absurd hb List.not_mem_nil
  | examine _ d ih => exact ih hstored hclass hnodup
  | @supply q stages h d ih =>
    have hclasses : (stages ++ [(d, q.forest)]).map Prod.fst = stages.map Prod.fst ++ [d] := by simp
    rw [hclasses] at hstored hclass hnodup
    obtain ⟨hbefore, _, hdisjoint⟩ := List.nodup_append.mp hnodup
    have hd : ∀ {b}, b ∈ stages.map Prod.fst → b ≠ d := fun hb =>
      hdisjoint _ hb d (List.mem_singleton_self d)
    have hstored' := fun b hb => hstored b (List.mem_append_left _ hb)
    have hq := h.enriches hF hp hstored'
    intro b G hb
    rcases List.mem_append.mp hb with hb | hb
    · obtain ⟨c, added, lacking, hc, hc', hn, hnew, hfills, hlacking⟩ :=
        ih hstored' (fun b hb => hclass b (List.mem_append_left _ hb)) hbefore b G hb
      have hadds := adds_supply cx q d
      exact ⟨c, added, lacking, hc, hadds.class?_eq (hd (List.mem_map_of_mem hb)) hc', hn, hnew,
        hfills.imp fun _ _ => hadds.fills, hlacking⟩
    · obtain ⟨rfl, rfl⟩ := Prod.mk.inj (List.mem_singleton.mp hb)
      have hmem : b ∈ stages.map Prod.fst ++ [b] := List.mem_append_right _ (List.mem_singleton_self b)
      obtain ⟨c, hc⟩ := Option.isSome_iff_exists.mp (hclass b hmem)
      have hcq := h.adds.class?_eq (fun hb => hd hb rfl) hc
      obtain ⟨added, hc', hfills, hn, hnew, _⟩ := hq.supply_spec hF (hstored b hmem) hcq
      exact ⟨c, added, _, hc, hc', hn, fun n hn => Frames.declaration?_none h.adds (hnew n hn), hfills,
        hq.nodup_unimplemented hF hL (hstored b hmem), fun _ => Forest.mem_unimplemented⟩

omit hF hp in
/-- classes that lack nothing are given nothing -/
theorem Equips.eq_of_complete (h : Equips cx p stages q)
    (hcomplete : ∀ b ∈ stages.map Prod.fst, p.forest.Complete b) :
    q.forest = p.forest ∧ q.repairs = p.repairs := by
  induction h with
  | refl => exact ⟨rfl, rfl⟩
  | examine _ d ih => exact ih hcomplete
  | @supply q stages h d ih =>
    have hclasses : (stages ++ [(d, q.forest)]).map Prod.fst = stages.map Prod.fst ++ [d] := by simp
    rw [hclasses] at hcomplete
    obtain ⟨hforest, hrepairs⟩ := ih fun b hb => hcomplete b (List.mem_append_left _ hb)
    have hd := hcomplete d (List.mem_append_right _ (List.mem_singleton_self d))
    rw [← hforest, Forest.complete_iff] at hd
    rw [Pass.supply, hd]
    exact ⟨hforest, hrepairs⟩

end

/-! ## one class after those above it -/

/-- from `p` to `q` the classes `ds` are looked at, and with each concrete one those that it inherits from:
`stages` are the concrete ones among them that were not looked at before -/
structure Looks (cx : Context) (F : Forest) (p : Pass) (ds : List DeclarationId)
    (stages : List (DeclarationId × Forest)) (q : Pass) : Prop where
  equips : Equips cx p stages q
  nodup : (stages.map Prod.fst).Nodup
  unseen : ∀ b ∈ stages.map Prod.fst, b ∉ p.examined
  concrete : ∀ b ∈ stages.map Prod.fst, F.isConcrete b = true ∧ ∃ d ∈ ds, F.Inherits d b
  looked : ∀ d ∈ ds, d ∈ q.examined
  covers : ∀ b ∈ q.examined, b ∉ p.examined → F.isConcrete b = true → b ∈ stages.map Prod.fst
  above : ∀ b ∈ stages.map Prod.fst, ∀ a, F.Inherits b a → a ∈ q.examined

section
variable {cx : Context} {F : Forest} {p q r : Pass} {ds ds' : List DeclarationId}
  {stages stages' : List (DeclarationId × Forest)} {d : DeclarationId}

theorem Looks.nil (p : Pass) : Looks cx F p [] [] p where
  equips := .refl p
  nodup := List.nodup_nil
  unseen := fun _ hb => absurd hb List.not_mem_nil
  concrete := fun _ hb => absurd hb List.not_mem_nil
  looked := fun _ hb => absurd hb List.not_mem_nil
  covers := fun _ hb hn => absurd hb hn
  above := fun _ hb => absurd hb List.not_mem_nil

/-- a class that was looked at before is not looked at again -/
theorem Looks.seen (hd : d ∈ p.examined) : Looks cx F p [d] [] p :=
  have hnil : Looks cx F p [] [] p := .nil p
  ⟨hnil.equips, hnil.nodup, hnil.unseen, fun _ hb => absurd hb List.not_mem_nil,
    fun _ hb => List.mem_singleton.mp hb ▸ hd, hnil.covers, hnil.above⟩

/-- a class that is not concrete is given nothing -/
theorem Looks.abstract (hd : ¬ F.isConcrete d = true) :
    Looks cx F p [d] [] { p with examined := d :: p.examined } where
  equips := (Equips.refl p).examine d
  nodup := List.nodup_nil
  unseen := fun _ hb => absurd hb List.not_mem_nil
  concrete := fun _ hb => absurd hb List.not_mem_nil
  looked := fun _ hb => List.mem_singleton.mp hb ▸ List.mem_cons_self
  covers := fun b hb hnew hconcrete => by
    rcases List.mem_cons.mp hb with rfl | hb
    · exact absurd hconcrete hd
    · exact absurd hb hnew
  above := fun _ hb => absurd hb List.not_mem_nil

theorem Looks.examined (h : Looks cx F p ds stages q) : p.examined ⊆ q.examined :=
  Frames.examined h.equips.adds

/-- one list of classes after another -/
theorem Looks.append (h : Looks cx F p ds stages q) (h' : Looks cx F q ds' stages' r) :
    Looks cx F p (ds ++ ds') (stages ++ stages') r := by
  refine ⟨h.equips.trans h'.equips, ?_, fun b hb => ?_, fun b hb => ?_, fun b hb => ?_,
    fun b hb hnew hconcrete => ?_, fun b hb a ha => ?_⟩
  · rw [List.map_append]
    refine List.nodup_append.mpr ⟨h.nodup, h'.nodup, ?_⟩
    rintro b hb _ hb' rfl
    exact h'.unseen b hb' (h.above b hb b .refl)
  · rcases List.mem_append.mp (List.map_append ▸ hb) with hb | hb
    · exact h.unseen b hb
    · exact fun hseen => h'.unseen b hb (h.examined hseen)
  · rcases List.mem_append.mp (List.map_append ▸ hb) with hb | hb
    · obtain ⟨hconcrete, d, hd, hdb⟩ := h.concrete b hb
      exact ⟨hconcrete, d, List.mem_append_left _ hd, hdb⟩
    · obtain ⟨hconcrete, d, hd, hdb⟩ := h'.concrete b hb
      exact ⟨hconcrete, d, List.mem_append_right _ hd, hdb⟩
  · rcases List.mem_append.mp hb with hb | hb
    · exact h'.examined (h.looked b hb)
    · exact h'.looked b hb
  · rw [List.map_append]
    by_cases hq : b ∈ q.examined
    · exact List.mem_append_left _ (h.covers b hq hnew hconcrete)
    · exact List.mem_append_right _ (h'.covers b hb hq hconcrete)
  · rcases List.mem_append.mp (List.map_append ▸ hb) with hb | hb
    · exact h'.examined (h.above b hb a ha)
    · exact h'.above b hb a ha

theorem looks_of_inOrder (h : InOrder (fun q d r => ∃ stages, Looks cx F q [d] stages r) p ds q) :
    ∃ stages, Looks cx F p ds stages q := by
  induction h with
  | done p => exact ⟨[], .nil p⟩
  | next hone _ ih =>
    obtain ⟨stages, hone⟩ := hone
    obtain ⟨stages', hrest⟩ := ih
    exact ⟨_, hone.append hrest⟩

/-- the classes above a class were looked at, and now it is given what it lacks -/
theorem Looks.supply (h : Looks cx F { p with examined := d :: p.examined } (p.forest.ancestors d) stages q)
    (hd : d ∉ p.examined) (hconcrete : F.isConcrete d = true)
    (habove : ∀ b, F.Inherits d b ↔ p.forest.Inherits d b) :
    Looks cx F p [d] (stages ++ [(d, q.forest)]) (q.supply cx d) := by
  have hclasses : (stages ++ [(d, q.forest)]).map Prod.fst = stages.map Prod.fst ++ [d] := by simp
  have hexamined : (q.supply cx d).examined = q.examined := examined_addMembers cx d _ q
  have hdq : d ∈ q.examined := h.examined List.mem_cons_self
  have hlooked : ∀ a, F.Inherits d a → a ∈ q.examined := fun a ha => by
    by_cases e : a = d
    · exact e ▸ hdq
    · exact h.looked a (Forest.mem_ancestors.mpr ⟨(habove a).mp ha, e⟩)
  refine ⟨?_, ?_, ?_, ?_, ?_, ?_, ?_⟩ <;> try rw [hclasses]
  · have hfirst : Equips cx p [] { p with examined := d :: p.examined } := (Equips.refl p).examine d
    exact (hfirst.trans h.equips).supply d
  · refine List.nodup_append.mpr ⟨h.nodup, List.nodup_singleton d, ?_⟩
    rintro b hb _ hb' rfl
    rw [List.mem_singleton.mp hb'] at hb
    exact h.unseen d hb List.mem_cons_self
  · intro b hb
    rcases List.mem_append.mp hb with hb | hb
    · exact fun hseen => h.unseen b hb (List.mem_cons_of_mem _ hseen)
    · rwa [List.mem_singleton.mp hb]
  · intro b hb
    refine ⟨?_, d, List.mem_singleton_self d, ?_⟩
    · rcases List.mem_append.mp hb with hb | hb
      · exact (h.concrete b hb).1
      · rwa [List.mem_singleton.mp hb]
    · rcases List.mem_append.mp hb with hb | hb
      · obtain ⟨a, ha, hab⟩ := (h.concrete b hb).2
        exact ((habove a).mpr (Forest.mem_ancestors.mp ha).1).trans hab
      · rw [List.mem_singleton.mp hb]
        exact .refl
  · intro b hb
    rwa [List.mem_singleton.mp hb, hexamined]
  · intro b hb hnew hb'
    rw [hexamined] at hb
    by_cases e : b = d
    · exact List.mem_append_right _ (List.mem_singleton.mpr e)
    · refine List.mem_append_left _ (h.covers b hb (fun hmem => ?_) hb')
      exact hnew ((List.mem_cons.mp hmem).resolve_left e)
  · intro b hb a ha
    rw [hexamined]
    rcases List.mem_append.mp hb with hb | hb
    · exact h.above b hb a ha
    · exact hlooked a (List.mem_singleton.mp hb ▸ ha)

end

section
variable {cx : Context} {p₀ : Pass} (hF : p₀.forest.Resolves)
include hF

theorem Looks.enriches {p q : Pass} {ds : List DeclarationId} {stages : List (DeclarationId × Forest)}
    (h : Looks cx p₀.forest p ds stages q) (hp : Enriches cx.intrinsics p₀ p) :
    Enriches cx.intrinsics p₀ q :=
  h.equips.enriches hF hp fun b hb => Forest.isSome_of_isConcrete (h.concrete b hb).1

/-- **A class is looked at after those that it inherits from**, as far as they do not wait for it. -/
theorem looks_implementWithin {bound : Nat} {p : Pass} {d : DeclarationId} :
    ∀ way, Enriches cx.intrinsics p₀ p → (p₀.forest.declaration? d).isSome →
    Waiting p₀.forest bound p way →
    ∃ stages, Looks cx p₀.forest p [d] stages (implementWithin cx bound p d) := by
  refine implementWithin_induction (motive := fun bound p d q => ∀ way, Enriches cx.intrinsics p₀ p →
    (p₀.forest.declaration? d).isSome → Waiting p₀.forest bound p way →
    ∃ stages, Looks cx p₀.forest p [d] stages q) ?stop ?seen ?abstract ?concrete bound p d
  case stop => exact fun _ _ _ _ _ hway => absurd hway not_waiting_zero
  case seen => exact fun _ _ _ hseen _ _ _ _ => ⟨[], .seen hseen⟩
  case abstract =>
    intro bound p d _ habstract way hp hd _
    rw [hp.frames.isConcrete_eq hd] at habstract
    exact ⟨[], .abstract habstract⟩
  case concrete =>
    intro bound p d ih hunseen hconcrete q hq way hp hd hway
    rw [hp.frames.isConcrete_eq hd] at hconcrete
    have hstart : Enriches cx.intrinsics p₀ { p with examined := d :: p.examined } :=
      hp.withExamined fun a ha => List.mem_cons_of_mem _ (hp.frames.examined ha)
    have hinherits := fun b => (hp.inherits_iff hF hd (b := b)).symm
    have habove : ∀ a ∈ p.forest.ancestors d, (p₀.forest.declaration? a).isSome := fun a ha =>
      Forest.isSome_of_inherits hd ((hinherits a).mpr (Forest.mem_ancestors.mp ha).1)
    obtain ⟨hinOrder, hq, -⟩ : InOrder (fun q a r => ∃ stages, Looks cx p₀.forest q [a] stages r) _
        (p.forest.ancestors d) q ∧ Enriches cx.intrinsics p₀ q ∧ d :: p.examined ⊆ q.examined :=
      hq ▸ inOrder_foldl (P := fun q => Enriches cx.intrinsics p₀ q ∧ d :: p.examined ⊆ q.examined)
      (fun q a ha hq => by
        obtain ⟨stages, hone⟩ := ih q a (d :: way) hq.1 (habove a ha) (hway.push hd hunseen hq.2)
        exact ⟨⟨stages, hone⟩, hone.enriches hF hq.1, List.Subset.trans hq.2 hone.examined⟩)
      ⟨hstart, List.Subset.refl _⟩
    obtain ⟨stages, hlooks⟩ := looks_of_inOrder hinOrder
    have hsupply : (q.forest.unimplemented d (p.forest.ancestors d)).foldl (addMember cx d) q
        = q.supply cx d := by
      rw [supply, hq.ancestors_eq hF hd, ← hp.ancestors_eq hF hd]
    exact ⟨stages ++ [(d, q.forest)], hsupply ▸ hlooks.supply hunseen hconcrete hinherits⟩

end

/-! ## the whole -/

/-- from `p` to `q` the class `C` and the classes that it inherits from have been given what they lack -/
structure Completes (cx : Context) (p : Pass) (C : DeclarationId) (q : Pass) : Prop where
  /-- no concrete class among them lacks anything any more -/
  complete : ∀ b, q.forest.Inherits C b → q.forest.isConcrete b = true → q.forest.Complete b
  /-- all other declarations are as they were -/
  others : ∀ b x, p.forest.declaration? b = some x →
    ¬ (p.forest.Inherits C b ∧ p.forest.isConcrete b = true) → q.forest.declaration? b = some x
  /-- the concrete ones among them have a turn each, and get one member for each function that they lack
  then -/
  minimal : ∃ stages, Equips cx p stages q ∧ (stages.map Prod.fst).Nodup
    ∧ (∀ b, b ∈ stages.map Prod.fst ↔ p.forest.Inherits C b ∧ p.forest.isConcrete b = true)
    ∧ ∀ b G, (b, G) ∈ stages → p.forest.Gets G q.forest b
  /-- looking at them all once more adds nothing -/
  again : ((implementMembers cx { q with examined := [] } C).forest = q.forest)
    ∧ (implementMembers cx { q with examined := [] } C).repairs = q.repairs

section
variable {cx : Context} {p : Pass} {C : DeclarationId} (hF : p.forest.Resolves)
include hF

/-- looking at a concrete class, when none of those above it was looked at before -/
theorem exists_looks_implementMembers {q : Pass} (hp : Enriches cx.intrinsics p q)
    (hfresh : q.examined = []) (hC : p.forest.isConcrete C = true) :
    ∃ stages, Looks cx p.forest q [C] stages (implementMembers cx q C)
      ∧ ∀ b, b ∈ stages.map Prod.fst ↔ p.forest.Inherits C b ∧ p.forest.isConcrete b = true := by
  obtain ⟨stages, h⟩ : ∃ stages, Looks cx p.forest q [C] stages
      (implementWithin cx (q.forest.declarations.size + 1) q C) :=
    looks_implementWithin hF [] hp (Forest.isSome_of_isConcrete hC)
      (waiting_nil (Nat.lt_succ_of_le hp.frames.size_le))
  have hnew : ∀ b, b ∉ q.examined := fun b => by
    rw [hfresh]
    exact List.not_mem_nil
  have hturn : C ∈ stages.map Prod.fst := h.covers C (h.looked C (List.mem_singleton_self C)) (hnew C) hC
  refine ⟨stages, h, fun b => ⟨fun hb => ?_, fun ⟨hb, hconcrete⟩ => ?_⟩⟩
  · obtain ⟨hconcrete, d, hd, hdb⟩ := h.concrete b hb
    exact ⟨List.mem_singleton.mp hd ▸ hdb, hconcrete⟩
  · exact h.covers b (h.above C hturn b hb) (hnew b) hconcrete

/-- **Looking at a concrete class completes it and the classes that it inherits from**, and adds no more
than that takes, however the classes are above one another and whatever the functions override.  Looking
at any other class does nothing, not even to concrete classes that it inherits from. -/
theorem implementMembers_completes (hL : p.forest.ListsOnce) (hfresh : p.examined = []) :
    (p.forest.isConcrete C = true → Completes cx p C (p.implementMembers cx C))
      ∧ (p.forest.isConcrete C = false → p.implementMembers cx C = { p with examined := [C] }) := by
  refine ⟨fun hC => ?_, fun hC => ?_⟩
  · have hstart : Enriches cx.intrinsics p p := .refl hF.members
    obtain ⟨stages, h, hturns⟩ := exists_looks_implementMembers hF hstart hfresh hC
    have hd := Forest.isSome_of_isConcrete hC
    have hstored : ∀ b ∈ stages.map Prod.fst, (p.forest.declaration? b).isSome := fun b hb =>
      Forest.isSome_of_isConcrete ((hturns b).mp hb).2
    have hq := h.equips.enriches hF hstart hstored
    have hcomplete := h.equips.complete hF hstart hstored
    refine ⟨fun b hb hconcrete => ?_, fun b x hx hnot => ?_, ⟨stages, h.equips, h.nodup, hturns, ?_⟩, ?_⟩
    · have hb := (hq.inherits_iff hF hd).mp hb
      rw [hq.frames.isConcrete_eq (Forest.isSome_of_inherits hd hb)] at hconcrete
      exact hcomplete b ((hturns b).mpr ⟨hb, hconcrete⟩)
    · exact h.equips.adds.declaration?_eq hx (.inl fun hb => hnot ((hturns b).mp hb))
    · exact h.equips.gets hF hstart hL hstored
        (fun b hb => Forest.isSome_class?_of_isConcrete ((hturns b).mp hb).2) h.nodup
    · have hagain : Enriches cx.intrinsics p { p.implementMembers cx C with examined := [] } :=
        hq.withExamined (by rw [hfresh]; exact List.nil_subset _)
      obtain ⟨stages', h', hturns'⟩ := exists_looks_implementMembers hF hagain rfl hC
      exact h'.equips.eq_of_complete fun b hb => hcomplete b ((hturns b).mpr ((hturns' b).mp hb))
  · have hunseen : C ∉ p.examined := by
      rw [hfresh]
      exact List.not_mem_nil
    unfold implementMembers implementWithin
    rw [if_neg hunseen, if_neg (by simp [hC]), hfresh]

end

end Pass

namespace Forest

theorem entire_entwined : entwined.Entire :=
  entire_of_stored (by decide +kernel) (by decide +kernel) (by decide +kernel) (by decide +kernel)
    (by decide +kernel) (by decide +kernel)

/-- an open class `B` lacks the function `m` of an interface `I`, and an abstract class `C` inherits from `B` -/
def bypassed : Forest :=
  let base := (named "lib").installIntrinsics
  let unit := base.1.unitType
  let file := base.2.newFile "pkg" "a.kt" ""
  let i := file.2.newClass "pkg" (.file file.1) "I" .interface
  let m := i.2.newFunction "pkg" (.declaration i.1) "m" unit
  let b := (m.2.updateDeclaration m.1 <| Declaration.mapFunction fun f =>
    { f with modality := .abstract, body := none }).newClass "pkg" (.file file.1) "B" .plain
  let c := ((b.2.addSuperType b.1 ((b.2.typeOf i.1).getD unit)).updateDeclaration b.1 <|
    Declaration.mapClass fun k => { k with modality := .overridable }).newClass "pkg" (.file file.1) "C" .plain
  (c.2.addSuperType c.1 ((c.2.typeOf b.1).getD unit)).updateDeclaration c.1 <|
    Declaration.mapClass fun k => { k with modality := .abstract }

theorem entire_bypassed : bypassed.Entire :=
  entire_of_stored (by decide +kernel) (by decide +kernel) (by decide +kernel) (by decide +kernel)
    (by decide +kernel) (by decide +kernel)

end Forest

namespace Pass

open Forest

/-- classes `A` and `B` are below one another, and `B` gets the function that it lacks -/
theorem completes_entwined :
    let p := start entwined
    let q := p.implementMembers entwinedContext ⟨7⟩
    entwined.Resolves ∧ entwined.ListsOnce ∧ p.examined = [] ∧ entwined.isConcrete ⟨7⟩ = true
      ∧ ⟨7⟩ ∈ entwined.ancestors ⟨6⟩ ∧ ⟨6⟩ ∈ entwined.ancestors ⟨7⟩
      ∧ (entwined.membersOf ⟨7⟩).length < (q.forest.membersOf ⟨7⟩).length
      ∧ Completes entwinedContext p ⟨7⟩ q := by
  intro p q
  have hL : entwined.ListsOnce := by decide +kernel
  have hC : entwined.isConcrete ⟨7⟩ = true := by decide +kernel
  exact ⟨entire_entwined.resolves, hL, rfl, hC, by decide +kernel, by decide +kernel, by decide +kernel,
    (implementMembers_completes (p := p) entire_entwined.resolves hL rfl).1 hC⟩

/-- looking at an abstract class leaves the concrete class that it inherits from as it is -/
theorem lacks_bypassed :
    let p := start bypassed
    let q := p.implementMembers entwinedContext ⟨9⟩
    bypassed.Resolves ∧ bypassed.ListsOnce ∧ p.examined = []
      ∧ q.forest.Inherits ⟨9⟩ ⟨8⟩ ∧ q.forest.isConcrete ⟨8⟩ = true ∧ q.forest.Lacks ⟨8⟩ ⟨7⟩ := by
  intro p q
  have habove : ⟨8⟩ ∈ q.forest.ancestors ⟨9⟩ := by decide +kernel
  have hlacks : ⟨7⟩ ∈ q.forest.unimplemented ⟨8⟩ (q.forest.ancestors ⟨8⟩) := by decide +kernel
  exact ⟨entire_bypassed.resolves, by decide +kernel, rfl, inherits_of_mem_ancestors habove,
    by decide +kernel, mem_unimplemented.mp hlacks⟩

end Pass

end LinkRepair
