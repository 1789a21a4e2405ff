import LinkRepair.Proofs.Repair.BreadthFirst

/-!
# Inherited members

A class is given copies of the abstract functions that it inherits and that nothing implements.
While that goes on, in the class itself and in those above it, nothing that was there before is
edited: classes only get members, so what was inherited and offered stays so.

* `Frames.class?_before`        which super types and members a class had before;
* `Frames.inherits`, `Frames.offers`   what is inherited, and what is offered, stays;
* `implementWithin_induction`   the steps of looking at a class and at those above it;
* `chain_implementWithin`       members are copied to classes that were not examined before, and
                                only new declarations are edited;
* `mem_examined_implementMembers`   a class that was looked at counts as examined.
-/

namespace LinkRepair

namespace Forest

section
variable {F : Forest}

theorem class?_eq {d : DeclarationId} {c : ClassInfo} (h : F.class? d = some c) :
    ∃ x, F.declaration? d = some x ∧ x.class? = some c := Option.bind_eq_some_iff.mp h

theorem isSome_of_class? {d : DeclarationId} {c : ClassInfo} (h : F.class? d = some c) :
    (F.declaration? d).isSome := by
  obtain ⟨x, hx, _⟩ := class?_eq h
  exact Option.isSome_iff_exists.mpr ⟨x, hx⟩

theorem isSome_class?_of_isConcrete {d : DeclarationId} (h : F.isConcrete d = true) :
    (F.class? d).isSome := by
  unfold isConcrete at h
  cases hx : F.declaration? d with
  | none => simp [hx] at h
  | some x =>
    cases hc : x.class? with
    | none => simp [hx, hc] at h
    | some c => simp [class?, hx, hc]

theorem isSome_of_isConcrete {d : DeclarationId} (h : F.isConcrete d = true) : (F.declaration? d).isSome := by
  obtain ⟨c, hc⟩ := Option.isSome_iff_exists.mp (isSome_class?_of_isConcrete h)
  exact isSome_of_class? hc

/-- a function that a class has to be given is offered by one of its ancestors -/
theorem exists_of_mem_unimplemented {d m : DeclarationId} {ancestors : List DeclarationId}
    (h : m ∈ F.unimplemented d ancestors) : ∃ b ∈ ancestors, m ∈ F.memberFunctions b :=
  List.mem_flatMap.mp (List.mem_filter.mp h).1

theorem exists_of_mem_memberFunctions {b m : DeclarationId} (h : m ∈ F.memberFunctions b) :
    ∃ c, F.class? b = some c ∧ m ∈ c.members ∧ F.isPlainFunction m := by
  unfold memberFunctions at h
  split at h
  · exact absurd h List.not_mem_nil
  · rename_i c hc
    obtain ⟨hm, hp⟩ := List.mem_filter.mp h
    exact ⟨c, hc, hm, hp⟩

theorem exists_of_isPlainFunction {m : DeclarationId} (h : F.isPlainFunction m) :
    ∃ x f, F.declaration? m = some x ∧ x.content = .ofFunction f := by
  unfold isPlainFunction at h
  split at h
  · cases h
  · rename_i x hx
    obtain ⟨_, hf⟩ := Bool.and_eq_true_iff.mp h
    refine ⟨x, ?_⟩
    unfold Declaration.function? at hf
    cases hc : x.content with
    | ofFunction f => exact ⟨f, hx, rfl⟩
    | _ => simp [hc] at hf

theorem exists_function_of_mem_memberFunctions {b m : DeclarationId} (h : m ∈ F.memberFunctions b) :
    ∃ x f, F.declaration? m = some x ∧ x.content = .ofFunction f := by
  obtain ⟨_, _, _, hplain⟩ := exists_of_mem_memberFunctions h
  exact exists_of_isPlainFunction hplain

theorem isSome_of_mem_memberFunctions {b m : DeclarationId} (h : m ∈ F.memberFunctions b) :
    (F.declaration? m).isSome := by
  obtain ⟨x, _, hx, _⟩ := exists_function_of_mem_memberFunctions h
  exact Option.isSome_iff_exists.mpr ⟨x, hx⟩

theorem copyMember_fst {d m : DeclarationId} {x y : Declaration}
    {f : FunctionInfo} (hd : F.declaration? d = some x) (hm : F.declaration? m = some y)
    (hf : y.content = .ofFunction f) : (F.copyMember d m).1 = ⟨F.declarations.size⟩ := by
  have hfun : F.function? m = some f := by
    simp [function?, hm, Declaration.function?, hf]
  simp only [copyMember, hd, hm, hfun]
  rfl

end

end Forest

/-! ## what stays -/

namespace Pass.Frames

section
variable {I : Intrinsics} {T K : DeclarationId → Prop} {p q : Pass}

theorem isMissing_eq (h : Frames I T K p q) {s : SymbolId} {d : DeclarationId}
    (hd : p.forest.owner? s = some d) (hs : (p.forest.declaration? d).isSome) :
    q.forest.isMissing s = p.forest.isMissing s := by
  obtain ⟨x, y, hx, hy, hb⟩ := h.exists_becomes hs
  simp [Forest.isMissing, Forest.definition?, hd, hx, h.owner? hd, hy, hb.origin]

theorem classOf? (h : Frames I T K p q) {s : SymbolId} {b : DeclarationId}
    (hs : p.forest.classOf? s = some b) : q.forest.classOf? s = some b := by
  unfold Forest.classOf? at hs ⊢
  split at hs
  · cases hs
  · rename_i hm
    obtain ⟨ho, hc⟩ := Option.filter_eq_some_iff.mp hs
    have hsome : (p.forest.declaration? b).isSome := by
      cases hx : p.forest.declaration? b with
      | none => simp [hx] at hc
      | some x => rfl
    rw [h.isMissing_eq ho hsome, if_neg hm, h.owner? ho, Option.filter_some, h.any_isClass hsome,
      if_pos hc]

/-- a class keeps its super types, except for those that are dropped for a reason in the memo, and its
members, with new ones after them -/
theorem class?_before (h : Frames I T K p q) {d : DeclarationId}
    (hd : (p.forest.declaration? d).isSome) {c : ClassInfo} (hc : q.forest.class? d = some c) :
    ∃ c₀ added, p.forest.class? d = some c₀ ∧ c.superTypes.Sublist c₀.superTypes
      ∧ (∀ t ∈ c₀.superTypes, t ∈ c.superTypes ∨ ∃ k, q.memo.Blames t.mentioned k)
      ∧ c.members = c₀.members ++ added ∧ ∀ a ∈ added, p.forest.declaration? a = none := by
  obtain ⟨x, hx⟩ := Option.isSome_iff_exists.mp hd
  obtain ⟨y, hy, hyc⟩ := Forest.class?_eq hc
  have hcontent := (h.becomes hx hy).content
  rw [Forest.class?_eq_some.mp hyc] at hcontent
  generalize hxc : x.content = content at hcontent
  cases hcontent with
  | @ofClass c₀ _ added ht hdrop hnew =>
    exact ⟨c₀, added, Option.bind_eq_some_iff.mpr ⟨x, hx, Forest.class?_eq_some.mpr hxc⟩, ht,
      fun t ht => (hdrop t ht).imp_right fun h => h.2, rfl, hnew⟩

theorem isSome_class? (h : Frames I T K p q) {d : DeclarationId}
    (hd : (p.forest.class? d).isSome) : (q.forest.class? d).isSome := by
  obtain ⟨info, hinfo⟩ := Option.isSome_iff_exists.mp hd
  obtain ⟨x, hx, hxc⟩ := Forest.class?_eq hinfo
  obtain ⟨y, hy, hb, _⟩ := h.declaration? d x hx
  have hclass := hb.isClass
  unfold Declaration.isClass at hclass
  rw [hxc] at hclass
  rw [Forest.class?, hy, Option.bind_some, hclass]
  rfl

theorem isSome_function? (h : Frames I T K p q) {d : DeclarationId}
    (hd : (p.forest.function? d).isSome) : (q.forest.function? d).isSome := by
  obtain ⟨info, hinfo⟩ := Option.isSome_iff_exists.mp hd
  obtain ⟨x, hx, hxf⟩ := Option.bind_eq_some_iff.mp hinfo
  obtain ⟨y, hy, hb, _⟩ := h.declaration? d x hx
  rw [Forest.function?, hy, Option.bind_some, hb.isSome_function?, hxf]
  rfl

/-- a class out of scope keeps all but its list of members -/
theorem class?_of_old (h : Frames I T K p q) {b : DeclarationId} {c : ClassInfo} (hT : ¬ T b)
    (hc : p.forest.class? b = some c) :
    ∃ added, q.forest.class? b = some { c with members := c.members ++ added } := by
  obtain ⟨x, hx, hxc⟩ := Forest.class?_eq hc
  obtain ⟨y, hy, _, he⟩ := h.declaration? b x hx
  obtain ⟨added, rfl, _⟩ := he hT
  exact ⟨added, by
    rw [Forest.class?, hy, Option.bind_some, Declaration.enlist, Declaration.class?_mapClass, hxc]
    rfl⟩

variable (hT : ∀ d, (p.forest.declaration? d).isSome → ¬ T d)
include hT

theorem mem_bases (h : Frames I T K p q) {a b : DeclarationId} (hb : b ∈ p.forest.bases a) :
    b ∈ q.forest.bases a := by
  unfold Forest.bases at hb ⊢
  cases hc : p.forest.class? a with
  | none =>
    rw [hc] at hb
    exact absurd hb List.not_mem_nil
  | some c =>
    obtain ⟨added, hc'⟩ := h.class?_of_old (hT a (Forest.isSome_of_class? hc)) hc
    rw [hc] at hb
    rw [hc']
    obtain ⟨s, hs, hbs⟩ := List.mem_filterMap.mp hb
    exact List.mem_filterMap.mpr ⟨s, hs, h.classOf? hbs⟩

theorem inherits (h : Frames I T K p q) {a b : DeclarationId} (hb : p.forest.Inherits a b) :
    q.forest.Inherits a b :=
  Relation.ReflTransGen.mono (fun _ _ hab => h.mem_bases hT hab) _ _ hb

theorem isPlainFunction (h : Frames I T K p q) {m : DeclarationId}
    (hm : p.forest.isPlainFunction m) : q.forest.isPlainFunction m := by
  obtain ⟨x, f, hx, hf⟩ := Forest.exists_of_isPlainFunction hm
  have hnot : x.isClass = false := by simp [Declaration.isClass, Declaration.class?, hf]
  have hy := h.declaration?_eq hx (hT m (Option.isSome_iff_exists.mpr ⟨x, hx⟩)) (.inr hnot)
  unfold Forest.isPlainFunction at hm ⊢
  rw [hx] at hm
  rw [hy]
  obtain ⟨hs, hfun⟩ := Bool.and_eq_true_iff.mp hm
  refine Bool.and_eq_true_iff.mpr ⟨?_, hfun⟩
  cases hsym : p.forest.symbol? x.symbol with
  | none => simp [hsym] at hs
  | some y =>
    rw [hsym] at hs
    rw [h.symbol? _ _ hsym]
    exact hs

theorem mem_memberFunctions (h : Frames I T K p q) {b m : DeclarationId}
    (hm : m ∈ p.forest.memberFunctions b) : m ∈ q.forest.memberFunctions b := by
  obtain ⟨c, hc, hmem, hp⟩ := Forest.exists_of_mem_memberFunctions hm
  obtain ⟨added, hc'⟩ := h.class?_of_old (hT b (Forest.isSome_of_class? hc)) hc
  unfold Forest.memberFunctions
  rw [hc']
  exact List.mem_filter.mpr ⟨List.mem_append_left _ hmem, h.isPlainFunction hT hp⟩

theorem offers (h : Frames I T K p q) {heirs : DeclarationId → Prop} {m : DeclarationId}
    (hm : p.forest.Offers heirs m) : q.forest.Offers heirs m := by
  obtain ⟨r, b, hr, hb, hm⟩ := hm
  exact ⟨r, b, hr, h.inherits hT hb, h.mem_memberFunctions hT hm⟩

end

end Pass.Frames

/-! ## the repair -/

namespace Pass

/-- only what is new is edited, and only classes that were not examined before get members -/
def fringe (p : Pass) (heirs : DeclarationId → Prop) : Scope where
  touched a := p.forest.declaration? a = none
  growing a := a ∉ p.examined
  heirs := heirs

section
variable {cx : Context} {heirs : DeclarationId → Prop} {p q : Pass}

theorem not_touched_fringe {d : DeclarationId} (hd : (p.forest.declaration? d).isSome) :
    ¬ (p.fringe heirs).touched d := by
  intro hnone
  rw [show p.forest.declaration? d = none from hnone] at hd
  cases hd

/-- what is new later on is new now -/
theorem Chain.fringe {c : Scope} {r : Pass} (h : Chain cx c p q) (h' : Chain cx (q.fringe heirs) q r) :
    Chain cx (p.fringe heirs) q r :=
  h'.mono (fun _ => h.frames.declaration?_none) (fun _ ha he => ha (h.frames.examined he))
    fun _ hr => hr

/-- one member after the other -/
theorem chain_addMembers {d : DeclarationId} (hd : (p.forest.declaration? d).isSome) :
    ∀ {ms : List DeclarationId} {q : Pass},
      Chain cx ⟨fun a => p.forest.declaration? a = none, fun a => a = d, heirs⟩ p q →
      (∀ m ∈ ms, p.forest.Offers heirs m) →
      Chain cx ⟨fun a => p.forest.declaration? a = none, fun a => a = d, heirs⟩ p
        (ms.foldl (addMember cx d) q) := by
  intro ms
  induction ms with
  | nil => intro q hq _; exact hq
  | cons m ms ih =>
    intro q hq hms
    refine ih (.trans hq ?_) fun a ha => hms a (List.mem_cons_of_mem _ ha)
    have hoffer := hq.frames.offers (fun a ha hnone => by
      rw [show p.forest.declaration? a = none from hnone] at ha
      cases ha) (hms m List.mem_cons_self)
    obtain ⟨x, hx⟩ := Option.isSome_iff_exists.mp (hq.frames.isSome hd)
    obtain ⟨r, b, _, _, hmem⟩ := id hoffer
    obtain ⟨y, f, hy, hf⟩ := Forest.exists_function_of_mem_memberFunctions hmem
    refine .tail (.single (.member rfl hoffer)) (.raise _ ?_ ?_)
    · show p.forest.declaration? (q.forest.copyMember d m).1 = none
      rw [Forest.copyMember_fst hx hy hf]
      exact hq.frames.declaration?_none q.forest.declaration?_size
    · refine Forest.hasRoutine_of_function? (Forest.isSome_function?_copyMember (f := f) hx ?_)
      simp [Forest.function?, hy, Declaration.function?, hf]

/-- **Looking at a class, case by case**: the bound is used up, the class was looked at before, it is
abstract, or it is concrete and given its members after the classes above it. -/
theorem implementWithin_induction {motive : Nat → Pass → DeclarationId → Pass → Prop}
    (stop : ∀ p d, motive 0 p d p)
    (seen : ∀ bound p d, d ∈ p.examined → motive (bound + 1) p d p)
    (abstract : ∀ bound p d, d ∉ p.examined → ¬ p.forest.isConcrete d →
      motive (bound + 1) p d { p with examined := d :: p.examined })
    (concrete : ∀ bound p d, (∀ q a, motive bound q a (implementWithin cx bound q a)) →
      d ∉ p.examined → p.forest.isConcrete d = true → ∀ q,
      (p.forest.ancestors d).foldl (implementWithin cx bound) { p with examined := d :: p.examined } = q →
      motive (bound + 1) p d ((q.forest.unimplemented d (p.forest.ancestors d)).foldl (addMember cx d) q)) :
    ∀ bound p d, motive bound p d (implementWithin cx bound p d) := by
  intro bound
  induction bound with
  | zero => exact stop
  | succ bound ih =>
    intro p d
    unfold implementWithin
    split
    · rename_i hseen
      exact seen bound p d hseen
    · rename_i hunseen
      dsimp only
      split
      · rename_i hconcrete
        exact concrete bound p d ih hunseen hconcrete _ rfl
      · rename_i habstract
        exact abstract bound p d hunseen habstract

/-- the classes on `way` wait for another one to be looked at: all have been looked at themselves, and the
bound leaves room for the others -/
structure Waiting (F : Forest) (bound : Nat) (p : Pass) (way : List DeclarationId) : Prop where
  nodup : way.Nodup
  stored : ∀ a ∈ way, (F.declaration? a).isSome
  seen : way ⊆ p.examined
  room : F.declarations.size < bound + way.length

section
variable {F : Forest} {bound : Nat} {way : List DeclarationId}

theorem waiting_nil (h : F.declarations.size < bound) : Waiting F bound p [] :=
  ⟨List.nodup_nil, fun _ h => absurd h List.not_mem_nil, List.nil_subset _, h⟩

/-- classes that wait are different, so they are no more than there are -/
theorem not_waiting_zero : ¬ Waiting F 0 p way := fun h => by
  have hle := Forest.length_le_of_declared h.nodup h.stored
  have := h.room
  omega

/-- a class that was not looked at before is not on the way, so it can wait too -/
theorem Waiting.push {d : DeclarationId} (h : Waiting F (bound + 1) p way) (hd : (F.declaration? d).isSome)
    (hunseen : d ∉ p.examined) (hq : d :: p.examined ⊆ q.examined) : Waiting F bound q (d :: way) where
  nodup := List.nodup_cons.mpr ⟨fun hway => hunseen (h.seen hway), h.nodup⟩
  stored := List.forall_mem_cons.mpr ⟨hd, h.stored⟩
  seen := List.Subset.trans (List.cons_subset_cons d h.seen) hq
  room := by
    have := h.room
    rw [List.length_cons]
    omega

end

/-- **Members are copied to classes that were not examined before**, and only new declarations are
edited. -/
theorem chain_implementWithin {bound : Nat} {p : Pass} {d : DeclarationId} :
    (∃ r, heirs r ∧ p.forest.Inherits r d) →
    Chain cx (p.fringe heirs) p (implementWithin cx bound p d) := by
  refine implementWithin_induction (motive := fun _ p d q =>
    (∃ r, heirs r ∧ p.forest.Inherits r d) → Chain cx (p.fringe heirs) p q)
    ?stop ?seen ?abstract ?concrete bound p d
  case stop => exact fun _ _ _ => .refl
  case seen => exact fun _ _ _ _ _ => .refl
  case abstract => exact fun _ p d _ _ _ => .single (.examine p d)
  case concrete =>
    rintro bound p d ih hunseen hconcrete q hq ⟨r, hr, hrd⟩
    -- the classes above are looked at first
    have habove : Chain cx (p.fringe heirs) p q := hq ▸ List.foldlRecOn
      (motive := fun q => Chain cx (p.fringe heirs) p q) _ _ (.single (.examine p d)) fun q hq a ha =>
        hq.trans (hq.fringe (ih q a ⟨r, hr, hq.frames.inherits (fun _ => not_touched_fringe)
          (hrd.trans (Forest.inherits_of_mem_ancestors ha))⟩))
    have hd := habove.frames.isSome (Forest.isSome_of_isConcrete hconcrete)
    refine habove.trans (Chain.mono (chain_addMembers hd .refl fun m hm => ?_)
      (fun a => habove.frames.declaration?_none) ?_ fun _ hr => hr)
    · obtain ⟨b, hb, hmem⟩ := Forest.exists_of_mem_unimplemented hm
      exact ⟨r, b, hr, habove.frames.inherits (fun _ => not_touched_fringe)
        (hrd.trans (Forest.inherits_of_mem_ancestors hb)), hmem⟩
    · rintro a rfl
      exact hunseen

/-! ## which classes were looked at -/

theorem examined_addMembers (cx : Context) (d : DeclarationId) : ∀ (ms : List DeclarationId) (p : Pass),
    (ms.foldl (addMember cx d) p).examined = p.examined
  | [], _ => rfl
  | _ :: ms, p => examined_addMembers cx d ms (addMember cx d p _)

theorem examined_implementWithin : ∀ (bound : Nat) (p : Pass) (d : DeclarationId),
    p.examined ⊆ (implementWithin cx bound p d).examined
      ∧ (0 < bound → d ∈ (implementWithin cx bound p d).examined) := by
  refine implementWithin_induction (motive := fun bound p d q =>
    p.examined ⊆ q.examined ∧ (0 < bound → d ∈ q.examined)) ?stop ?seen ?abstract ?concrete
  case stop => exact fun p d => ⟨List.Subset.refl _, fun h => absurd h (Nat.lt_irrefl 0)⟩
  case seen => exact fun _ p d hd => ⟨List.Subset.refl _, fun _ => hd⟩
  case abstract => exact fun _ p d _ _ => ⟨List.subset_cons_self _ _, fun _ => List.mem_cons_self⟩
  case concrete =>
    intro bound p d ih _ _ q hq
    have habove : d :: p.examined ⊆ q.examined := hq ▸ List.foldlRecOn
      (motive := fun q => d :: p.examined ⊆ q.examined) _ _ (List.Subset.refl _)
      fun q hq a _ => List.Subset.trans hq (ih q a).1
    rw [examined_addMembers]
    exact ⟨List.Subset.trans (List.subset_cons_self _ _) habove, fun _ => habove List.mem_cons_self⟩

/-- each of the classes is looked at, one after the other -/
theorem mem_examined_foldl {bound : Nat} (hbound : 0 < bound) : ∀ {ds : List DeclarationId} {p : Pass}
    {d : DeclarationId}, d ∈ p.examined ∨ d ∈ ds →
    d ∈ (ds.foldl (implementWithin cx bound) p).examined := by
  intro ds
  induction ds with
  | nil => exact fun h => h.resolve_right List.not_mem_nil
  | cons a ds ih =>
    intro p d h
    obtain ⟨hkept, hlooked⟩ := @examined_implementWithin cx bound p a
    refine ih ?_
    rcases h with h | h
    · exact .inl (hkept h)
    · rcases List.mem_cons.mp h with rfl | h
      · exact .inl (hlooked hbound)
      · exact .inr h

/-- **A class is looked at once**, and counts as examined from then on. -/
theorem mem_examined_implementMembers (p : Pass) (d : DeclarationId) :
    d ∈ (p.implementMembers cx d).examined :=
  (examined_implementWithin _ p d).2 (Nat.succ_pos _)

end

end Pass

end LinkRepair
