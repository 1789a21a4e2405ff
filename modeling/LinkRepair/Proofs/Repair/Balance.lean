import LinkRepair.Proofs.Repair.Gifts
import LinkRepair.Proofs.Repair.Order

/-!
# Every class is given what is due

The classes above a class are looked at before the class is given members, and no class is above
itself, so whatever class the sweep comes to first, each is given what is due to it.  The classes that
are looked at are those that are visited, and those above them, which does not depend on the order of
the visits either.

* `Forest.Descent`            the classes on the way down to a class, in one line below it;
* `Pass.Balanced`             every class that was looked at has been given what is due to it, except
                              for those on the way;
* `Balanced.implementWithin`  looking at a class, and before it at the classes above, keeps that;
* `Balanced.visit`            so does every visit;
* `mem_examined_iff`          the classes that are looked at in the end;
* `gifts_perm`                with the roots in another order, the same members are added.
-/

namespace LinkRepair

namespace Forest

/-- the classes on the way to the class `d`, which is above all of them -/
structure Descent (F : Forest) (path : List DeclarationId) (d : DeclarationId) : Prop where
  above : ∀ a ∈ path, F.Above a d
  nodup : (d :: path).Nodup
  stored : ∀ a ∈ d :: path, (F.declaration? a).isSome

/-- a class that is looked at when those of `V` are visited -/
def Regards (F : Forest) (V : DeclarationId → Prop) (a : DeclarationId) : Prop :=
  V a ∨ ∃ r, V r ∧ F.isConcrete r = true ∧ F.Above r a

section
variable {F : Forest} {path : List DeclarationId} {a b d : DeclarationId} {V : DeclarationId → Prop}

theorem Descent.nil (hd : (F.declaration? d).isSome) : F.Descent [] d where
  above := fun _ h => absurd h List.not_mem_nil
  nodup := List.nodup_singleton d
  stored := fun _ ha => List.mem_singleton.mp ha ▸ hd

/-- the way leads through fewer classes than there are declarations -/
theorem Descent.length_lt (h : F.Descent path d) : path.length < F.declarations.size :=
  length_le_of_declared h.nodup h.stored

/-- one level up -/
theorem Descent.up (hE : F.Entire) (hA : F.Acyclic) (h : F.Descent path d) (hb : F.Above d b) :
    F.Descent (d :: path) b := by
  have habove : ∀ a ∈ d :: path, F.Above a b := fun a ha => by
    rcases List.mem_cons.mp ha with rfl | ha
    · exact hb
    · exact (h.above a ha).trans hb
  refine ⟨habove, List.nodup_cons.mpr ⟨fun hmem => ?_, h.nodup⟩, fun a ha => ?_⟩
  · exact Acyclic.not_above hE hA (habove b hmem)
  · rcases List.mem_cons.mp ha with rfl | ha
    · exact hb.isSome
    · exact h.stored a ha

/-- a class above a concrete one is looked at with it -/
theorem Regards.above (h : F.Regards V d) (hd : F.isConcrete d = true) (hb : F.Above d b) :
    F.Regards V b := by
  rcases h with h | ⟨r, hr, hconcrete, hrd⟩
  · exact .inr ⟨d, h, hd, hb⟩
  · exact .inr ⟨r, hr, hconcrete, hrd.trans hb⟩

end

end Forest

namespace Pass

/-- every class that was looked at has been given what is due to it, except for those on the way -/
structure Balanced (cx : Context) (F : Forest) (V : DeclarationId → Prop) (path : List DeclarationId)
    (p : Pass) : Prop where
  tended : p.Tended cx F fun a m => a ∈ p.examined ∧ a ∉ path ∧ F.Due a m
  nodup : p.examined.Nodup
  above : ∀ a ∈ p.examined, a ∉ path → F.isConcrete a = true → ∀ b, F.Above a b → b ∈ p.examined
  gifts : p.gifts.Perm
    ((p.examined.filter fun a => a ∉ path).flatMap fun a => (F.dues a).map (gift cx F a))
  regards : ∀ a ∈ p.examined, F.Regards V a

section
variable {cx : Context} {F : Forest} {V : DeclarationId → Prop} {path : List DeclarationId}
  {p q : Pass} {a b d m : DeclarationId} (hE : F.Entire) (hA : F.Acyclic)
include hE

theorem balanced_start : (start F).Balanced cx F V [] where
  tended := by
    have hnone : (fun a m => a ∈ (start F).examined ∧ a ∉ ([] : List DeclarationId) ∧ F.Due a m)
        = fun _ _ => False := by
      funext a m
      exact eq_false fun h => List.not_mem_nil h.1
    rw [hnone]
    exact tended_start hE
  nodup := List.nodup_nil
  above := fun _ h => absurd h List.not_mem_nil
  gifts := .refl _
  regards := fun _ h => absurd h List.not_mem_nil

include hA

/-- what happens between looking at classes keeps the balance -/
theorem Balanced.mends (h : p.Balanced cx F V path) (hm : Mends cx p q) : q.Balanced cx F V path := by
  have hexamined : q.examined = p.examined := congrArg Prod.snd hm.grants
  have hgifts : q.gifts = p.gifts := congrArg Prod.fst hm.grants
  refine ⟨?_, ?_, ?_, ?_, ?_⟩ <;> rw [hexamined]
  · exact h.tended.chain hE hA hm.chain
  · exact h.nodup
  · exact h.above
  · rw [hgifts]
    exact h.gifts
  · exact h.regards

/-! ## one class -/

/-- a class that is looked at has been given nothing yet -/
theorem Balanced.examine (h : p.Balanced cx F V path) (hd : d ∉ p.examined) (hV : F.Regards V d) :
    Pass.Balanced cx F V (d :: path) { p with examined := d :: p.examined } := by
  have hne : ∀ {a}, a ∈ p.examined → a ≠ d := fun ha e => hd (e ▸ ha)
  have hiff : ∀ {a}, a ∈ d :: p.examined ∧ a ∉ d :: path ↔ a ∈ p.examined ∧ a ∉ path := by
    intro a
    rw [List.mem_cons, List.mem_cons, not_or]
    exact ⟨fun ⟨ha, hne, hp⟩ => ⟨ha.resolve_left hne, hp⟩, fun ⟨ha, hp⟩ => ⟨.inr ha, hne ha, hp⟩⟩
  have hsame : (fun a m => a ∈ d :: p.examined ∧ a ∉ d :: path ∧ F.Due a m)
      = fun a m => a ∈ p.examined ∧ a ∉ path ∧ F.Due a m := by
    funext a m
    rw [← and_assoc, ← and_assoc, propext hiff]
  refine ⟨?_, List.nodup_cons.mpr ⟨hd, h.nodup⟩, fun a ha hpath hconcrete b hb => ?_, ?_, fun a ha => ?_⟩
  · show Tended cx F (fun a m => a ∈ d :: p.examined ∧ a ∉ d :: path ∧ F.Due a m) _
    rw [hsame]
    exact h.tended.chain hE hA (.single (.examine p d))
  · obtain ⟨ha, hpath⟩ := hiff.mp ⟨ha, hpath⟩
    exact List.mem_cons_of_mem _ (h.above a ha hpath hconcrete b hb)
  · show p.gifts.Perm _
    have hfilter : ((d :: p.examined).filter fun a => a ∉ d :: path)
        = p.examined.filter fun a => a ∉ path := by
      rw [List.filter_cons_of_neg (by simp)]
      refine List.filter_congr fun a ha => ?_
      rw [decide_eq_decide, List.mem_cons, not_or]
      exact and_iff_right (hne ha)
    show p.gifts.Perm (((d :: p.examined).filter fun a => a ∉ d :: path).flatMap _)
    rw [hfilter]
    exact h.gifts
  · rcases List.mem_cons.mp ha with rfl | ha
    · exact hV
    · exact h.regards a ha

/-- **A class is given what is due to it**, and is on the way no more. -/
theorem Balanced.addMembers (h : p.Balanced cx F V (d :: path)) (hd : d ∈ p.examined) (hpath : d ∉ path)
    (habove : F.isConcrete d = true → ∀ b, F.Above d b → b ∈ p.examined) {ms : List DeclarationId}
    (hms : ms.Perm (F.dues d)) : (ms.foldl (Pass.addMember cx d) p).Balanced cx F V path := by
  have hdue : ∀ m ∈ ms, F.Due d m := fun m hm => Forest.mem_dues.mp (hms.mem_iff.mp hm)
  obtain ⟨htended, hgifts⟩ := h.tended.addMembers hE hA hdue
  have hsplit : ∀ {a}, a ∉ path ↔ a ∉ d :: path ∨ a = d := by
    intro a
    rw [List.mem_cons, not_or]
    by_cases e : a = d
    · exact ⟨fun _ => .inr e, fun _ => e ▸ hpath⟩
    · exact ⟨fun ha => .inl ⟨e, ha⟩, fun ha => (ha.resolve_right e).2⟩
  have hsame : (fun a m => (a ∈ p.examined ∧ a ∉ d :: path ∧ F.Due a m) ∨ a = d ∧ m ∈ ms)
      = fun a m => a ∈ p.examined ∧ a ∉ path ∧ F.Due a m := by
    funext a m
    refine propext ?_
    rw [hsplit, hms.mem_iff, Forest.mem_dues]
    constructor
    · rintro (⟨ha, hp, hm⟩ | ⟨rfl, hm⟩)
      · exact ⟨ha, .inl hp, hm⟩
      · exact ⟨hd, .inr rfl, hm⟩
    · rintro ⟨ha, hp | rfl, hm⟩
      · exact .inl ⟨ha, hp, hm⟩
      · exact .inr ⟨rfl, hm⟩
  refine ⟨?_, ?_, ?_, ?_, ?_⟩ <;> rw [examined_addMembers]
  · rw [← hsame]
    exact htended
  · exact h.nodup
  · intro a ha hp hconcrete b hb
    rcases hsplit.mp hp with hp | rfl
    · exact h.above a ha hp hconcrete b hb
    · exact habove hconcrete b hb
  · have hlist : (p.examined.filter fun a => a ∉ path).Perm
        ((p.examined.filter fun a => a ∉ d :: path) ++ [d]) := by
      refine (List.perm_ext_iff_of_nodup (h.nodup.filter _) ?_).mpr fun a => ?_
      · refine List.nodup_append.mpr ⟨h.nodup.filter _, List.nodup_singleton d, ?_⟩
        rintro a ha b hb rfl
        rw [List.mem_singleton.mp hb] at ha
        simp at ha
      · rw [List.mem_append, List.mem_filter, List.mem_filter, List.mem_singleton, decide_eq_true_iff,
          decide_eq_true_iff, hsplit, and_or_left]
        exact or_congr_right ⟨fun h => h.2, fun e => ⟨e ▸ hd, e⟩⟩
    rw [hgifts]
    refine (h.gifts.append (hms.map _)).trans ?_
    refine .trans ?_ (hlist.flatMap_right _).symm
    rw [List.flatMap_append, List.flatMap_singleton]
  · exact h.regards

/-! ## one class after those above it -/

variable (hL : F.Lossless)
include hL

/-- **Looking at a class keeps the balance**: the classes above are looked at first, and then the
class is given what is due. -/
theorem Balanced.implementWithin {bound : Nat} {path : List DeclarationId} {p : Pass}
    {d : DeclarationId} : p.Balanced cx F V path → p.Trimmed F d → F.Descent path d → F.Regards V d →
    F.declarations.size ≤ bound + path.length →
    (Pass.implementWithin cx bound p d).Balanced cx F V path := by
  refine implementWithin_induction (motive := fun bound p d q => ∀ path, p.Balanced cx F V path →
    p.Trimmed F d → F.Descent path d → F.Regards V d → F.declarations.size ≤ bound + path.length →
    q.Balanced cx F V path) ?stop ?seen ?abstract ?concrete bound p d path
  case stop =>
    intro p d path _ _ hdescent _ hbound
    have := hdescent.length_lt
    omega
  case seen => exact fun _ _ _ _ _ h _ _ _ _ => h
  case abstract =>
    intro bound p d hunseen habstract path h _ hdescent hV _
    have hsame : p.forest.isConcrete d = F.isConcrete d :=
      h.tended.plain.frames.isConcrete_eq (d := d) (hdescent.stored d List.mem_cons_self)
    rw [hsame, Bool.not_eq_true] at habstract
    have hnone : ([] : List DeclarationId).Perm (F.dues d) := by rw [Forest.dues_eq_nil habstract]
    exact (h.examine hE hA hunseen hV).addMembers hE hA List.mem_cons_self
      (List.nodup_cons.mp hdescent.nodup).1 (fun hyes => by rw [habstract] at hyes; cases hyes) hnone
  case concrete =>
    intro bound p d ih hunseen hconcrete q hq path h htrim hdescent hV hbound
    have hd : (F.declaration? d).isSome := hdescent.stored d List.mem_cons_self
    have hsame : p.forest.isConcrete d = F.isConcrete d :=
      h.tended.plain.frames.isConcrete_eq (d := d) hd
    rw [hsame] at hconcrete
    have hmem : ∀ b, b ∈ p.forest.ancestors d ↔ F.Above d b := fun b =>
      h.tended.plain.mem_ancestors hE hA hd htrim
    have hup : ∀ b ∈ p.forest.ancestors d, F.Descent (d :: path) b := fun b hb =>
      hdescent.up hE hA ((hmem b).mp hb)
    have hroom : ∀ b ∈ p.forest.ancestors d, 0 < bound := fun b hb => by
      have := (hup b hb).length_lt
      rw [List.length_cons] at this
      omega
    -- the classes above, with one more class on the way
    have habove : q.Balanced cx F V (d :: path) := hq ▸ List.foldlRecOn
      (motive := fun q : Pass => q.Balanced cx F V (d :: path)) _ _ (h.examine hE hA hunseen hV)
      fun q hq b hb => ih q b (d :: path) hq
        (hq.tended.plain.trimmed hE hA (((hmem b).mp hb).whole hE)) (hup b hb)
        (hV.above hconcrete ((hmem b).mp hb)) (by rw [List.length_cons]; omega)
    have hlooked : ∀ b ∈ p.forest.ancestors d, b ∈ q.examined := fun b hb =>
      hq ▸ mem_examined_foldl (hroom b hb) (.inr hb)
    have hself : d ∈ q.examined := hq ▸ List.foldlRecOn (motive := fun q : Pass => d ∈ q.examined) _ _
      List.mem_cons_self fun q hq b _ => (examined_implementWithin bound q b).1 hq
    refine habove.addMembers hE hA hself (List.nodup_cons.mp hdescent.nodup).1
      (fun _ b hb => hlooked b ((hmem b).mpr hb)) ?_
    refine habove.tended.plain.unimplemented_perm hE habove.tended.endowed habove.tended.due
      (fun m hm => hm.2.1 List.mem_cons_self) hA habove.tended.spares hL (fun a m ha hdue => ?_) hmem
      hconcrete (Forest.nodup_ancestors _ _)
    have ha' := (hmem a).mpr ha
    exact ⟨hlooked a ha', (List.nodup_cons.mp (hup a ha').nodup).1, hdue⟩

/-! ## visits -/

/-- **Every visit keeps the balance.** -/
theorem Balanced.visit {S : Prop} {n : Node} (h : p.Balanced cx F V [])
    (hg : p.Grafted cx.intrinsics S F) (hV : ∀ d x, n = .declaration d → F.declaration? d = some x →
      x.isClass → V d) :
    (enterDeclaration cx p n).1.Balanced cx F V []
      ∧ ∀ d x, n = .declaration d → F.declaration? d = some x → x.isClass →
        d ∈ (enterDeclaration cx p n).1.examined := by
  by_cases hclass : ∃ d x info, n = .declaration d ∧ p.forest.declaration? d = some x
    ∧ x.content = .ofClass info
  · obtain ⟨d, y, info, rfl, hy, hinfo⟩ := hclass
    have hvisit : (enterDeclaration cx p (.declaration d)).1 = p.repairClass cx d y.symbol info := by
      unfold enterDeclaration
      simp only [hy, hinfo]
      rfl
    rw [hvisit, repairClass_eq]
    cases hx : F.declaration? d with
    | none =>
      -- no class is added
      have hfashioned := hg.sprouts d y hx hy
      unfold Forest.Fashioned at hfashioned
      rw [hinfo] at hfashioned
      cases hfashioned
    | some x =>
      have hb := h.tended.plain.frames.becomes hx hy
      have hxclass : x.isClass := by
        rw [← hb.isClass, Declaration.isClass, Forest.class?_eq_some.mpr hinfo]
        rfl
      have hmended := h.mends hE hA (mends_mendClass hy hinfo)
      refine ⟨hmended.implementWithin hE hA hL (h.tended.plain.trimmed_mendClass hE hA hx hy hinfo)
        (.nil (Option.isSome_iff_exists.mpr ⟨x, hx⟩)) (.inl (hV d x rfl hx hxclass)) ?_,
        fun b z hbn _ _ => Node.declaration.inj hbn ▸ mem_examined_implementMembers _ d⟩
      have hwords : F.Words _ := hmended.tended.plain.frames.words
      exact Nat.le_succ_of_le hwords.size_le
  · have hnone : ∀ d x info, n = .declaration d → p.forest.declaration? d = some x →
        x.content ≠ .ofClass info := fun d x info hn hx hinfo => hclass ⟨d, x, info, hn, hx, hinfo⟩
    refine ⟨h.mends hE hA (mends_visit hnone), fun d x hn hx hxclass => ?_⟩
    obtain ⟨y, hy, hb, _⟩ := h.tended.plain.frames.declaration? d x hx
    obtain ⟨info, hinfo⟩ := Option.isSome_iff_exists.mp (hb.isClass.trans hxclass)
    exact absurd (Forest.class?_eq_some.mp hinfo) (hnone d y info hn hy)

end

/-! ## the whole sweep -/

/-- a class that is visited in the first sweep -/
def Toured (cx : Context) (F : Forest) (roots : List Root) (d : DeclarationId) : Prop :=
  (∃ x, F.declaration? d = some x ∧ x.isClass)
    ∧ .declaration d ∈ (declarationVisits cx roots (.start F)).map Prod.snd

section
variable {cx : Context} {F : Forest} {roots roots' : List Root} {a : DeclarationId}
  (hE : F.Entire) (hA : F.Acyclic) (hL : F.Lossless) (hk : F.KindCorrect roots)
include hE hA hL hk

/-- in the end every class that was looked at has been given what is due -/
theorem balanced_repairDeclarations :
    (repairDeclarations cx roots (.start F)).Balanced cx F (Toured cx F roots) []
      ∧ ∀ d, Toured cx F roots d → d ∈ (repairDeclarations cx roots (.start F)).examined := by
  have hvisit : ∀ v ∈ declarationVisits cx roots (.start F), v.1.Balanced cx F (Toured cx F roots) [] →
      (enterDeclaration cx v.1 v.2).1.Balanced cx F (Toured cx F roots) []
        ∧ ∀ d x, v.2 = .declaration d → F.declaration? d = some x → x.isClass →
          d ∈ (enterDeclaration cx v.1 v.2).1.examined := fun v hv h =>
    h.visit hE hA hL ((grafted_visit cx hk.bequests hE.parents).2 v hv).1.1 fun d x hn hx hclass =>
      ⟨⟨x, hx, hclass⟩, hn ▸ List.mem_map_of_mem hv⟩
  obtain ⟨hend, hall⟩ := (run_sweep cx F roots).relates
    (R := fun (s t : Pass) => s.Balanced cx F (Toured cx F roots) [] →
      t.Balanced cx F (Toured cx F roots) [] ∧ s.examined ⊆ t.examined)
    (fun _ h => ⟨h, List.Subset.refl _⟩)
    (fun h h' hs => ⟨(h' (h hs).1).1, List.Subset.trans (h hs).2 (h' (h hs).1).2⟩)
    fun v hv h => ⟨(hvisit v hv h).1, (chain_visit cx v.1 v.2).frames.examined⟩
  refine ⟨(hend (balanced_start hE)).1, fun d ⟨⟨x, hx, hclass⟩, hd⟩ => ?_⟩
  obtain ⟨v, hv, hvd⟩ := List.mem_map.mp hd
  obtain ⟨hafter, hlooked⟩ := hvisit v hv ((hall v hv).1 (balanced_start hE)).1
  exact ((hall v hv).2 hafter).2 (hlooked d x hvd hx hclass)

/-- **The classes that are looked at are those that are visited, and those above the concrete ones.** -/
theorem mem_examined_iff :
    a ∈ (repairDeclarations cx roots (.start F)).examined ↔ F.Regards (Toured cx F roots) a := by
  obtain ⟨hend, hlooked⟩ := @balanced_repairDeclarations cx F roots hE hA hL hk
  refine ⟨hend.regards a, ?_⟩
  rintro (ha | ⟨r, hr, hconcrete, hra⟩)
  · exact hlooked a ha
  · exact hend.above r (hlooked r hr) List.not_mem_nil hconcrete a hra

/-- **The members that are added in the first sweep are the same**, in whatever order the roots are
listed. -/
theorem gifts_perm (hF : F.Planted) (hroots : roots.Subperm F.fileRoots) (hperm : roots.Perm roots') :
    (repairDeclarations cx roots (.start F)).gifts.Perm
      (repairDeclarations cx roots' (.start F)).gifts := by
  have hk' := hk.perm hperm
  have htoured : Toured cx F roots = Toured cx F roots' := by
    funext d
    refine propext (and_congr_right fun ⟨x, hx, _⟩ => ?_)
    have hd : F.Stores (.declaration d) := Option.isSome_iff_exists.mpr ⟨x, hx⟩
    exact ⟨mem_visits_perm hE hA hF hroots hk hperm hd, mem_visits_perm hE hA hF
      (hperm.symm.subperm.trans hroots) hk' hperm.symm hd⟩
  obtain ⟨h, _⟩ := @balanced_repairDeclarations cx F roots hE hA hL hk
  obtain ⟨h', _⟩ := @balanced_repairDeclarations cx F roots' hE hA hL hk'
  have hexamined : (repairDeclarations cx roots (.start F)).examined.Perm
      (repairDeclarations cx roots' (.start F)).examined := by
    refine (List.perm_ext_iff_of_nodup h.nodup h'.nodup).mpr fun a => ?_
    rw [mem_examined_iff hE hA hL hk, mem_examined_iff hE hA hL hk', htoured]
  exact h.gifts.trans (((hexamined.filter _).flatMap_right _).trans h'.gifts.symm)

end

end Pass

end LinkRepair
