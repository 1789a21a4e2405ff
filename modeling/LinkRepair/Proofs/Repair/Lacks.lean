import LinkRepair.Proofs.Repair.Copies

/-!
# What a class lacks

A class that is looked at is given a copy of each function that it lacks.  What is lacking is told here
by what a class inherits, and what it was given by what the copies are, at any later stage.

* `Forest.Resolves`            what classes and functions name is there;
* `Forest.Demands`             an abstract function of a user that a class inherits;
* `Forest.mem_unimplemented`   what a class is given is what it demands and nothing implements;
* `Forest.Fills`               a member that was made for a function;
* `Furnishes.demands`          members that were added and edits raise no new demands;
* `Pass.supply`                a class is given what it lacks;
* `Furnishes.supply_spec`      one member for each function that it lacks, in their order.
-/

namespace LinkRepair

/-- each on the left is paired with one on the right -/
theorem exists_mem_of_forall₂ {α β : Type} {R : α → β → Prop} {l : List α} {k : List β}
    (h : List.Forall₂ R l k) {a : α} (ha : a ∈ l) : ∃ b ∈ k, R a b := by
  induction h with
  | nil => exact absurd ha List.not_mem_nil
  | cons hab _ ih =>
    rcases List.mem_cons.mp ha with rfl | ha
    · exact ⟨_, List.mem_cons_self, hab⟩
    · obtain ⟨b, hb, h⟩ := ih ha
      exact ⟨b, List.mem_cons_of_mem _ hb, h⟩

namespace Forest

/-- what classes and functions name is there -/
structure Resolves (F : Forest) : Prop where
  symbols : ∀ d x, F.declaration? d = some x → F.Knows x.symbol
  heads : ∀ d c, F.class? d = some c → ∀ t ∈ c.superTypes, ∀ s, t.head? = some s →
    F.Knows s ∧ ∀ b, F.owner? s = some b → (F.declaration? b).isSome
  members : F.MembersKnown
  slots : ∀ d x, F.declaration? d = some x → ∀ a ∈ x.content.slots, (F.declaration? a).isSome

/-- the members that a class lists -/
def membersOf (F : Forest) (d : DeclarationId) : List DeclarationId :=
  ((F.class? d).map ClassInfo.members).getD []

/-- nothing is listed as a member twice -/
def ListsOnce (F : Forest) : Prop := (F.declarationIds.flatMap F.membersOf).Nodup

instance (F : Forest) : Decidable F.ListsOnce :=
  inferInstanceAs (Decidable (F.declarationIds.flatMap F.membersOf).Nodup)

/-- an abstract function of a user that the class `d` inherits -/
structure Demands (F : Forest) (d m : DeclarationId) : Prop where
  inherited : ∃ b, F.Inherits d b ∧ b ≠ d ∧ m ∈ F.memberFunctions b
  abstract : F.isAbstract m = true
  defined : ∃ x, F.declaration? m = some x ∧ x.origin = .defined

/-- a function that the class demands, and that nothing in it or above it implements -/
def Lacks (F : Forest) (d m : DeclarationId) : Prop :=
  F.Demands d m ∧ ∀ x, F.declaration? m = some x → ¬ F.Implemented d m x

/-- whatever the class demands is implemented in it or above it -/
def Complete (F : Forest) (d : DeclarationId) : Prop :=
  ∀ m x, F.Demands d m → F.declaration? m = some x → F.Implemented d m x

/-- how many type parameters a function has, and whether it has an extension receiver -/
def extras (F : Forest) (m : DeclarationId) : Option (Nat × Bool) :=
  (F.function? m).map fun f => (f.typeParameters.length, f.extensionReceiver.isSome)

/-- `n` is a member that was made for the function `m`, which is all that it overrides -/
structure Fills (F : Forest) (d n m : DeclarationId) : Prop where
  made : ∃ y, F.declaration? n = some y ∧ y.origin = .unimplemented ∧ y.parent = some (.declaration d)
  plain : F.isPlainFunction n
  concrete : F.isAbstract n = false
  key : F.callKey n = F.callKey m
  extras : F.extras n = F.extras m
  overridden : ∃ x, F.declaration? m = some x ∧ F.overriddenBy n = [x.symbol]

/-- a function with parameters that are there -/
def Copyable (F : Forest) (m : DeclarationId) : Prop :=
  ∃ x f, F.declaration? m = some x ∧ x.content = .ofFunction f
    ∧ ∀ a ∈ (Content.ofFunction f).slots, (F.declaration? a).isSome

section
variable {F : Forest} {a b d m n : DeclarationId}

theorem Entire.resolves (h : F.Entire) : F.Resolves where
  symbols := h.symbols
  heads := fun d c hc t ht s hs => by
    obtain ⟨x, hx, hxc⟩ := class?_eq hc
    have htype : t ∈ x.content.types := by
      rw [class?_eq_some.mp hxc]
      exact ht
    refine ⟨h.typed d x hx t htype s (t.mentioned_subset_blamed (TypeRef.mem_mentioned_of_head? hs)),
      fun b ho => ?_⟩
    obtain ⟨y, hy, _⟩ := h.owners s b ho
    exact Option.isSome_iff_exists.mpr ⟨y, hy⟩
  members := h.children.membersKnown
  slots := fun d x hx a ha => h.children (.declaration d) (.declaration a) (child_of_slot hx rfl ha)

theorem mem_membersOf : m ∈ F.membersOf d ↔ ∃ c, F.class? d = some c ∧ m ∈ c.members := by
  unfold membersOf
  cases F.class? d <;> simp

theorem isSome_of_mem_membersOf (hC : F.MembersKnown) (hm : m ∈ F.membersOf a) :
    (F.declaration? m).isSome := by
  obtain ⟨c, hc, hm⟩ := mem_membersOf.mp hm
  obtain ⟨x, hx, hxc⟩ := class?_eq hc
  exact hC a x c hx hxc m hm

theorem ListsOnce.nodup (h : F.ListsOnce) (d : DeclarationId) : (F.membersOf d).Nodup := by
  cases hc : F.class? d with
  | none => simp [membersOf, hc]
  | some c => exact (List.nodup_flatMap.mp h).1 d (mem_declarationIds.mpr (isSome_of_class? hc))

theorem ListsOnce.single (h : F.ListsOnce) (ha : m ∈ F.membersOf a) (hb : m ∈ F.membersOf b) : a = b := by
  have hstored : ∀ {d}, m ∈ F.membersOf d → d ∈ F.declarationIds := fun hm => by
    obtain ⟨c, hc, _⟩ := mem_membersOf.mp hm
    exact mem_declarationIds.mpr (isSome_of_class? hc)
  by_contra hne
  have : Std.Symm (Function.onFun List.Disjoint F.membersOf) := ⟨fun _ _ h _ hb ha => h ha hb⟩
  exact (List.nodup_flatMap.mp h).2.forall (hstored ha) (hstored hb) hne ha hb

theorem memberFunctions_eq (F : Forest) (d : DeclarationId) :
    F.memberFunctions d = (F.membersOf d).filter F.isPlainFunction := by
  unfold memberFunctions membersOf
  cases F.class? d <;> rfl

theorem isSome_of_inherits (hd : (F.declaration? d).isSome) (h : F.Inherits d b) :
    (F.declaration? b).isSome := by
  cases h with
  | refl => exact hd
  | tail _ hb => exact isSome_of_mem_bases hb

/-- a class that inherits from another one, or from nothing -/
theorem exists_class?_of_demands (h : F.Demands d m) : ∃ c, F.class? d = some c := by
  obtain ⟨b, hb, hne, _⟩ := h.inherited
  rcases Relation.ReflTransGen.cases_head hb with rfl | ⟨a, ha, _⟩
  · exact absurd rfl hne
  · unfold bases at ha
    split at ha
    · exact absurd ha List.not_mem_nil
    · exact ⟨_, ‹_›⟩

/-- what the classes at hand are: the class and those that it inherits from -/
theorem mem_present : n ∈ (d :: F.ancestors d).flatMap F.memberFunctions
    ↔ ∃ b, F.Inherits d b ∧ n ∈ F.memberFunctions b := by
  rw [List.mem_flatMap]
  refine exists_congr fun b => and_congr_left fun _ => ?_
  rw [List.mem_cons, mem_ancestors]
  constructor
  · rintro (rfl | ⟨hb, _⟩)
    · exact .refl
    · exact hb
  · intro hb
    by_cases e : b = d
    · exact .inl e
    · exact .inr ⟨hb, e⟩

/-- **A class is given what it lacks**, and nothing else. -/
theorem mem_unimplemented : m ∈ F.unimplemented d (F.ancestors d) ↔ F.Lacks d m := by
  rw [unimplemented_eq, List.mem_filter, lacks_iff, List.mem_flatMap]
  constructor
  · rintro ⟨⟨b, hb, hm⟩, habstract, ⟨x, hx, hdefined, hoverrides⟩, hkey⟩
    obtain ⟨hinherits, hne⟩ := mem_ancestors.mp hb
    refine ⟨⟨⟨b, hinherits, hne, hm⟩, habstract, x, hx, hdefined⟩, ?_⟩
    rintro y hy ⟨b', n, hb', hn, himplements⟩
    obtain rfl := Option.some.inj (hx.symm.trans hy)
    have hpresent := mem_present.mpr ⟨b', hb', hn⟩
    rcases himplements with hover | ⟨hconcrete, hsame⟩
    · exact hoverrides n hpresent hover
    · exact hkey n hpresent hconcrete hsame
  · rintro ⟨⟨⟨b, hinherits, hne, hm⟩, habstract, x, hx, hdefined⟩, hnot⟩
    refine ⟨⟨b, mem_ancestors.mpr ⟨hinherits, hne⟩, hm⟩, habstract, ⟨x, hx, hdefined, ?_⟩, ?_⟩
    · intro n hn hover
      obtain ⟨b', hb', hn⟩ := mem_present.mp hn
      exact hnot x hx ⟨b', n, hb', hn, .inl hover⟩
    · intro n hn hconcrete hsame
      obtain ⟨b', hb', hn⟩ := mem_present.mp hn
      exact hnot x hx ⟨b', n, hb', hn, .inr ⟨hconcrete, hsame⟩⟩

/-- **A class that lacks nothing is given nothing.** -/
theorem complete_iff : F.Complete d ↔ F.unimplemented d (F.ancestors d) = [] := by
  rw [List.eq_nil_iff_forall_not_mem]
  constructor
  · intro h m hm
    obtain ⟨hdemand, hnot⟩ := mem_unimplemented.mp hm
    obtain ⟨x, hx, _⟩ := hdemand.defined
    exact hnot x hx (h m x hdemand hx)
  · intro h m x hdemand hx
    by_contra hnot
    refine h m (mem_unimplemented.mpr ⟨hdemand, fun y hy => ?_⟩)
    rwa [← Option.some.inj (hx.symm.trans hy)]

/-! ## copies -/

/-- a function that is given parameters has as many type parameters as the one that they come from -/
theorem extras_copySignature (owner : Declaration) {f : FunctionInfo} (h : (F.function? a).isSome)
    (hs : ∀ b ∈ (Content.ofFunction f).slots, (F.declaration? b).isSome) :
    (F.copySignature owner f a).extras a = some (f.typeParameters.length, f.extensionReceiver.isSome) := by
  obtain ⟨info, hinfo⟩ := Option.isSome_iff_exists.mp h
  obtain ⟨x, hx, _⟩ := Option.bind_eq_some_iff.mp hinfo
  obtain ⟨H, g, e, hH, hg⟩ := exists_copySignature (D := fun _ => True) owner f (.refl F)
    (declaration?_isSome.mp (Option.isSome_iff_exists.mpr ⟨x, hx⟩))
  obtain ⟨k, hk⟩ := Option.isSome_iff_exists.mp (hH.isSome_function? h)
  obtain ⟨y, hy, hyf⟩ := Option.bind_eq_some_iff.mp hk
  obtain ⟨_, _, hextras⟩ := hg k
  obtain ⟨htypes, hreceiver⟩ := hextras fun b hb => hs b <| by
    rcases List.mem_append.mp hb with hb | hb
    · exact List.mem_append_left _ hb
    · exact List.mem_append_right _ (List.mem_append_left _ (List.mem_append_right _ hb))
  rw [e, extras, function?, declaration?_updateDeclaration, if_pos rfl, hy, Option.map_some,
    Option.bind_some, Declaration.function?_mapFunction, hyf, Option.map_some, Option.map_some, htypes,
    hreceiver]

/-- **A copy has as many type parameters as its source**, and an extension receiver just if that has one. -/
theorem extras_copyMember {owner source : Declaration} {f : FunctionInfo}
    (hd : F.declaration? d = some owner) (hm : F.declaration? m = some source)
    (hf : source.content = .ofFunction f)
    (hs : ∀ b ∈ (Content.ofFunction f).slots, (F.declaration? b).isSome) :
    (F.copyMember d m).2.extras (F.copyMember d m).1 = F.extras m := by
  have hfun : F.function? m = some f := by simp [function?, hm, Declaration.function?, hf]
  rw [show F.extras m = some (f.typeParameters.length, f.extensionReceiver.isSome) by rw [extras, hfun]; rfl]
  simp only [copyMember, hd, hm, hfun]
  refine extras_copySignature owner ?_ fun b hb => ?_
  · rw [function?_attach, function?, declaration?_addDeclaration, if_pos rfl]
    rfl
  · obtain ⟨z, hz⟩ := Option.isSome_iff_exists.mp (hs b hb)
    exact isSome_declaration?_update (isSome_declaration?_update
      (Option.isSome_iff_exists.mpr ⟨z, declaration?_declare_of_some hz⟩))

end

end Forest

namespace Pass

/-! ## what edits and additions leave -/

/-- from `p` to `q` declarations may be edited, and all that classes have beyond the functions that they
had are members that were added -/
structure Furnishes (I : Intrinsics) (p q : Pass) : Prop where
  frames : Frames I (fun _ => True) (fun _ => True) p q
  known : q.forest.MembersKnown
  added : ∀ a, (p.forest.declaration? a).isSome → ∃ l,
    q.forest.memberFunctions a = p.forest.memberFunctions a ++ l
      ∧ ∀ n ∈ l, ∃ y, q.forest.declaration? n = some y ∧ y.origin = .unimplemented

/-- which class a symbol stands for never changes -/
theorem Frames.classOf?_eq {I : Intrinsics} {T K : DeclarationId → Prop} {p q : Pass} {s : SymbolId}
    (h : Frames I T K p q) (hs : p.forest.Knows s)
    (howner : ∀ b, p.forest.owner? s = some b → (p.forest.declaration? b).isSome) :
    q.forest.classOf? s = p.forest.classOf? s := by
  unfold Forest.classOf?
  rw [h.owner?_eq hs]
  cases ho : p.forest.owner? s with
  | none => simp
  | some d =>
    have hd := howner d ho
    rw [h.isMissing_eq ho hd, Option.filter_some, Option.filter_some, h.any_isClass hd]

/-- no edit changes how many type parameters and receivers a function has -/
theorem Frames.extras_eq {I : Intrinsics} {T K : DeclarationId → Prop} {p q : Pass} {m : DeclarationId}
    (h : Frames I T K p q) (hm : (p.forest.declaration? m).isSome) : q.forest.extras m = p.forest.extras m :=
  h.map_function? hm _ fun _ _ _ _ => rfl

section
variable {I : Intrinsics} {p q : Pass} {a b d m : DeclarationId} {s : SymbolId}
  (hF : p.forest.Resolves) (h : Furnishes I p q)
include h

/-- a function of a user that a class has is one that it had -/
theorem Furnishes.mem_memberFunctions (ha : (p.forest.declaration? a).isSome) {y : Declaration}
    (hm : m ∈ q.forest.memberFunctions a) (hy : q.forest.declaration? m = some y)
    (hdefined : y.origin = .defined) : m ∈ p.forest.memberFunctions a := by
  obtain ⟨l, hl, hadded⟩ := h.added a ha
  rw [hl] at hm
  refine (List.mem_append.mp hm).resolve_right fun hm => ?_
  obtain ⟨z, hz, horigin⟩ := hadded m hm
  obtain rfl := Option.some.inj (hy.symm.trans hz)
  rw [hdefined] at horigin
  cases horigin

include hF

/-- super types are only dropped -/
theorem Furnishes.mem_bases (ha : (p.forest.declaration? a).isSome) (hb : b ∈ q.forest.bases a) :
    b ∈ p.forest.bases a := by
  obtain ⟨c, t, s, hc, ht, hs, hb⟩ := Forest.mem_bases.mp hb
  obtain ⟨c₀, _, hc₀, hsub, _⟩ := h.frames.class?_before ha hc
  have ht₀ := hsub.subset ht
  obtain ⟨hknown, howner⟩ := hF.heads a c₀ hc₀ t ht₀ s hs
  rw [h.frames.classOf?_eq hknown howner] at hb
  exact Forest.mem_bases.mpr ⟨c₀, t, s, hc₀, ht₀, hs, hb⟩

theorem Furnishes.inherits (hd : (p.forest.declaration? d).isSome) (hb : q.forest.Inherits d b) :
    p.forest.Inherits d b := by
  induction hb with
  | refl => exact .refl
  | tail _ hb ih => exact ih.tail (h.mem_bases hF (Forest.isSome_of_inherits hd ih) hb)

/-- **Members that were added and edits raise no new demands.** -/
theorem Furnishes.demands (hd : (p.forest.declaration? d).isSome) (hm : q.forest.Demands d m) :
    p.forest.Demands d m := by
  obtain ⟨⟨b, hb, hne, hmb⟩, habstract, y, hy, hdefined⟩ := hm
  have hb := h.inherits hF hd hb
  have hmb := h.mem_memberFunctions (Forest.isSome_of_inherits hd hb) hmb hy hdefined
  have hstored := Forest.isSome_of_mem_memberFunctions hmb
  obtain ⟨x, hx⟩ := Option.isSome_iff_exists.mp hstored
  have hbecomes := h.frames.becomes hx hy
  exact ⟨⟨b, hb, hne, hmb⟩, (h.frames.isAbstract_eq hstored).symm.trans habstract, x, hx,
    hbecomes.origin.symm.trans hdefined⟩

/-- **A class lacks no function twice**, if nothing is listed as a member twice. -/
theorem Furnishes.nodup_unimplemented (hL : p.forest.ListsOnce) (hd : (p.forest.declaration? d).isSome) :
    (q.forest.unimplemented d (q.forest.ancestors d)).Nodup := by
  rw [Forest.unimplemented_eq, List.filter_flatMap]
  generalize (d :: q.forest.ancestors d).flatMap q.forest.memberFunctions = present
  -- only what was listed at the start can be lacking
  have hlisted : ∀ b ∈ q.forest.ancestors d, ((q.forest.memberFunctions b).filter
      (q.forest.lacks present)).Sublist (p.forest.membersOf b) := by
    intro b hb
    have hstored := Forest.isSome_of_inherits hd (h.inherits hF hd (Forest.mem_ancestors.mp hb).1)
    obtain ⟨l, hl, hadded⟩ := h.added b hstored
    have hnone : l.filter (q.forest.lacks present) = [] := by
      refine List.filter_eq_nil_iff.mpr fun n hn hlacks => ?_
      obtain ⟨_, ⟨x, hx, hdefined, _⟩, _⟩ := Forest.lacks_iff.mp hlacks
      obtain ⟨y, hy, horigin⟩ := hadded n hn
      rw [← Option.some.inj (hx.symm.trans hy), hdefined] at horigin
      cases horigin
    rw [hl, List.filter_append, hnone, List.append_nil, Forest.memberFunctions_eq]
    exact List.filter_sublist.trans List.filter_sublist
  refine List.nodup_flatMap.mpr ⟨fun b hb => (hL.nodup b).sublist (hlisted b hb), ?_⟩
  refine (q.forest.nodup_ancestors d).imp_of_mem fun {a b} ha hb hne m hma hmb => hne ?_
  exact hL.single ((hlisted a ha).subset hma) ((hlisted b hb).subset hmb)

end

/-! ## one more member -/

/-- from `p` to `q` nothing that was there is edited, but for classes of `K` that list more members -/
def Adds (I : Intrinsics) (K : DeclarationId → Prop) (p q : Pass) : Prop :=
  Frames I (fun a => p.forest.declaration? a = none) K p q

/-- a class is given what it lacks -/
def supply (cx : Context) (p : Pass) (d : DeclarationId) : Pass :=
  (p.forest.unimplemented d (p.forest.ancestors d)).foldl (addMember cx d) p

section
variable {I : Intrinsics} {K K' : DeclarationId → Prop} {p q r : Pass} {a b d m n : DeclarationId}

theorem Adds.refl (p : Pass) : Adds I K p p := Frames.refl p

theorem Adds.trans (h : Adds I K p q) (h' : Adds I K q r) : Adds I K p r :=
  Frames.trans h (Frames.mono h' (fun _ => Frames.declaration?_none h) fun _ hK => hK)

theorem Adds.mono (h : Adds I K p q) (hK : ∀ d, K d → K' d) : Adds I K' p q :=
  Frames.mono h (fun _ hT => hT) hK

theorem not_new {a : DeclarationId} (ha : (p.forest.declaration? a).isSome) :
    ¬ p.forest.declaration? a = none := fun hnone => by
  rw [hnone] at ha
  cases ha

/-- what is not a class stays as it is -/
theorem Adds.declaration?_eq (h : Adds I K p q) {x : Declaration} (hx : p.forest.declaration? a = some x)
    (hK : ¬ K a ∨ x.isClass = false) : q.forest.declaration? a = some x :=
  Frames.declaration?_eq h hx (not_new (Option.isSome_iff_exists.mpr ⟨x, hx⟩)) hK

theorem Adds.overriddenBy_eq (h : Adds I K p q) (ha : (p.forest.declaration? a).isSome) :
    q.forest.overriddenBy a = p.forest.overriddenBy a := by
  obtain ⟨x, hx⟩ := Option.isSome_iff_exists.mp ha
  obtain ⟨y, hy, _, he⟩ := Frames.declaration? h a x hx
  obtain ⟨l, rfl, _⟩ := he (not_new ha)
  unfold Forest.overriddenBy
  rw [hx, hy]
  obtain ⟨_, _, _, _, _, content⟩ := x
  cases content <;> rfl

theorem Adds.isPlainFunction (h : Adds I K p q) (hm : p.forest.isPlainFunction m) :
    q.forest.isPlainFunction m := Frames.isPlainFunction (fun _ => not_new) h hm

/-- **A member that was made for a function stays what it is.** -/
theorem Adds.fills (h : Adds I K p q) (hn : p.forest.Fills d n m) : q.forest.Fills d n m := by
  obtain ⟨⟨y, hy, hmade⟩, hplain, hconcrete, hkey, hextras, x, hx, hover⟩ := hn
  have hclass : y.isClass = false := by
    obtain ⟨y', g, hy', hg⟩ := Forest.exists_of_isPlainFunction hplain
    obtain rfl := Option.some.inj (hy.symm.trans hy')
    simp [Declaration.isClass, Declaration.class?, hg]
  have hn : (p.forest.declaration? n).isSome := Option.isSome_iff_exists.mpr ⟨y, hy⟩
  have hm : (p.forest.declaration? m).isSome := Option.isSome_iff_exists.mpr ⟨x, hx⟩
  obtain ⟨z, hz, hbecomes, _⟩ := Frames.declaration? h m x hx
  exact ⟨⟨y, h.declaration?_eq hy (.inr hclass), hmade⟩, h.isPlainFunction hplain,
    (Frames.isAbstract_eq h hn).trans hconcrete,
    (Frames.callKey_eq h hn).trans (hkey.trans (Frames.callKey_eq h hm).symm),
    (Frames.extras_eq h hn).trans (hextras.trans (Frames.extras_eq h hm).symm),
    z, hz, by rw [h.overriddenBy_eq hn, hover, hbecomes.symbol]⟩

end

section
variable {cx : Context} {K : DeclarationId → Prop} {p q : Pass} {d m : DeclarationId} {c : ClassInfo}

theorem Adds.copyable {I : Intrinsics} (h : Adds I K p q) (hm : p.forest.Copyable m) :
    q.forest.Copyable m := by
  obtain ⟨x, f, hx, hf, hs⟩ := hm
  have hclass : x.isClass = false := by simp [Declaration.isClass, Declaration.class?, hf]
  exact ⟨x, f, h.declaration?_eq hx (.inr hclass), hf, fun a ha => Frames.isSome h (hs a ha)⟩

/-- **A class is given one member** for a function, the last of its members. -/
theorem addMember_spec (cx : Context) (hc : p.forest.class? d = some c) (hm : p.forest.Copyable m) :
    ∃ n, p.forest.declaration? n = none
      ∧ (addMember cx d p m).forest.class? d = some { c with members := c.members ++ [n] }
      ∧ (addMember cx d p m).forest.Fills d n m
      ∧ Adds cx.intrinsics (fun b => b = d) p (addMember cx d p m) := by
  obtain ⟨owner, hd, hclass⟩ := Forest.class?_eq hc
  obtain ⟨source, f, hsource, hf, hs⟩ := hm
  obtain ⟨y, g, hy, hg, ⟨hname, horigin, hparent⟩, ⟨hmodality, hover, hproperty, hlength⟩, hsymbol,
    hmembers⟩ := Forest.copyMember_spec hd hsource hf fun a ha => hs a
      (List.mem_append_right _ (List.mem_append_right _ ha))
  have hnew : p.forest.declaration? (p.forest.copyMember d m).1 = none := by
    rw [Forest.copyMember_fst hd hsource hf]
    exact p.forest.declaration?_size
  have hadds : Adds cx.intrinsics (fun b => b = d) p (addMember cx d p m) :=
    ((frames_copyMember cx p d m).mono (fun _ => False.elim) fun _ hb => hb).trans
      (frames_raiseIn _ hnew)
  have hmade : (addMember cx d p m).forest.declaration? (p.forest.copyMember d m).1
      = some { y with
          content := .ofFunction { g with
            body := some [.expression ⟨(p.forest.copyMember d m).2.expressions.size + 1⟩] } } := by
    refine (declaration?_raiseIn cx _ _ _ _).trans ?_
    rw [if_pos rfl, show Forest.declaration? _ _ = _ from hy, Option.map_some, Declaration.withBody, hg]
  have hkept : (addMember cx d p m).forest.symbol? y.symbol = _ := hsymbol
  have hsource' : (addMember cx d p m).forest.declaration? m = some source :=
    hadds.declaration?_eq hsource (.inr (by simp [Declaration.isClass, Declaration.class?, hf]))
  refine ⟨_, hnew, (class?_raiseIn cx _ _ _ d).trans (hmembers c hc), ⟨⟨_, hmade, horigin, hparent⟩,
    ?_, ?_, ?_, ?_, source, hsource', ?_⟩, hadds⟩
  · simp [Forest.isPlainFunction, hmade, hkept, Declaration.function?, hproperty]
  · simp [Forest.isAbstract, hmade, Declaration.modality?, hmodality]
  · simp [Forest.callKey, Forest.nameOf, Forest.function?, hmade, hsource', Declaration.function?, hf,
      hname, hlength]
  · have hbody : Frames cx.intrinsics (fun _ => True) (fun _ => True)
        { p with forest := (p.forest.copyMember d m).2 } (addMember cx d p m) := frames_raiseIn _ trivial
    rw [hbody.extras_eq (Option.isSome_iff_exists.mpr ⟨y, hy⟩),
      Frames.extras_eq hadds (Option.isSome_iff_exists.mpr ⟨source, hsource⟩)]
    exact Forest.extras_copyMember hd hsource hf hs
  · simp [Forest.overriddenBy, hmade, Declaration.overridden, hover]

/-- **A class is given one member for each of the functions**, in their order. -/
theorem addMembers_spec (cx : Context) : ∀ {ms : List DeclarationId} {p : Pass} {c : ClassInfo},
    p.forest.class? d = some c → (∀ m ∈ ms, p.forest.Copyable m) → ∃ added,
      (ms.foldl (addMember cx d) p).forest.class? d = some { c with members := c.members ++ added }
        ∧ List.Forall₂ ((ms.foldl (addMember cx d) p).forest.Fills d) added ms
        ∧ added.Nodup ∧ (∀ n ∈ added, p.forest.declaration? n = none)
        ∧ Adds cx.intrinsics (fun b => b = d) p (ms.foldl (addMember cx d) p) := by
  intro ms
  induction ms with
  | nil =>
    intro p c hc _
    exact ⟨[], by rw [List.append_nil]; exact hc, .nil, List.nodup_nil,
      fun _ hn => absurd hn List.not_mem_nil, .refl p⟩
  | cons m ms ih =>
    intro p c hc hms
    obtain ⟨n, hnew, hc', hfills, hadds⟩ := addMember_spec cx hc (hms m List.mem_cons_self)
    obtain ⟨added, hc'', hrest, hnodup, hnews, hadds'⟩ := ih hc' fun k hk =>
      hadds.copyable (hms k (List.mem_cons_of_mem _ hk))
    have hstored : n ∉ added := fun hn => by
      obtain ⟨⟨y, hy, _⟩, _⟩ := hfills
      rw [hnews n hn] at hy
      cases hy
    refine ⟨n :: added, ?_, .cons (hadds'.fills hfills) hrest, List.nodup_cons.mpr ⟨hstored, hnodup⟩,
      fun k hk => ?_, hadds.trans hadds'⟩
    · rw [List.append_cons]
      exact hc''
    · rcases List.mem_cons.mp hk with rfl | hk
      · exact hnew
      · exact Frames.declaration?_none hadds (hnews k hk)

end

section
variable {cx : Context} {p q : Pass} {d m : DeclarationId} {c : ClassInfo} (hF : p.forest.Resolves)
  (h : Furnishes cx.intrinsics p q)
include hF h

/-- a function that is lacking can be copied at any stage -/
theorem Furnishes.copyable (hd : (p.forest.declaration? d).isSome) (hm : q.forest.Demands d m) :
    q.forest.Copyable m := by
  obtain ⟨⟨b, _, _, hmb⟩, _, x, hx, _⟩ := h.demands hF hd hm
  obtain ⟨x', f, hx', hf⟩ := Forest.exists_function_of_mem_memberFunctions hmb
  obtain rfl := Option.some.inj (hx.symm.trans hx')
  obtain ⟨y, hy, hbecomes, _⟩ := h.frames.declaration? m x hx
  have hs := hF.slots m x hx
  rw [hf] at hs
  have hcontent := hbecomes.content
  rw [hf] at hcontent
  generalize hyc : y.content = content at hcontent
  cases hcontent with
  | ofFunction => exact ⟨y, _, hy, hyc, fun a ha => h.frames.isSome (hs a ha)⟩

/-- **A class is given one member for each function that it lacks**, in their order. -/
theorem Furnishes.supply_spec (hd : (p.forest.declaration? d).isSome) (hc : q.forest.class? d = some c) :
    ∃ added, (q.supply cx d).forest.class? d = some { c with members := c.members ++ added }
      ∧ List.Forall₂ ((q.supply cx d).forest.Fills d) added (q.forest.unimplemented d (q.forest.ancestors d))
      ∧ added.Nodup ∧ (∀ n ∈ added, q.forest.declaration? n = none)
      ∧ Adds cx.intrinsics (fun b => b = d) q (q.supply cx d) :=
  addMembers_spec cx hc fun _ hm => h.copyable hF hd (Forest.mem_unimplemented.mp hm).1

omit hF in
/-- every declaration at a stage has a symbol that is there -/
theorem Furnishes.knows_symbol (hF : p.forest.Resolves) (a : DeclarationId) (y : Declaration)
    (hy : q.forest.declaration? a = some y) : q.forest.Knows y.symbol := by
  cases hx : p.forest.declaration? a with
  | none => exact Forest.isSome_symbol?_of_owner? (h.frames.fresh a y hx hy).owner
  | some x =>
    have hbecomes := h.frames.becomes hx hy
    rw [hbecomes.symbol]
    exact h.frames.isSome_symbol? (hF.symbols a x hx)

end

/-- a class is given copies of functions that it inherits, and nothing that was there is edited -/
theorem chain_supply (cx : Context) (p : Pass) (d : DeclarationId) :
    Chain cx ⟨fun a => p.forest.declaration? a = none, fun a => a = d, fun _ => True⟩ p (p.supply cx d) := by
  by_cases hd : (p.forest.declaration? d).isSome
  · refine chain_addMembers hd .refl fun m hm => ?_
    obtain ⟨b, _, hmb⟩ := Forest.exists_of_mem_unimplemented hm
    exact ⟨b, b, trivial, .refl, hmb⟩
  · have hnone : p.forest.unimplemented d (p.forest.ancestors d) = [] :=
      List.eq_nil_iff_forall_not_mem.mpr fun m hm => hd <| by
        obtain ⟨c, hc⟩ := Forest.exists_class?_of_demands (Forest.mem_unimplemented.mp hm).1
        exact Forest.isSome_of_class? hc
    rw [supply, hnone]
    exact .refl

theorem adds_supply (cx : Context) (p : Pass) (d : DeclarationId) :
    Adds cx.intrinsics (fun a => a = d) p (p.supply cx d) := Chain.frames (chain_supply cx p d)

section
variable {I : Intrinsics} {cx : Context} {p q : Pass} {d : DeclarationId} (hF : p.forest.Resolves)

theorem Furnishes.refl (hC : p.forest.MembersKnown) : Furnishes I p p where
  frames := .refl p
  known := hC
  added := fun _ _ => ⟨[], (List.append_nil _).symm, fun _ hn => absurd hn List.not_mem_nil⟩

include hF

/-- **A class that is given what it lacks** has members that were added besides those that it had. -/
theorem Furnishes.supply (h : Furnishes cx.intrinsics p q) (hd : (p.forest.declaration? d).isSome) :
    Furnishes cx.intrinsics p (q.supply cx d) := by
  have hadds := adds_supply cx q d
  refine ⟨h.frames.trans (Frames.mono hadds (fun _ _ => trivial) fun _ _ => trivial),
    (chain_supply cx q d).membersKnown h.known, fun a ha => ?_⟩
  obtain ⟨l, hl, hadded⟩ := h.added a ha
  have hold : ∀ n ∈ l, ∃ y, (q.supply cx d).forest.declaration? n = some y ∧ y.origin = .unimplemented := by
    intro n hn
    obtain ⟨y, hy, horigin⟩ := hadded n hn
    obtain ⟨z, hz, hbecomes, _⟩ := Frames.declaration? hadds n y hy
    exact ⟨z, hz, hbecomes.origin.trans horigin⟩
  have ha' := h.frames.isSome ha
  cases hc : q.forest.class? a with
  | none =>
    refine ⟨l, ?_, hold⟩
    rw [← hl]
    unfold Forest.memberFunctions
    rw [hc, Frames.class?_none hadds ha' hc]
  | some c =>
    by_cases e : a = d
    · obtain rfl := e
      obtain ⟨added, hc', hfills, _⟩ := h.supply_spec hF hd hc
      refine ⟨l ++ added.filter (q.supply cx a).forest.isPlainFunction, ?_, fun n hn => ?_⟩
      · rw [Frames.memberFunctions hadds h.known (h.knows_symbol hF) hc hc' rfl, hl, List.append_assoc]
      · rcases List.mem_append.mp hn with hn | hn
        · exact hold n hn
        · obtain ⟨m, _, hfill⟩ := exists_mem_of_forall₂ hfills (List.mem_filter.mp hn).1
          obtain ⟨y, hy, horigin, _⟩ := hfill.made
          exact ⟨y, hy, horigin⟩
    · obtain ⟨x, hx, hxc⟩ := Forest.class?_eq hc
      have hc' : (q.supply cx d).forest.class? a = some c :=
        Option.bind_eq_some_iff.mpr ⟨x, hadds.declaration?_eq hx (.inl e), hxc⟩
      refine ⟨l, ?_, hold⟩
      rw [Frames.memberFunctions hadds h.known (h.knows_symbol hF) hc hc' (List.append_nil _).symm, hl]
      simp

end

end Pass

end LinkRepair
