import Mathlib.Data.List.Find
import LinkRepair.Proofs.Repair.Settlement
import LinkRepair.Proofs.Repair.WellFormed

/-!
# The account of the sweep over declarations

No declaration is in the account twice.  An added member is new when it is complained about; a
function or a class that was there is complained about by its own visit only, and it is visited once;
and the initializer that stands for a class is listed by no other class.

* `Pass.Supplies p q`       from `p` to `q` only new functions were put into the account, each once;
* `Frames.initializer?`     the first initializer of a class stays the first;
* `Pass.Complaint`          what a visit may complain about: something new, its function, or the
                            initializer of its class;
* `accusable_repairDeclarations`   the sweep complains about functions and first initializers;
* `Pass.Accounted`          what every entry is about: an added member, or what was visited;
* `Accounted.visit`, `accounted_repairDeclarations`   each visit keeps it, and so does the sweep.
-/

namespace LinkRepair

namespace Forest

section
variable {F G : Forest} {d a : DeclarationId}

/-- the first initializer of a class is one of its members, and an initializer -/
theorem exists_of_initializer? (h : F.initializer? d = some a) :
    ∃ c, F.class? d = some c ∧ a ∈ c.members
      ∧ ∃ x, F.declaration? a = some x ∧ x.isInitializer := by
  obtain ⟨c, hc, hfind⟩ := Option.bind_eq_some_iff.mp h
  have hany := List.find?_some hfind
  exact ⟨c, hc, List.mem_of_find?_eq_some hfind, (Option.any_eq_true _ _).mp hany⟩

theorem child_of_initializer? (h : F.initializer? d = some a) :
    F.Child (.declaration d) (.declaration a) := by
  obtain ⟨c, hc, ha, _⟩ := exists_of_initializer? h
  obtain ⟨x, hx, hxc⟩ := class?_eq hc
  exact child_of_content hx (class?_eq_some.mp hxc) (List.mem_map_of_mem (List.mem_append_right _ ha))

/-- what may raise a problem: a function, or the first initializer of a class -/
def Accusable (F : Forest) (a : DeclarationId) : Prop :=
  (F.function? a).isSome ∨ ∃ d, F.initializer? d = some a

/-- an initializer is no function -/
theorem not_isInitializer_of_function? {x : Declaration} (h : x.function?.isSome) :
    x.isInitializer = false := by
  obtain ⟨_, _, _, _, _, content⟩ := x
  cases content <;> first | rfl | cases h

/-- what is listed below two reached nodes is listed below one, also by new branches -/
theorem Planted.container_branches (hF : F.Planted) (hb : F.Branches G) {m n o : Node}
    (hm : F.Reached m) (hn : F.Reached n) (ho : G.Child m o) (ho' : G.Child n o) : m = n := by
  by_cases hs : F.Stores o
  · exact hF.container _ _ o hm hn (hb.child hs ho) (hb.child hs ho')
  · exact (hb.hangs o hs).single _ _ ho ho'

theorem ChildrenKnown.membersKnown (h : F.ChildrenKnown) : F.MembersKnown := by
  intro d x c hx hc a ha
  exact h (.declaration d) (.declaration a) (child_of_content hx (class?_eq_some.mp hc)
    (List.mem_map_of_mem (List.mem_append_right _ ha)))

/-- a class without an initializer is given one, which is then its first -/
theorem initializer?_newInitializer (hd : (F.class? d).isSome) (hnone : F.initializer? d = none)
    (hC : F.MembersKnown) (origin : Origin) :
    (F.newInitializer d origin).2.initializer? d = some (F.newInitializer d origin).1 := by
  obtain ⟨c, hc⟩ := Option.isSome_iff_exists.mp hd
  obtain ⟨y, hy, hyc⟩ := class?_eq hc
  obtain ⟨hnew, hclass⟩ := F.newInitializer_spec d origin
  have hgrows : Grows (fun _ => True) F (F.newInitializer d origin).2 :=
    grows_newInitializer trivial (isSome_of_class? hc)
  have hkept : ∀ m ∈ c.members, ((F.newInitializer d origin).2.declaration? m).any
      Declaration.isInitializer = (F.declaration? m).any Declaration.isInitializer := by
    intro m hm
    obtain ⟨x, hx⟩ := Option.isSome_iff_exists.mp (hC d y c hy hyc m hm)
    obtain ⟨added, hz, _⟩ := hgrows.declaration? m x hx
    rw [hx, hz]
    obtain ⟨_, _, _, _, _, content⟩ := x
    cases content <;> rfl
  have hfind : c.members.find? (fun m => (F.declaration? m).any Declaration.isInitializer) = none := by
    rw [initializer?, hc] at hnone
    exact hnone
  rw [initializer?, hclass c hc, Option.bind_some, List.find?_append, List.find?_congr hkept, hfind,
    Option.none_or, List.find?_singleton, if_pos hnew]

end

end Forest

namespace Pass

section
variable {cx : Context} {c : Scope} {I : Intrinsics} {T K : DeclarationId → Prop} {p q r : Pass}
  {d a : DeclarationId}

/-- **No step lists a member that is not there.** -/
theorem Step.membersKnown (h : Step cx c p q) (hp : p.forest.MembersKnown) : q.forest.MembersKnown := by
  cases h with
  | ask => exact hp
  | examine => exact hp
  | amend _ ha =>
    refine hp.update fun x info hx hinfo a hmem => .inl ?_
    obtain ⟨info', hinfo', e⟩ := (ha x hx).members hinfo
    exact ⟨info', hinfo', e ▸ hmem⟩
  | @initializer d _ hd =>
    obtain ⟨info, hinfo⟩ := Option.isSome_iff_exists.mp hd
    exact (Forest.grows_newInitializer (D := fun _ => True) trivial
      (Forest.isSome_of_class? hinfo)).members hp
  | raise =>
    refine Forest.MembersKnown.update (G := Forest.addExpression _ _ |>.2) hp
      fun x info _ hinfo a hmem => .inl ⟨info, ?_, hmem⟩
    obtain ⟨_, _, _, _, _, content⟩ := x
    cases content <;> exact hinfo
  | member => exact (Forest.grows_copyMember (D := fun _ => True) trivial).members hp

theorem Chain.membersKnown (h : Chain cx c p q) (hp : p.forest.MembersKnown) :
    q.forest.MembersKnown := by
  induction h with
  | refl => exact hp
  | tail _ h ih => exact h.membersKnown ih

/-- **The first initializer of a class stays the first**: members are only added after it. -/
theorem Frames.initializer? (h : Frames I T K p q) (hC : p.forest.MembersKnown)
    (hi : p.forest.initializer? d = some a) : q.forest.initializer? d = some a := by
  obtain ⟨info, hinfo, hfind⟩ := Option.bind_eq_some_iff.mp hi
  obtain ⟨x, hx, hxc⟩ := Forest.class?_eq hinfo
  obtain ⟨y, hy, hb, _⟩ := h.declaration? d x hx
  have hkept : ∀ m ∈ info.members, (q.forest.declaration? m).any Declaration.isInitializer
      = (p.forest.declaration? m).any Declaration.isInitializer := by
    intro m hm
    obtain ⟨z, w, hz, hw, hbw⟩ := h.exists_becomes (hC d x info hx hxc m hm)
    rw [hz, hw]
    exact hbw.isInitializer
  have hc := hb.content
  rw [Forest.class?_eq_some.mp hxc] at hc
  generalize hyc : y.content = content at hc
  cases hc with
  | @ofClass _ superTypes added =>
    have hclass : q.forest.class? d
        = some { info with superTypes := superTypes, members := info.members ++ added } :=
      Option.bind_eq_some_iff.mpr ⟨y, hy, Forest.class?_eq_some.mpr hyc⟩
    rw [Forest.initializer?, hclass, Option.bind_some, List.find?_append, List.find?_congr hkept, hfind,
      Option.some_or]

/-! ## added members -/

/-- the nodes that the account is about -/
def accused (p : Pass) : List Node := p.repairs.map Repair.node

/-- from `p` to `q` new functions came into the account, each once -/
structure Supplies (I : Intrinsics) (p q : Pass) : Prop where
  frames : Frames I (fun _ => True) (fun _ => True) p q
  accused : ∃ l, q.accused = p.accused ++ l ∧ l.Nodup
    ∧ ∀ n ∈ l, ∃ a, n = .declaration a ∧ p.forest.declaration? a = none
      ∧ (q.forest.function? a).isSome

theorem Supplies.of_frames (h : Frames I (fun _ => True) (fun _ => True) p q)
    (hr : q.repairs = p.repairs) : Supplies I p q :=
  ⟨h, [], by rw [Pass.accused, hr, List.append_nil]; rfl, List.nodup_nil,
    fun _ he => absurd he List.not_mem_nil⟩

theorem Supplies.trans (h : Supplies I p q) (h' : Supplies I q r) : Supplies I p r := by
  obtain ⟨hf, l, e, hnd, hl⟩ := h
  obtain ⟨hf', l', e', hnd', hl'⟩ := h'
  refine ⟨hf.trans hf', l ++ l', by rw [e', e, List.append_assoc], ?_, fun n hn => ?_⟩
  · rw [List.nodup_append]
    refine ⟨hnd, hnd', ?_⟩
    rintro n hn m hm rfl
    -- what was new before is there now, so it is not new again
    obtain ⟨a, rfl, _, hfun⟩ := hl n hn
    obtain ⟨b, hb, hnone, _⟩ := hl' _ hm
    obtain rfl := Node.declaration.inj hb
    obtain ⟨f, hfa⟩ := Option.isSome_iff_exists.mp hfun
    obtain ⟨x, hx, _⟩ := Option.bind_eq_some_iff.mp hfa
    rw [hnone] at hx
    cases hx
  · rcases List.mem_append.mp hn with hn | hn
    · obtain ⟨a, ha, hnone, hfun⟩ := hl n hn
      exact ⟨a, ha, hnone, hf'.isSome_function? hfun⟩
    · obtain ⟨a, ha, hnone, hfun⟩ := hl' n hn
      exact ⟨a, ha, hf.declaration?_none hnone, hfun⟩

variable (cx) in
theorem supplies_addMember {m : DeclarationId} (hd : (p.forest.declaration? d).isSome)
    (hm : (p.forest.function? m).isSome) : Supplies cx.intrinsics p (addMember cx d p m) := by
  obtain ⟨x, hx⟩ := Option.isSome_iff_exists.mp hd
  obtain ⟨f, hf⟩ := Option.isSome_iff_exists.mp hm
  obtain ⟨y, hy, hyf⟩ := Option.bind_eq_some_iff.mp hf
  have hgrows : Frames cx.intrinsics (fun _ => True) (fun _ => True) p
      { p with forest := (p.forest.copyMember d m).2 } :=
    frames_of_grows (D := fun _ => True) (Forest.grows_copyMember trivial) fun _ _ => .inl trivial
  have hraise : Frames cx.intrinsics (fun _ => True) (fun _ => True)
      { p with forest := (p.forest.copyMember d m).2 } (addMember cx d p m) :=
    frames_raiseIn (.unimplementedMember (p.forest.copyMember d m).1) trivial
  refine ⟨hgrows.trans hraise, [.declaration (p.forest.copyMember d m).1], List.map_append,
    List.nodup_singleton _, fun n hn => ?_⟩
  refine ⟨(p.forest.copyMember d m).1, List.mem_singleton.mp hn, ?_,
    hraise.isSome_function? (Forest.isSome_function?_copyMember hx hf)⟩
  rw [Forest.copyMember_fst hx hy (Forest.function?_eq_some.mp hyf)]
  exact p.forest.declaration?_size

theorem supplies_addMembers : ∀ {ms : List DeclarationId} {q : Pass},
    (q.forest.declaration? d).isSome → (∀ m ∈ ms, (q.forest.function? m).isSome) →
    Supplies cx.intrinsics q (ms.foldl (addMember cx d) q) := by
  intro ms
  induction ms with
  | nil => exact fun _ _ => .of_frames (.refl _) rfl
  | cons m ms ih =>
    intro q hd hms
    have h := supplies_addMember cx hd (hms m List.mem_cons_self)
    exact h.trans (ih (h.frames.isSome hd) fun a ha =>
      h.frames.isSome_function? (hms a (List.mem_cons_of_mem _ ha)))

/-- **The members that classes are given are new, and each is complained about once.** -/
theorem supplies_implementWithin : ∀ (bound : Nat) (p : Pass) (d : DeclarationId),
    Supplies cx.intrinsics p (implementWithin cx bound p d) := by
  have hexamine : ∀ (p : Pass) (d : DeclarationId),
      Supplies cx.intrinsics p { p with examined := d :: p.examined } := fun p d =>
    .of_frames (frames_of_forest_eq rfl (.refl _) (List.subset_cons_self _ _) rfl) rfl
  refine implementWithin_induction (motive := fun _ p _ q => Supplies cx.intrinsics p q)
    ?stop ?seen ?abstract ?concrete
  case stop => exact fun p _ => .of_frames (.refl p) rfl
  case seen => exact fun _ p _ _ => .of_frames (.refl p) rfl
  case abstract => exact fun _ p d _ _ => hexamine p d
  case concrete =>
    intro bound p d ih _ hconcrete q hq
    have habove : Supplies cx.intrinsics p q := hq ▸ List.foldlRecOn
      (motive := Supplies cx.intrinsics p) _ _ (hexamine p d) fun q hq a _ => hq.trans (ih q a)
    have hd := habove.frames.isSome (Forest.isSome_of_isConcrete hconcrete)
    refine habove.trans (supplies_addMembers hd fun m hm => ?_)
    obtain ⟨b, _, hmem⟩ := Forest.exists_of_mem_unimplemented hm
    obtain ⟨x, f, hx, hf⟩ := Forest.exists_function_of_mem_memberFunctions hmem
    exact Option.isSome_iff_exists.mpr ⟨f, Option.bind_eq_some_iff.mpr
      ⟨x, hx, Forest.function?_eq_some.mpr hf⟩⟩

/-! ## one visit -/

theorem account_linkedTypes : ∀ (ts : List TypeRef) (p : Pass),
    (p.linkedTypes ts).2.account = p.account := by
  intro ts
  induction ts with
  | nil => exact fun _ => rfl
  | cons t ts ih => exact fun p => ih (p.ask t.mentioned).2

theorem account_dropBrokenSuperTypes (p : Pass) (d : DeclarationId) :
    (p.dropBrokenSuperTypes d).account = p.account := by
  unfold dropBrokenSuperTypes
  split
  · rfl
  · exact account_linkedTypes _ p

theorem repairs_dropBrokenSuperTypes (p : Pass) (d : DeclarationId) :
    (p.dropBrokenSuperTypes d).repairs = p.repairs :=
  congrArg Prod.fst (account_dropBrokenSuperTypes p d)

theorem account_fixValue (cx : Context) (p : Pass) (d : DeclarationId) :
    (p.fixValue cx d).2.account = p.account := by
  unfold fixValue
  split
  · rfl
  · rename_i type _
    have hr := account_ask p type.mentioned
    generalize p.ask type.mentioned = answer at hr ⊢
    obtain ⟨_ | k, q⟩ := answer <;> exact hr

theorem repairs_fixValue (cx : Context) (p : Pass) (d : DeclarationId) :
    (p.fixValue cx d).2.repairs = p.repairs := congrArg Prod.fst (account_fixValue cx p d)

/-- the initializer that is found or made is the first of the class -/
theorem initializerOf_spec (cx : Context) (hclass : (p.forest.class? d).isSome)
    (hC : p.forest.MembersKnown) :
    (p.initializerOf d).2.forest.initializer? d = some (p.initializerOf d).1
      ∧ (p.initializerOf d).2.repairs = p.repairs
      ∧ Chain cx Scope.everything p (p.initializerOf d).2 := by
  refine ⟨?_, ?_, chain_initializerOf trivial hclass⟩ <;> unfold initializerOf <;> split
  · assumption
  · rename_i hnone
    exact Forest.initializer?_newInitializer hclass hnone hC .missing
  · rfl
  · rfl

/-- the problem of a class is complained about at its first initializer -/
theorem accused_breakClass (cx : Context) (problem : Problem)
    (hr : (p.initializerOf d).2.repairs = p.repairs) :
    (p.breakClass cx d problem).accused = p.accused ++ [.declaration (p.initializerOf d).1] := by
  unfold breakClass accused
  dsimp only
  rw [repairs_dropBrokenSuperTypes, ← hr]
  exact List.map_append

theorem frames_breakClass (cx : Context) (problem : Problem)
    (hclass : (p.forest.class? d).isSome) (hC : p.forest.MembersKnown)
    (hs : ∀ x, p.forest.declaration? d = some x → (p.memo.find? x.symbol).isSome) :
    Frames cx.intrinsics (fun _ => True) (fun _ => True) (p.initializerOf d).2
      (p.breakClass cx d problem) := by
  obtain ⟨hi, _, hchain⟩ := initializerOf_spec cx hclass hC
  have hraise : Chain cx Scope.everything (p.initializerOf d).2
      ((p.initializerOf d).2.raiseIn cx problem (p.initializerOf d).1) :=
    .single (.raise problem trivial (Forest.hasRoutine_of_initializer? hi))
  have hdrop : Chain cx Scope.everything
      ((p.initializerOf d).2.raiseIn cx problem (p.initializerOf d).1) (p.breakClass cx d problem) :=
    chain_dropBrokenSuperTypes trivial (Chain.asked (hchain.trans hraise) hclass hs)
  exact Chain.frames (hraise.trans hdrop)

/-- what a visit of `n`, from `p` to `q`, may complain about -/
inductive Complaint (p q : Pass) (n : Node) (a : DeclarationId) : Prop
  | added (hp : p.forest.declaration? a = none) (hq : (q.forest.function? a).isSome) :
      Complaint p q n a
  | function {x : Declaration} (hn : n = .declaration a) (hx : q.forest.declaration? a = some x)
      (hf : x.function?.isSome) (ho : x.origin ≠ .unimplemented) : Complaint p q n a
  | initializer {d : DeclarationId} (hn : n = .declaration d)
      (hi : q.forest.initializer? d = some a) : Complaint p q n a

/-- what a visit of `n`, from `p` to `q`, put into the account -/
def Complains (p q : Pass) (n : Node) : Prop :=
  ∃ l, q.accused = p.accused ++ l ∧ l.Nodup ∧ ∀ m ∈ l, ∃ a, m = .declaration a ∧ Complaint p q n a

theorem Complains.of_eq {n : Node} (h : q.repairs = p.repairs) : Complains p q n :=
  ⟨[], by rw [accused, h, List.append_nil]; rfl, List.nodup_nil,
    fun _ he => absurd he List.not_mem_nil⟩

theorem Complains.of_supplies {n : Node} (h : Supplies I p q) : Complains p q n := by
  obtain ⟨_, l, hl, hnd, hnew⟩ := h
  refine ⟨l, hl, hnd, fun m hm => ?_⟩
  obtain ⟨a, ha, hnone, hfun⟩ := hnew m hm
  exact ⟨a, ha, .added hnone hfun⟩

/-- what is complained about later, when nothing was so before -/
theorem Complains.of_frames {n : Node} (h : Frames I T K p q) (ha : q.accused = p.accused)
    (hc : Complains q r n) : Complains p r n := by
  obtain ⟨l, hl, hnd, hnew⟩ := hc
  refine ⟨l, ha ▸ hl, hnd, fun m hm => ?_⟩
  obtain ⟨a, hma, hcomplaint⟩ := hnew m hm
  refine ⟨a, hma, ?_⟩
  cases hcomplaint with
  | added hq hr => exact .added (h.declaration?_none hq) hr
  | function hn hx hf ho => exact .function hn hx hf ho
  | initializer hn hi => exact .initializer hn hi

/-- a broken class is complained about at its initializer, and then the members come that it lacks -/
theorem complains_breakClass (cx : Context) (problem : Problem) (hclass : (p.forest.class? d).isSome)
    (hC : p.forest.MembersKnown)
    (hs : ∀ x, p.forest.declaration? d = some x → (p.memo.find? x.symbol).isSome)
    (h : Supplies cx.intrinsics (p.breakClass cx d problem) r) : Complains p r (.declaration d) := by
  obtain ⟨hi, hr, hchain⟩ := initializerOf_spec cx hclass hC
  have hC' := hchain.membersKnown hC
  have hbreak := frames_breakClass cx problem hclass hC hs
  obtain ⟨hframes, l, hl, hnd, hnew⟩ := h
  refine ⟨.declaration (p.initializerOf d).1 :: l, ?_, List.nodup_cons.mpr ⟨fun hmem => ?_, hnd⟩,
    fun m hm => ?_⟩
  · rw [hl, accused_breakClass cx problem hr, List.append_assoc]
    rfl
  · -- the initializer is there before the members are added
    obtain ⟨a, ha, hnone, _⟩ := hnew _ hmem
    obtain rfl := Node.declaration.inj ha
    obtain ⟨_, _, _, y, hy, _⟩ := Forest.exists_of_initializer? (hbreak.initializer? hC' hi)
    rw [hnone] at hy
    cases hy
  · rcases List.mem_cons.mp hm with rfl | hm
    · exact ⟨_, rfl, .initializer rfl ((hbreak.trans hframes).initializer? hC' hi)⟩
    · obtain ⟨a, ha, hnone, hfun⟩ := hnew m hm
      exact ⟨a, ha, .added ((Chain.frames hchain).declaration?_none (hbreak.declaration?_none hnone))
        hfun⟩

theorem complains_repairClass (cx : Context) {x : Declaration} {info : ClassInfo}
    (hx : p.forest.declaration? d = some x) (hc : x.content = .ofClass info)
    (hC : p.forest.MembersKnown) :
    Complains p (p.repairClass cx d x.symbol info) (.declaration d) := by
  have hclass : p.forest.class? d = some info :=
    Option.bind_eq_some_iff.mpr ⟨x, hx, Forest.class?_eq_some.mpr hc⟩
  obtain ⟨hchain, hclass', hrepairs⟩ : Chain cx Scope.everything p
        (each (fixTypeParameter cx) p info.typeParameters).2
      ∧ (each (fixTypeParameter cx) p info.typeParameters).2.forest.class? d = some info
      ∧ (each (fixTypeParameter cx) p info.typeParameters).2.repairs = p.repairs :=
    chain_each (P := fun q => q.forest.class? d = some info ∧ q.repairs = p.repairs)
      (fun q a _ hq => ⟨chain_fixTypeParameter trivial, (fixTypeParameter_class cx q a d).2.trans hq.1,
        (repairs_fixPart a cx.intrinsics.anyType q (.typeParameter a)).trans hq.2⟩) ⟨hclass, rfl⟩
  unfold repairClass
  generalize hq : p.fixTypeParameters cx info.typeParameters = bound
  rw [show each (fixTypeParameter cx) p info.typeParameters = bound from hq] at hchain hclass' hrepairs
  have hasked := Chain.asked_of_ask hchain hx
  have hask := hchain.tail (.ask bound.2 [x.symbol])
  refine Complains.of_frames (q := (bound.2.ask [x.symbol]).2) (Chain.frames hask)
    (congrArg (List.map Repair.node) hrepairs) ?_
  have hsome : ((bound.2.ask [x.symbol]).2.forest.class? d).isSome := by
    rw [ask_forest, hclass']
    rfl
  dsimp only
  cases classProblem d x.symbol (bound.2.ask [x.symbol]).1 bound.1 with
  | none => exact .of_supplies (supplies_implementWithin _ _ d)
  | some problem =>
    exact complains_breakClass cx problem hsome (Chain.membersKnown hask hC) hasked
      (supplies_implementWithin _ _ d)

/-- **A visit complains about its own declaration and about what it adds.** -/
theorem complains_enterDeclaration (cx : Context) (p : Pass) (n : Node)
    (hC : p.forest.MembersKnown) : Complains p (enterDeclaration cx p n).1 n := by
  cases n with
  | expression e => exact .of_eq rfl
  | declaration d =>
    cases hx : p.forest.declaration? d with
    | none =>
      refine .of_eq ?_
      simp only [enterDeclaration, hx]
    | some x =>
      have henter : Frames cx.intrinsics (fun _ => True) (fun _ => True) p
          (enterDeclaration cx p (.declaration d)).1 := Chain.frames (chain_visit cx p (.declaration d))
      cases hc : x.content with
      | ofClass info =>
        have h := complains_repairClass cx hx hc hC
        simp only [enterDeclaration, hx, hc, below]
        exact h
      | ofFunction f =>
        have hfix : ((p.filterOverridden d).fixSignature cx d).2.repairs = p.repairs :=
          repairs_fixSignature (p.filterOverridden d) d
        obtain ⟨y, hy, hb, _⟩ := henter.declaration? d x hx
        rw [enterDeclaration_function cx hx hc] at hy ⊢
        cases hproblem : functionProblem d x (p.signatureVerdict cx d) with
        | none => exact .of_eq hfix
        | some problem =>
          rw [hproblem] at hy
          refine ⟨[.declaration d], ?_, List.nodup_singleton _, fun m hm =>
            ⟨d, List.mem_singleton.mp hm, .function rfl hy ?_ fun ho => ?_⟩⟩
          · rw [show p.accused = ((p.filterOverridden d).fixSignature cx d).2.accused from
              congrArg (List.map Repair.node) hfix.symm]
            exact List.map_append
          · rw [hb.isSome_function?, Forest.function?_eq_some.mpr hc]
            rfl
          · rw [hb.origin] at ho
            rw [functionProblem, ho] at hproblem
            cases hproblem
      | ofProperty info =>
        simp only [enterDeclaration, hx, hc, below]
        exact .of_eq rfl
      | ofField | ofVariable =>
        simp only [enterDeclaration, hx, hc, below]
        exact .of_eq (repairs_fixValue cx p d)
      | ofParameter | ofTypeParameter | ofEnumEntry | ofInitializer =>
        simp only [enterDeclaration, hx, hc, below]
        exact .of_eq rfl

/-! ## the whole sweep -/

theorem Complaint.accusable {n : Node} (h : Complaint p q n a) : q.forest.Accusable a := by
  cases h with
  | added _ hq => exact .inl hq
  | @function x _ hx hf =>
    obtain ⟨f, hxf⟩ := Option.isSome_iff_exists.mp hf
    exact .inl (Option.isSome_iff_exists.mpr ⟨f, Option.bind_eq_some_iff.mpr ⟨x, hx, hxf⟩⟩)
  | @initializer d _ hi => exact .inr ⟨d, hi⟩

theorem Frames.accusable (h : Frames I T K p q) (hC : p.forest.MembersKnown)
    (ha : p.forest.Accusable a) : q.forest.Accusable a :=
  ha.imp h.isSome_function? fun ⟨d, hi⟩ => ⟨d, h.initializer? hC hi⟩

/-- **Whatever the sweep complains about is a function, or the first initializer of a class.** -/
theorem accusable_repairDeclarations (cx : Context) {F : Forest} (hC : F.MembersKnown)
    (roots : List Root) : ∀ n ∈ (repairDeclarations cx roots (.start F)).accused,
      ∃ a, n = .declaration a ∧ (repairDeclarations cx roots (.start F)).forest.Accusable a := by
  refine ((run_sweep cx F roots).invariant (N := fun _ _ => True)
    (P := fun p => p.forest.MembersKnown ∧ ∀ n ∈ p.accused, ∃ a, n = .declaration a ∧ p.forest.Accusable a)
    (fun p n hp _ => ⟨?_, fun _ _ => trivial⟩) (fun _ _ _ _ _ _ => trivial)
    ⟨hC, fun n hn => absurd hn List.not_mem_nil⟩ fun _ _ => trivial).1.2
  have hchain := chain_visit cx p n
  obtain ⟨l, hl, _, hnew⟩ := complains_enterDeclaration cx p n hp.1
  refine ⟨Chain.membersKnown hchain hp.1, fun m hm => ?_⟩
  rw [hl] at hm
  rcases List.mem_append.mp hm with hm | hm
  · obtain ⟨a, ha, hacc⟩ := hp.2 m hm
    exact ⟨a, ha, (Chain.frames hchain).accusable hp.1 hacc⟩
  · obtain ⟨a, ha, hc⟩ := hnew m hm
    exact ⟨a, ha, hc.accusable⟩

/-- what an entry of the account is about, when the nodes `vs` have been visited -/
inductive Entry (p : Pass) (vs : List Node) (a : DeclarationId) : Prop
  | added {x : Declaration} (hx : p.forest.declaration? a = some x) (hf : x.function?.isSome)
      (ho : x.origin = .unimplemented) : Entry p vs a
  | function {x : Declaration} (hx : p.forest.declaration? a = some x) (hf : x.function?.isSome)
      (hv : .declaration a ∈ vs) : Entry p vs a
  | initializer {d : DeclarationId} (hv : .declaration d ∈ vs)
      (hi : p.forest.initializer? d = some a) : Entry p vs a

/-- the account is about added members and about what was visited, and about nothing twice -/
structure Accounted (p : Pass) (vs : List Node) : Prop where
  nodup : p.accused.Nodup
  entries : ∀ n ∈ p.accused, ∃ a, n = .declaration a ∧ p.Entry vs a

theorem Entry.frames {vs : List Node} (h : p.Entry vs a) (hf : Frames I T K p q)
    (hC : p.forest.MembersKnown) : q.Entry vs a := by
  cases h with
  | added hx hfun ho =>
    obtain ⟨y, hy, hb, _⟩ := hf.declaration? a _ hx
    exact .added hy (hb.isSome_function?.trans hfun) (hb.origin.trans ho)
  | function hx hfun hv =>
    obtain ⟨y, hy, hb, _⟩ := hf.declaration? a _ hx
    exact .function hy (hb.isSome_function?.trans hfun) hv
  | @initializer d hv hi => exact .initializer hv (hf.initializer? hC hi)

theorem Entry.mono {vs ws : List Node} (h : p.Entry vs a) (hsub : vs ⊆ ws) : p.Entry ws a := by
  cases h with
  | added hx hf ho => exact .added hx hf ho
  | function hx hf hv => exact .function hx hf (hsub hv)
  | initializer hv hi => exact .initializer (hsub hv) hi

theorem Entry.isSome {vs : List Node} (h : p.Entry vs a) : (p.forest.declaration? a).isSome := by
  cases h with
  | added hx => exact Option.isSome_iff_exists.mpr ⟨_, hx⟩
  | function hx => exact Option.isSome_iff_exists.mpr ⟨_, hx⟩
  | initializer _ hi =>
    obtain ⟨_, _, _, x, hx, _⟩ := Forest.exists_of_initializer? hi
    exact Option.isSome_iff_exists.mpr ⟨x, hx⟩

section
variable {S : Prop} {F : Forest} {vs : List Node} {n : Node}

/-- a function that was not there before stands in for one that is missing -/
theorem Grafted.origin_of_function {x : Declaration} (h : p.Grafted I S F)
    (hnone : F.declaration? a = none) (hx : p.forest.declaration? a = some x)
    (hf : x.function?.isSome) : x.origin = .unimplemented := by
  have hfash := h.sprouts a x hnone hx
  obtain ⟨f, hxf⟩ := Option.isSome_iff_exists.mp hf
  unfold Forest.Fashioned at hfash
  rw [Forest.function?_eq_some.mp hxf] at hfash
  exact hfash.1

/-- what is complained about is accounted for by the visit, and by no earlier one -/
theorem Complaint.entry (h : Complaint p q n a) (hF : F.Planted)
    (hp : p.Grafted I S F) (hq : q.Grafted I S F) (hb : F.Branches q.forest)
    (hknown : ∀ m ∈ vs ++ [n], F.Stores m → F.Reached m) (honce : F.Stores n → n ∉ vs) :
    q.Entry (vs ++ [n]) a ∧ ((p.forest.declaration? a).isSome → ¬ q.Entry vs a) := by
  have hself : n ∈ vs ++ [n] := List.mem_append_right _ (List.mem_singleton_self n)
  cases h with
  | added hnone hfun =>
    obtain ⟨f, hf⟩ := Option.isSome_iff_exists.mp hfun
    obtain ⟨x, hx, hxf⟩ := Option.bind_eq_some_iff.mp hf
    have hsome : x.function?.isSome := Option.isSome_iff_exists.mpr ⟨f, hxf⟩
    refine ⟨.added hx hsome (hq.origin_of_function (hp.frames.declaration?_none hnone) hx hsome),
      fun h => ?_⟩
    rw [hnone] at h
    cases h
  | @function x hn hx hf ho =>
    refine ⟨.function hx hf (hn ▸ hself), fun _ he => ?_⟩
    have hstored : F.Stores n := by
      rw [hn]
      cases hxF : F.declaration? a with
      | none => exact absurd (hq.origin_of_function hxF hx hf) ho
      | some z => exact Option.isSome_iff_exists.mpr ⟨z, hxF⟩
    cases he with
    | added hy _ ho' =>
      obtain rfl := Option.some.inj (hx.symm.trans hy)
      exact ho ho'
    | function _ _ hv => exact honce hstored (hn ▸ hv)
    | initializer _ hi =>
      obtain ⟨_, _, _, y, hy, hyi⟩ := Forest.exists_of_initializer? hi
      obtain rfl := Option.some.inj (hx.symm.trans hy)
      rw [Forest.not_isInitializer_of_function? hf] at hyi
      cases hyi
  | @initializer d hn hi =>
    refine ⟨.initializer (hn ▸ hself) hi, fun _ he => ?_⟩
    obtain ⟨info, hinfo, _, y, hy, hyi⟩ := Forest.exists_of_initializer? hi
    have hstored : ∀ {b c}, q.forest.initializer? b = some c → F.Stores (.declaration b) := by
      intro b c hbc
      obtain ⟨_, hclass, _⟩ := Forest.exists_of_initializer? hbc
      obtain ⟨_, _, hclass', _⟩ := hq.of_class? hclass
      exact Forest.isSome_of_class? hclass'
    cases he with
    | added hx hf | function hx hf =>
      obtain rfl := Option.some.inj (hx.symm.trans hy)
      rw [Forest.not_isInitializer_of_function? hf] at hyi
      cases hyi
    | @initializer d' hv hi' =>
      -- one class lists it only
      have hsame := hF.container_branches hb
        (hknown _ (List.mem_append_left _ hv) (hstored hi')) (hknown _ (hn ▸ hself) (hstored hi))
        (Forest.child_of_initializer? hi') (Forest.child_of_initializer? hi)
      exact honce (hn ▸ hstored hi) (by rw [hn, ← hsame]; exact hv)

/-- **A visit of a node that was not visited before keeps the account in order.** -/
theorem Accounted.visit (h : p.Accounted vs) (hF : F.Planted) (hp : p.Grafted cx.intrinsics S F)
    (hq : (Pass.enterDeclaration cx p n).1.Grafted cx.intrinsics S F)
    (hC : p.forest.MembersKnown) (hb : F.Branches (Pass.enterDeclaration cx p n).1.forest)
    (hknown : ∀ m ∈ vs ++ [n], F.Stores m → F.Reached m) (honce : F.Stores n → n ∉ vs) :
    (Pass.enterDeclaration cx p n).1.Accounted (vs ++ [n]) := by
  have hframes := Chain.frames (chain_visit cx p n)
  obtain ⟨l, hl, hnd, hnew⟩ := complains_enterDeclaration cx p n hC
  have hentry := fun {a} (hc : Complaint p (Pass.enterDeclaration cx p n).1 n a) =>
    hc.entry hF hp hq hb hknown honce
  refine ⟨?_, fun m hm => ?_⟩
  · rw [hl, List.nodup_append]
    refine ⟨h.nodup, hnd, ?_⟩
    rintro m hm _ hm' rfl
    obtain ⟨a, rfl, he⟩ := h.entries m hm
    obtain ⟨b, hb, hc⟩ := hnew _ hm'
    obtain rfl := Node.declaration.inj hb
    exact (hentry hc).2 he.isSome (he.frames hframes hC)
  · rw [hl] at hm
    rcases List.mem_append.mp hm with hm | hm
    · obtain ⟨a, ha, he⟩ := h.entries m hm
      exact ⟨a, ha, (he.frames hframes hC).mono (List.subset_append_left vs [n])⟩
    · obtain ⟨a, ha, hc⟩ := hnew m hm
      exact ⟨a, ha, (hentry hc).1⟩

/-- **No declaration is in the account of the first sweep twice**, and each entry is about an added
member or about what was visited. -/
theorem accounted_repairDeclarations (cx : Context) {roots : List Root} (hF : F.Planted)
    (hB : F.Bequests True roots) (hP : F.ParentsKnown) (hC : F.ChildrenKnown)
    (hroots : roots.Subperm F.fileRoots) :
    (repairDeclarations cx roots (.start F)).Accounted
      ((declarationVisits cx roots (.start F)).map Prod.snd) := by
  have hvisit := grafted_visit cx hB hP
  have hbranches := branches_visit cx hB hC
  -- along the run, every pass is a stage, and no node is visited again
  have hrun : ∀ {vs : List (Pass × Node)} {t : Pass},
      Run (Pass.enterDeclaration cx) (F.topNodes roots) (.start F) vs t →
      (∀ v ∈ vs, (v.1.Grafted cx.intrinsics True F ∧ F.Branches v.1.forest) ∧ F.Known roots v.2) →
      t.Grafted cx.intrinsics True F ∧ F.Branches t.forest →
      (∀ m, F.Stores m → (vs.map Prod.snd).count m ≤ 1) → t.Accounted (vs.map Prod.snd) := by
    intro vs t h
    induction h with
    | start => exact fun _ _ _ => ⟨List.nodup_nil, fun _ hm => absurd hm List.not_mem_nil⟩
    | @visit vs t n _ _ ih =>
      intro hvs hend honce
      rw [List.map_append] at honce ⊢
      obtain ⟨ht, _⟩ := hvs (t, n) (List.mem_append_right _ List.mem_cons_self)
      have h := ih (fun v hv => hvs v (List.mem_append_left _ hv)) ht fun m hm => by
        have := honce m hm
        rw [List.count_append] at this
        omega
      refine h.visit hF ht.1 hend.1 ht.2.childrenKnown.membersKnown hend.2 (fun m hm hs => ?_) fun hs hmem => ?_
      · obtain ⟨v, hv, rfl⟩ := List.mem_map.mp (List.map_append ▸ hm : m ∈ (vs ++ [(t, n)]).map Prod.snd)
        exact Forest.reached_of_reaches hroots.subset ((hvs v hv).2 hs)
      · have hle := honce n hs
        rw [List.count_append, List.map_singleton, List.count_singleton_self] at hle
        exact absurd (List.count_pos_iff.mpr hmem) (by omega)
  exact hrun (run_sweep cx F roots)
    (fun v hv => ⟨⟨(hvisit.2 v hv).1.1, hbranches.2 v hv⟩, (hvisit.2 v hv).2⟩)
    ⟨hvisit.1.1, hbranches.1⟩ fun m hm => count_visits_le_one cx hF hB hP hroots hm

end

end

end Pass

end LinkRepair
