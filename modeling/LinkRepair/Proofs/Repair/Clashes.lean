import LinkRepair.Proofs.Repair.Completeness
import LinkRepair.Proofs.Repair.Gifts
import LinkRepair.Proofs.Repair.Retouched

/-!
# Members that cannot be told apart

A class looks once for the functions that it lacks, and then it is given a member for each of them.  A
member that it has just been given does not count for the functions that come after, although it would do
so by its name and the number of its parameters.  Therefore a class may be given members that no call can
tell apart, just if it lacks several functions of one name at the same time.

* `Forest.Clash`               no call can tell two functions apart;
* `Pass.additions`             the members that a class was given;
* `Pass.Repeats`               such a member has the name and the parameters of the function that it is for;
* `Pass.Served`                a class was given a member for each function that it lacked;
* `Pass.Provides`              a stage at which each class was given members once at most;
* `Provides.keep`              steps that give no members keep that;
* `Provides.served_supply`     a class is given what it lacks;
* `Provides.implementWithin`   and so does looking at a class;
* `Forest.Given`               what a class is given in the whole repair;
* `exists_given`               one member for each function that it lacks at one stage, clashing or not.
-/

namespace LinkRepair

/-- two on the left are paired with two on the right, which are different if nothing is there twice -/
theorem exists_pair_of_forall₂ {α β : Type} {R : α → β → Prop} {l : List α} {k : List β}
    (h : List.Forall₂ R l k) {a a' : α} (ha : a ∈ l) (ha' : a' ∈ l) (hne : a ≠ a') :
    ∃ b ∈ k, ∃ b' ∈ k, R a b ∧ R a' b' ∧ (k.Nodup → b ≠ b') := by
  induction h with
  | nil => exact absurd ha List.not_mem_nil
  | @cons x y l k hxy h ih =>
    rcases List.mem_cons.mp ha with e | hl <;> rcases List.mem_cons.mp ha' with e' | hl'
    · exact absurd (e.trans e'.symm) hne
    · obtain ⟨b, hb, hab⟩ := exists_mem_of_forall₂ h hl'
      rw [e]
      exact ⟨y, List.mem_cons_self, b, List.mem_cons_of_mem _ hb, hxy, hab, fun hnd e =>
        (List.nodup_cons.mp hnd).1 (e ▸ hb)⟩
    · obtain ⟨b, hb, hab⟩ := exists_mem_of_forall₂ h hl
      rw [e']
      exact ⟨b, List.mem_cons_of_mem _ hb, y, List.mem_cons_self, hab, hxy, fun hnd e =>
        (List.nodup_cons.mp hnd).1 (e ▸ hb)⟩
    · obtain ⟨b, hb, b', hb', hab, hab', hneb⟩ := ih hl hl'
      exact ⟨b, List.mem_cons_of_mem _ hb, b', List.mem_cons_of_mem _ hb', hab, hab', fun hnd =>
        hneb (List.nodup_cons.mp hnd).2⟩

namespace Forest

/-- the types of the value parameters of a function -/
def parameterTypes (F : Forest) (m : DeclarationId) : Option (List (Option TypeRef)) :=
  (F.function? m).map fun f => f.valueParameters.map fun a => (F.parameter? a).map ParameterInfo.type

/-- two functions of one name without type parameters and extension receivers, whose value parameters
have the same types -/
structure Clash (F : Forest) (n n' : DeclarationId) : Prop where
  name : F.nameOf n = F.nameOf n'
  plain : F.extras n = some (0, false)
  plain' : F.extras n' = some (0, false)
  types : F.parameterTypes n = F.parameterTypes n'

section
variable {F : Forest} {m n n' : DeclarationId}

/-- functions that clash have one name and as many parameters -/
theorem Clash.callKey_eq (h : F.Clash n n') : F.callKey n = F.callKey n' := by
  refine Prod.ext h.name ?_
  have htypes := h.types
  unfold parameterTypes at htypes
  unfold callKey
  cases hn : F.function? n <;> cases hn' : F.function? n' <;> simp only [hn, hn', Option.map] at htypes ⊢
  · cases htypes
  · cases htypes
  · simpa using congrArg List.length (Option.some.inj htypes)

/-- **Functions of one name without any parameters clash.** -/
theorem clash_of_callKey_eq (hkey : F.callKey n = F.callKey n') (harity : (F.callKey n).2 = 0)
    (hn : F.extras n = some (0, false)) (hn' : F.extras n' = some (0, false)) : F.Clash n n' := by
  have hnone : ∀ {m}, F.extras m = some (0, false) → (F.callKey m).2 = 0 → F.parameterTypes m = some [] := by
    intro m hm harity
    obtain ⟨f, hf, _⟩ := Option.map_eq_some_iff.mp hm
    have hempty : f.valueParameters = [] := List.length_eq_zero_iff.mp (by simpa [callKey, hf] using harity)
    rw [parameterTypes, hf, Option.map_some, hempty]
    rfl
  refine ⟨congrArg Prod.fst hkey, hn, hn', ?_⟩
  rw [hnone hn harity, hnone hn' (hkey ▸ harity)]

end

end Forest

namespace Pass

/-- the members of a class that were made for functions, but for those that it had in `F` -/
def additions (F : Forest) (p : Pass) (d : DeclarationId) : List DeclarationId :=
  (p.forest.membersOf d).filter fun n => (F.declaration? n).isNone
    && (p.forest.declaration? n).any fun y => y.origin = .unimplemented

/-- `n` stands in for the function `m`, and has as many type parameters and receivers -/
structure Repeats (F : Forest) (p : Pass) (n m : DeclarationId) : Prop extends StandsIn F p n m where
  extras : p.forest.extras n = F.extras m

/-- a class that was looked at has been given one member for each function that it lacked at an earlier
stage -/
structure Served (cx : Context) (F : Forest) (p : Pass) (d : DeclarationId) (s : Pass) : Prop where
  examined : d ∈ p.examined
  nodup : (p.additions F d).Nodup
  start : Chain cx .everything (start F) s
  furnishes : Furnishes cx.intrinsics (Pass.start F) s
  since : Chain cx .everything s p
  made : List.Forall₂ (p.Repeats F) (p.additions F d) (s.forest.unimplemented d (s.forest.ancestors d))

/-- a stage of the repair of `F` at which each class was given members once at most -/
structure Provides (cx : Context) (F : Forest) (p : Pass) : Prop where
  chain : Chain cx .everything (start F) p
  furnishes : Furnishes cx.intrinsics (start F) p
  turn : ∀ d, (F.declaration? d).isSome → p.additions F d = [] ∨ ∃ s, p.Served cx F d s

section
variable {cx : Context} {F : Forest} {I : Intrinsics} {T K : DeclarationId → Prop} {p q : Pass}
  {a d m n : DeclarationId}

theorem Repeats.frames (h : p.Repeats F n m) (hf : Frames I T K p q) : q.Repeats F n m := by
  obtain ⟨y, hy, _⟩ := h.origin
  exact ⟨h.toStandsIn.frames hf, (hf.extras_eq (Option.isSome_iff_exists.mpr ⟨y, hy⟩)).trans h.extras⟩

/-- a member that was made for a function of `F` repeats it -/
theorem Furnishes.repeats (h : Furnishes I (start F) p) (hm : (F.declaration? m).isSome)
    (hn : p.forest.Fills d n m) : p.Repeats F n m := by
  obtain ⟨⟨y, hy, horigin, _⟩, _, hconcrete, hkey, hextras, x, hx, hover⟩ := hn
  obtain ⟨x₀, hx₀⟩ := Option.isSome_iff_exists.mp hm
  have hb := h.frames.becomes hx₀ hx
  refine ⟨⟨⟨y, hy, horigin⟩, hconcrete, hkey.trans (h.frames.callKey_eq (m := m) hm), fun s hs => ?_⟩,
    hextras.trans (h.frames.extras_eq (m := m) hm)⟩
  rw [hover, List.mem_singleton] at hs
  exact ⟨x₀, hx₀, hs.trans hb.symbol⟩

/-- a class keeps the members that it was given, and is given some of those that it has after them -/
theorem Frames.additions_eq (h : Frames I T K p q) (hC : p.forest.MembersKnown) {l : List DeclarationId}
    (hl : q.forest.membersOf a = p.forest.membersOf a ++ l) : q.additions F a = p.additions F a
      ++ l.filter fun n => (F.declaration? n).isNone
        && (q.forest.declaration? n).any fun y => y.origin = .unimplemented := by
  rw [additions, hl, List.filter_append, additions]
  congr 1
  refine List.filter_congr fun n hn => ?_
  obtain ⟨x, y, hx, hy, hb⟩ := h.exists_becomes (Forest.isSome_of_mem_membersOf hC hn)
  rw [hx, hy, Option.any_some, Option.any_some, hb.origin]

theorem provides_start (hF : F.Resolves) : (start F).Provides cx F where
  chain := .refl
  furnishes := .refl hF.members
  turn := fun d _ => .inl <| List.filter_eq_nil_iff.mpr fun n hn => by
    have := Forest.isSome_of_mem_membersOf hF.members hn
    simp [Option.isNone_iff_eq_none, Option.isSome_iff_ne_none.mp this]

/-- a class that is given no more has been given the same, of the functions that it lacked then -/
theorem Served.chain {s : Pass} (h : p.Served cx F d s) (hc : Chain cx .everything p q)
    (hsame : q.additions F d = p.additions F d) : q.Served cx F d s := by
  refine ⟨hc.frames.examined h.examined, ?_, h.start, h.furnishes, h.since.trans hc, ?_⟩ <;> rw [hsame]
  · exact h.nodup
  · exact h.made.imp fun _ _ hn => hn.frames hc.frames

/-- what classes have been given does not change as long as they are given no more -/
theorem Provides.turn_chain (h : p.Provides cx F) (hc : Chain cx .everything p q)
    (hd : (F.declaration? d).isSome) (hsame : q.additions F d = p.additions F d) :
    q.additions F d = [] ∨ ∃ s, q.Served cx F d s :=
  (h.turn d hd).imp hsame.trans fun ⟨s, hs⟩ => ⟨s, hs.chain hc hsame⟩

/-! ## steps that give no members -/

/-- initializers are not members that were made for functions -/
theorem Frames.additions_eq_of_initializers (h : Frames I T K p q) (hC : p.forest.MembersKnown)
    {l : List DeclarationId} (hl : q.forest.membersOf a = p.forest.membersOf a ++ l)
    (hinit : ∀ n ∈ l, q.forest.AddedInitializer n) : q.additions F a = p.additions F a := by
  rw [h.additions_eq hC hl]
  refine (congrArg _ (List.filter_eq_nil_iff.mpr fun n hn => ?_)).trans (List.append_nil _)
  obtain ⟨y, hy, _, horigin⟩ := hinit n hn
  simp [hy, horigin]

/-- **Steps that give no members but initializers keep what classes were given.** -/
theorem Provides.keep (hF : F.Resolves) (h : p.Provides cx F) (hc : Chain cx .everything p q)
    (hmembers : ∀ a, (p.forest.declaration? a).isSome → (F.declaration? a).isSome → ∃ l,
      q.forest.membersOf a = p.forest.membersOf a ++ l ∧ ∀ n ∈ l, q.forest.AddedInitializer n) :
    q.Provides cx F := by
  refine ⟨h.chain.trans hc, ⟨h.furnishes.frames.trans hc.frames, hc.membersKnown h.furnishes.known,
    fun a ha => ?_⟩, fun d hd => ?_⟩
  · obtain ⟨l, hl, hadded⟩ := h.furnishes.added a ha
    obtain ⟨l', hl', hinit⟩ := hmembers a (h.furnishes.frames.isSome ha) ha
    refine ⟨l, ?_, fun n hn => ?_⟩
    · rw [← hl]
      exact hc.frames.memberFunctions_eq h.furnishes.known (h.furnishes.knows_symbol hF) hl' hinit
    · obtain ⟨y, hy, horigin⟩ := hadded n hn
      obtain ⟨z, hz, hb, _⟩ := hc.frames.declaration? n y hy
      exact ⟨z, hz, hb.origin.trans horigin⟩
  · obtain ⟨l, hl, hinit⟩ := hmembers d (h.furnishes.frames.isSome hd) hd
    exact h.turn_chain hc hd (hc.frames.additions_eq_of_initializers h.furnishes.known hl hinit)

theorem Provides.edits (hF : F.Resolves) (h : p.Provides cx F) (hc : Chain cx .edits p q) :
    q.Provides cx F := by
  induction hc with
  | refl => exact h
  | tail _ hs ih => exact ih.keep hF (Chain.widen (.single hs)) fun a ha _ => hs.membersOf ha

/-- a class that is not edited keeps its members -/
theorem Frames.membersOf_eq (h : Frames I T K p q) (ha : (p.forest.declaration? a).isSome) (hT : ¬ T a)
    (hK : ¬ K a) : q.forest.membersOf a = p.forest.membersOf a ++ [] := by
  obtain ⟨x, hx⟩ := Option.isSome_iff_exists.mp ha
  rw [List.append_nil]
  unfold Forest.membersOf Forest.class?
  rw [h.declaration?_eq hx hT (.inl hK), hx]

/-- and so it keeps those that it was given -/
theorem Frames.additions_eq_of_not_edited (h : Frames I T K p q) (hC : p.forest.MembersKnown)
    (ha : (p.forest.declaration? a).isSome) (hT : ¬ T a) (hK : ¬ K a) :
    q.additions F a = p.additions F a :=
  h.additions_eq_of_initializers hC (h.membersOf_eq ha hT hK) fun _ hn => absurd hn List.not_mem_nil

/-! ## classes that are given members -/

/-- **A class that was given nothing before is given what it lacks**, all at once. -/
theorem Provides.served_supply (hF : F.Resolves) (h : p.Provides cx F) (hd : (F.declaration? d).isSome)
    (hexamined : d ∈ p.examined) (hfirst : p.additions F d = []) {c : ClassInfo}
    (hc : p.forest.class? d = some c) : (p.supply cx d).Served cx F d p := by
  have hchain : Chain cx .everything p (p.supply cx d) := (chain_supply cx p d).widen
  obtain ⟨added, hc', hfills, hnodup, hnew, hadds⟩ := h.furnishes.supply_spec hF hd hc
  have hmembers : (p.supply cx d).forest.membersOf d = p.forest.membersOf d ++ added := by
    rw [Forest.membersOf, Forest.membersOf, hc, hc']
    rfl
  have hall : (p.supply cx d).additions F d = added := by
    rw [hadds.additions_eq h.furnishes.known hmembers, hfirst, List.nil_append, List.filter_eq_self]
    intro n hn
    obtain ⟨m, _, hfill⟩ := exists_mem_of_forall₂ hfills hn
    obtain ⟨y, hy, horigin, _⟩ := hfill.made
    have hnone : F.declaration? n = none := h.furnishes.frames.declaration?_none (hnew n hn)
    simp [hnone, hy, horigin]
  have hstored : ∀ m ∈ p.forest.unimplemented d (p.forest.ancestors d), (F.declaration? m).isSome := by
    intro m hm
    obtain ⟨x, hx, _⟩ := (h.furnishes.demands hF hd (Forest.mem_unimplemented.mp hm).1).defined
    exact Option.isSome_iff_exists.mpr ⟨x, hx⟩
  have hmade := ((List.forall₂_and_left _ _).mpr ⟨hstored, hfills.flip⟩).flip
  refine ⟨hchain.frames.examined hexamined, ?_, h.chain, h.furnishes, hchain, ?_⟩ <;> rw [hall]
  · exact hnodup
  · exact hmade.imp fun _ _ hn => (h.furnishes.supply hF hd).repeats hn.1 hn.2

theorem Provides.supply (hF : F.Resolves) (h : p.Provides cx F) (hd : (F.declaration? d).isSome)
    (hexamined : d ∈ p.examined) (hfirst : p.additions F d = []) : (p.supply cx d).Provides cx F where
  chain := h.chain.trans (chain_supply cx p d).widen
  furnishes := h.furnishes.supply hF hd
  turn := fun a ha => by
    have hadds := adds_supply cx p d
    have ha' := h.furnishes.frames.isSome ha
    by_cases e : a = d
    · obtain rfl := e
      cases hc : p.forest.class? a with
      | none =>
        -- what is no class has no members
        refine .inl ?_
        rw [additions, Forest.membersOf, Frames.class?_none hadds ha' hc]
        rfl
      | some c => exact .inr ⟨p, h.served_supply hF hd hexamined hfirst hc⟩
    · exact h.turn_chain (chain_supply cx p d).widen ha
        (hadds.additions_eq_of_not_edited h.furnishes.known ha' (not_new ha') e)

/-- members that are given to a class that is new do not go to those of `F` -/
theorem Provides.addMembers (hF : F.Resolves) (h : p.Provides cx F) (hd : ¬ (F.declaration? d).isSome)
    (hstored : (p.forest.declaration? d).isSome) {ms : List DeclarationId}
    (hms : ∀ m ∈ ms, ∃ b, m ∈ p.forest.memberFunctions b) :
    (ms.foldl (addMember cx d) p).Provides cx F := by
  have hchain : Chain cx ⟨fun a => p.forest.declaration? a = none, fun a => a = d, fun _ => True⟩ p
      (ms.foldl (addMember cx d) p) := chain_addMembers hstored .refl fun m hm => by
    obtain ⟨b, hmb⟩ := hms m hm
    exact ⟨b, b, trivial, .refl, hmb⟩
  exact h.keep hF hchain.widen fun a ha hFa => ⟨[], hchain.frames.membersOf_eq ha (not_new ha)
    fun e => hd (e ▸ hFa), fun _ hn => absurd hn List.not_mem_nil⟩

/-- **Looking at a class gives each class at most once what it lacks.** -/
theorem Provides.implementWithin (hF : F.Resolves) {bound : Nat} {p : Pass} {d : DeclarationId} :
    p.Provides cx F → (implementWithin cx bound p d).Provides cx F := by
  have hexamine : ∀ {p : Pass} {d : DeclarationId}, p.Provides cx F →
      Pass.Provides cx F { p with examined := d :: p.examined } := fun {p d} h =>
    h.keep hF (.single (.examine p d)) fun a _ _ =>
      ⟨[], (List.append_nil _).symm, fun _ hn => absurd hn List.not_mem_nil⟩
  refine implementWithin_induction (motive := fun _ p _ q => p.Provides cx F → q.Provides cx F)
    ?stop ?seen ?abstract ?concrete bound p d
  case stop => exact fun _ _ h => h
  case seen => exact fun _ _ _ _ h => h
  case abstract => exact fun _ _ _ _ _ h => hexamine h
  case concrete =>
    intro bound p d ih hunseen hconcrete q hq h
    have hopen := hexamine (d := d) h
    -- the classes above are looked at first, and `d` is not given anything meanwhile
    obtain ⟨hq, hchain⟩ : q.Provides cx F ∧ Chain cx
        (Pass.fringe { p with examined := d :: p.examined } fun _ => True)
        { p with examined := d :: p.examined } q := hq ▸ List.foldlRecOn
      (motive := fun r : Pass => r.Provides cx F ∧ Chain cx
        (Pass.fringe { p with examined := d :: p.examined } fun _ => True) _ r) _ _ ⟨hopen, .refl⟩
      fun r hr a _ => ⟨ih r a hr.1, hr.2.trans (hr.2.fringe (chain_implementWithin ⟨a, trivial, .refl⟩))⟩
    by_cases hd : (F.declaration? d).isSome
    · have hfirst : q.additions F d = [] := by
        have hnone : p.additions F d = [] :=
          (h.turn d hd).resolve_right fun hseen => hseen.elim fun _ hs => hunseen hs.examined
        have hstored := hopen.furnishes.frames.isSome (d := d) hd
        exact (hchain.frames.additions_eq_of_not_edited hopen.furnishes.known hstored
          (not_touched_fringe hstored) fun hgrows => hgrows List.mem_cons_self).trans hnone
      have hadds : Adds cx.intrinsics (fun a => a ∉ d :: p.examined)
        { p with examined := d :: p.examined } q := hchain.frames
      have hsupply : (q.forest.unimplemented d (p.forest.ancestors d)).foldl (addMember cx d) q
          = q.supply cx d := by
        rw [Pass.supply, hopen.furnishes.ancestors_eq hF hadds hd]
      rw [hsupply]
      exact hq.supply hF hd (hchain.frames.examined List.mem_cons_self) hfirst
    · refine hq.addMembers hF hd (hchain.frames.isSome (Forest.isSome_of_isConcrete hconcrete))
        fun m hm => ?_
      obtain ⟨b, _, hmb⟩ := Forest.exists_of_mem_unimplemented hm
      exact ⟨b, hmb⟩

/-! ## the repair -/

theorem Provides.enterDeclaration (hF : F.Resolves) (h : p.Provides cx F) (n : Node) :
    (enterDeclaration cx p n).1.Provides cx F := by
  by_cases hclass : ∃ d x info, n = .declaration d ∧ p.forest.declaration? d = some x
    ∧ x.content = .ofClass info
  · obtain ⟨d, x, info, rfl, hx, hinfo⟩ := hclass
    have hvisit : (Pass.enterDeclaration cx p (.declaration d)).1
        = (p.mendClass cx d x.symbol info).implementMembers cx d := by
      rw [← repairClass_eq]
      simp [Pass.enterDeclaration, hx, hinfo, below]
    rw [hvisit]
    exact (h.edits hF (mends_mendClass hx hinfo).chain).implementWithin hF
  · refine h.edits hF (mends_visit fun d x info hn hx hinfo => ?_).chain
    exact hclass ⟨d, x, info, hn, hx, hinfo⟩

variable (cx) in
/-- **After the first sweep each class was given what it lacked at one stage**, or nothing. -/
theorem provides_repairDeclarations (hF : F.Resolves) (roots : List Root) :
    (repairDeclarations cx roots (start F)).Provides cx F :=
  ((run_sweep cx F roots).invariant (P := Provides cx F) (N := fun _ _ => True)
    (fun _ n hp _ => ⟨hp.enterDeclaration hF n, fun _ _ => trivial⟩) (fun _ _ _ _ _ _ => trivial)
    (provides_start hF) fun _ _ => trivial).1

/-- the second sweep changes expressions only -/
theorem Repeats.recalls (h : p.Repeats F n m) (hq : Forest.Recalls I p.forest q.forest) :
    q.Repeats F n m := by
  obtain ⟨⟨horigin, hconcrete, hkey, hover⟩, hextras⟩ := h
  constructor
  · constructor <;> rw [hq.forest] <;> assumption
  · rw [hq.forest]
    exact hextras

theorem additions_recalls (hq : Forest.Recalls I p.forest q.forest) :
    q.additions F d = p.additions F d := by
  rw [additions, hq.forest]
  rfl

end

end Pass

namespace Forest

/-- what the class `d` is given in the repair of `F`: a member for each of some functions, in their order -/
structure Given (cx : Context) (roots : List Root) (F : Forest) (d : DeclarationId)
    (lacking : List DeclarationId) : Prop where
  /-- they are all that the class lacks at one stage of the first sweep, if it is given anything -/
  stage : lacking = [] ∨ ∃ s : Pass, Pass.Chain cx .everything (.start F) s
    ∧ Pass.Chain cx .everything s (repairDeclarations cx roots (.start F))
    ∧ ∀ m, m ∈ lacking ↔ s.forest.Lacks d m
  /-- they are abstract functions that the class inherits in `F` -/
  demanded : ∀ m ∈ lacking, F.Demands d m
  /-- each of them is there once if members are listed once -/
  once : F.ListsOnce → lacking.Nodup
  members : List.Forall₂ ((repair cx roots F).Repeats F) ((repair cx roots F).additions F d) lacking
  different : ((repair cx roots F).additions F d).Nodup
  /-- only members clash that are for two functions of one name with as many parameters -/
  only : ∀ n ∈ (repair cx roots F).additions F d, ∀ n' ∈ (repair cx roots F).additions F d, n ≠ n' →
    (repair cx roots F).forest.Clash n n' → ∃ m ∈ lacking, ∃ m' ∈ lacking,
      (repair cx roots F).Repeats F n m ∧ (repair cx roots F).Repeats F n' m' ∧ (F.ListsOnce → m ≠ m')
      ∧ F.callKey m = F.callKey m' ∧ F.extras m = some (0, false) ∧ F.extras m' = some (0, false)
  /-- and if these functions have no parameters their members do clash -/
  always : ∀ m ∈ lacking, ∀ m' ∈ lacking, m ≠ m' → F.callKey m = F.callKey m' → (F.callKey m).2 = 0 →
    F.extras m = some (0, false) → F.extras m' = some (0, false) →
    ∃ n ∈ (repair cx roots F).additions F d, ∃ n' ∈ (repair cx roots F).additions F d, n ≠ n'
      ∧ (repair cx roots F).Repeats F n m ∧ (repair cx roots F).Repeats F n' m'
      ∧ (repair cx roots F).forest.Clash n n'

section
variable {cx : Context} {roots : List Root} {F : Forest} {d : DeclarationId}

/-- members clash just as the functions do that they are for, but for the types of their parameters -/
theorem given_of_repeats {lacking : List DeclarationId}
    (hstage : lacking = [] ∨ ∃ s : Pass, Pass.Chain cx .everything (.start F) s
      ∧ Pass.Chain cx .everything s (repairDeclarations cx roots (.start F))
      ∧ ∀ m, m ∈ lacking ↔ s.forest.Lacks d m)
    (hdemanded : ∀ m ∈ lacking, F.Demands d m) (honce : F.ListsOnce → lacking.Nodup)
    (hmembers : List.Forall₂ ((repair cx roots F).Repeats F) ((repair cx roots F).additions F d) lacking)
    (hnodup : ((repair cx roots F).additions F d).Nodup) : F.Given cx roots d lacking where
  stage := hstage
  demanded := hdemanded
  once := honce
  members := hmembers
  different := hnodup
  only := fun n hn n' hn' hne hclash => by
    obtain ⟨m, hm, m', hm', hnm, hnm', hdiffer⟩ := exists_pair_of_forall₂ hmembers hn hn' hne
    exact ⟨m, hm, m', hm', hnm, hnm', fun hL => hdiffer (honce hL),
      hnm.key.symm.trans (hclash.callKey_eq.trans hnm'.key), hnm.extras.symm.trans hclash.plain,
      hnm'.extras.symm.trans hclash.plain'⟩
  always := fun m hm m' hm' hne hkey harity hplain hplain' => by
    obtain ⟨n, hn, n', hn', hnm, hnm', hdiffer⟩ := exists_pair_of_forall₂ hmembers.flip hm hm' hne
    refine ⟨n, hn, n', hn', hdiffer hnodup, hnm, hnm', clash_of_callKey_eq
      (hnm.key.trans (hkey.trans hnm'.key.symm)) ?_ (hnm.extras.trans hplain) (hnm'.extras.trans hplain')⟩
    rw [hnm.key]
    exact harity

/-- **A class is given one member for each function that it lacks at one stage of the repair**, whether or
not it has just been given another one of that name with as many parameters.  Members that it is given
clash only for that reason, and without parameters they always do. -/
theorem exists_given (cx : Context) (roots : List Root) (hF : F.Resolves)
    (hd : (F.declaration? d).isSome) : ∃ lacking, F.Given cx roots d lacking := by
  have hrecalls : Recalls cx.intrinsics (repairDeclarations cx roots (.start F)).forest
      (repair cx roots F).forest := Pass.recalls_repairExpressions roots _
  have hsame : (repair cx roots F).additions F d
      = (repairDeclarations cx roots (.start F)).additions F d := Pass.additions_recalls hrecalls
  rcases (Pass.provides_repairDeclarations cx hF roots).turn d hd with hnone | ⟨s, hs⟩
  · refine ⟨[], given_of_repeats (.inl rfl) (fun m hm => absurd hm List.not_mem_nil)
      (fun _ => List.nodup_nil) ?_ ?_⟩ <;> rw [hsame, hnone]
    · exact .nil
    · exact List.nodup_nil
  · refine ⟨_, given_of_repeats (.inr ⟨s, hs.start, hs.since, fun m => mem_unimplemented⟩)
      (fun m hm => hs.furnishes.demands hF hd (mem_unimplemented.mp hm).1)
      (fun hL => hs.furnishes.nodup_unimplemented hF hL hd) ?_ ?_⟩ <;> rw [hsame]
    · exact hs.made.imp fun _ _ hn => hn.recalls hrecalls
    · exact hs.nodup

end

/-- a class `C` lacks a function `m` of an interface `I` and a function `m` of another one, `J` -/
def twofold : Forest :=
  let base := (named "lib").installIntrinsics
  let unit := base.1.unitType
  let file := base.2.newFile "pkg" "a.kt" ""
  let i := file.2.newClass "pkg" (.file file.1) "I" .interface
  let m := i.2.newFunction "pkg" (.declaration i.1) "m" unit
  let j := (m.2.updateDeclaration m.1 <| Declaration.mapFunction fun f =>
    { f with modality := .abstract, body := none }).newClass "pkg" (.file file.1) "J" .interface
  let n := j.2.newFunction "pkg" (.declaration j.1) "m" unit
  let c := (n.2.updateDeclaration n.1 <| Declaration.mapFunction fun f =>
    { f with modality := .abstract, body := none }).newClass "pkg" (.file file.1) "C" .plain
  (c.2.addSuperType c.1 ((c.2.typeOf i.1).getD unit)).addSuperType c.1 ((c.2.typeOf j.1).getD unit)

theorem entire_twofold : twofold.Entire :=
  entire_of_stored (by decide +kernel) (by decide +kernel) (by decide +kernel) (by decide +kernel)
    (by decide +kernel) (by decide +kernel)

/-- class `C` is given a member for each of the two functions, and they clash -/
theorem given_twofold :
    let roots := twofold.userRoots entwinedContext.intrinsics
    let q := repair entwinedContext roots twofold
    twofold.Resolves ∧ (twofold.declaration? ⟨10⟩).isSome ∧ q.additions twofold ⟨10⟩ = [⟨11⟩, ⟨13⟩]
      ∧ q.forest.Clash ⟨11⟩ ⟨13⟩ ∧ ∃ lacking, twofold.Given entwinedContext roots ⟨10⟩ lacking := by
  intro roots q
  have hd : (twofold.declaration? ⟨10⟩).isSome := by decide +kernel
  have hclash : q.forest.Clash ⟨11⟩ ⟨13⟩ :=
    clash_of_callKey_eq (by decide +kernel) (by decide +kernel) (by decide +kernel) (by decide +kernel)
  exact ⟨entire_twofold.resolves, hd, by decide +kernel, hclash,
    exists_given entwinedContext roots (F := twofold) entire_twofold.resolves hd⟩

end Forest

end LinkRepair
