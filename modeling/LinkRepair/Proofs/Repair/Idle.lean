import LinkRepair.Link
import LinkRepair.Proofs.Repair.Remains
import LinkRepair.Proofs.Repair.Tidy

/-!
# Repairs that have nothing to do

In a tidy forest without unlinked symbols, every question of a repair is answered "linked", and no
class lacks a member.  So the repair leaves the forest alone.

* `Tidy.noneMissing_signatureTypes`   the types of a signature mention nothing that is missing;
* `Tidy.not_unmet`                    the demands of an expression are met;
* `Pass.Still F p`                    the pass has done nothing but ask questions about `F`;
* `Still.enterDeclaration`, `Still.enterExpression`   a visit of either sweep leaves it at that;
* `repairForest_of_unlinkedSymbols_nil`   so does the whole repair;
* `link_enabled_of_unlinkedSymbols_nil`   and a link comes to the same, whether it may repair or not.
-/

namespace LinkRepair

namespace Forest

/-! ## what is asked about -/

namespace Tidy

variable {F : Forest} {I : Intrinsics} {d : DeclarationId}
  (h : F.Tidy I) (hnone : F.unlinkedSymbols (F.userRoots I) = [])

include h hnone

theorem noneMissing_parameter (hd : F.Reached (.declaration d)) {p : ParameterInfo}
    (hp : F.parameter? d = some p) : F.NoneMissing (p.types.flatMap TypeRef.mentioned) := by
  obtain ⟨y, hy, hyp⟩ := Option.bind_eq_some_iff.mp hp
  have hcontent := h.noneMissing_content hnone hd hy
  rw [parameter?_eq_some.mp hyp] at hcontent
  exact hcontent

theorem noneMissing_bounds (hd : F.Reached (.declaration d)) :
    F.NoneMissing ((F.bounds d).flatMap TypeRef.mentioned) := by
  unfold bounds
  split
  · exact fun s hs => absurd hs List.not_mem_nil
  · rename_i p hp
    obtain ⟨y, hy, hyp⟩ := Option.bind_eq_some_iff.mp hp
    have hcontent := h.noneMissing_content hnone hd hy
    rw [typeParameter?_eq_some.mp hyp] at hcontent
    exact hcontent

/-- the types of a signature mention nothing that is missing -/
theorem noneMissing_signatureTypes (hd : F.Reached (.declaration d)) :
    F.NoneMissing ((F.signatureTypes d).flatMap TypeRef.mentioned) := by
  unfold signatureTypes
  cases hf : F.function? d with
  | none => exact fun s hs => absurd hs List.not_mem_nil
  | some f =>
    obtain ⟨x, hx, hxf⟩ := Option.bind_eq_some_iff.mp hf
    have hc := function?_eq_some.mp hxf
    have hbelow : ∀ {a}, .declaration a ∈ (Content.ofFunction f).children →
        F.Reached (.declaration a) := fun ha => hd.below hx (hc ▸ ha)
    intro s hs
    obtain ⟨t, ht, hs⟩ := List.mem_flatMap.mp hs
    rw [Option.toList_some, List.flatMap_singleton] at ht
    obtain ⟨part, hpart, ht⟩ := List.mem_flatMap.mp ht
    cases part with
    | parameter a =>
      obtain ⟨p, hp, ht⟩ := List.mem_flatMap.mp ht
      exact h.noneMissing_parameter hnone (hbelow (f.mem_children_of_mem_signature (.inl hpart)))
        (Option.mem_toList.mp hp) s (List.mem_flatMap.mpr ⟨t, ht, hs⟩)
    | returnType =>
      have hcontent := h.noneMissing_content hnone hd hx
      rw [hc] at hcontent
      simp only [typesOf, hf, Option.toList_some, List.map_cons, List.map_nil,
        List.mem_singleton] at ht
      exact hcontent s (List.mem_append_left _ (ht ▸ hs))
    | typeParameter a =>
      exact h.noneMissing_bounds hnone (hbelow (f.mem_children_of_mem_signature (.inr hpart))) s
        (List.mem_flatMap.mpr ⟨t, ht, hs⟩)

theorem noneMissing_valueTypes (hd : F.Reached (.declaration d)) :
    F.NoneMissing ((F.valueTypes d).flatMap TypeRef.mentioned) := by
  unfold valueTypes
  cases hx : F.declaration? d with
  | none => exact fun s hs => absurd hs List.not_mem_nil
  | some x =>
    have hcontent := h.noneMissing_content hnone hd hx
    refine hcontent.subset fun s hs => ?_
    rw [Option.bind_some] at hs
    unfold Declaration.valueType? at hs
    cases hc : x.content <;> rw [hc] at hs <;> simp_all [Content.mentioned]

/-- nothing that is missing is to blame for a signature -/
theorem noneMissing_signatureBlamed (hd : F.Reached (.declaration d)) :
    F.NoneMissing (F.signatureBlamed d) := by
  rw [signatureBlamed_eq, Pass.flatMap_blamed_eq fun t ht =>
    h.unmarked d t (List.mem_append_left _ ht)]
  exact h.noneMissing_signatureTypes hnone hd

theorem noneMissing_valueBlamed (hd : F.Reached (.declaration d)) :
    F.NoneMissing (F.valueBlamed d) := by
  rw [valueBlamed_eq, Pass.flatMap_blamed_eq fun t ht =>
    h.unmarked d t (List.mem_append_right _ ht)]
  exact h.noneMissing_valueTypes hnone hd

/-- the class that answers for an enum entry is not missing -/
theorem noneMissing_entryClass (hd : F.Reached (.declaration d)) {x : Declaration}
    (hx : F.declaration? d = some x) {entry : EnumEntryInfo} (hc : x.content = .ofEnumEntry entry) :
    F.NoneMissing (F.entryClassSymbol? d entry).toList := by
  have huser : F.Reaches (F.userRoots I) (.declaration d) := by
    refine hd.cases.resolve_right fun hintrinsic => ?_
    obtain ⟨_, d', x', hn, hx', hentry⟩ := mentions_of_reaches_intrinsic h.installed hintrinsic
    obtain rfl := Node.declaration.inj hn
    obtain rfl := Option.some.inj (hx.symm.trans hx')
    exact hentry entry hc
  obtain ⟨hown, haround⟩ := h.kinds.entries d x entry huser hx hc
  intro s hs
  obtain ⟨y, hy, rfl⟩ := Option.map_eq_some_iff.mp (Option.mem_toList.mp hs)
  obtain ⟨a, ha, hy⟩ := Option.bind_eq_some_iff.mp hy
  obtain ⟨hra, hclass⟩ : F.Reached (.declaration a) ∧ (F.class? a).isSome := by
    rcases Option.or_eq_some_iff.mp ha with ha | ⟨_, ha⟩
    · refine ⟨hd.below hx ?_, hown a ha⟩
      rw [hc]
      exact List.mem_append_left _ (List.mem_map_of_mem (Option.mem_toList.mpr ha))
    · refine ⟨(rooted_of_defects_nil h.wellFormed).reached_parent hd ha, haround a ?_⟩
      rwa [parentDeclaration?, hx, Option.bind_some] at ha
  refine (h.not_isMissing_symbol hnone hra hy ?_).2
  obtain ⟨c, hclass⟩ := Option.isSome_iff_exists.mp hclass
  obtain ⟨y', hy', hyc⟩ := Option.bind_eq_some_iff.mp hclass
  obtain rfl := Option.some.inj (hy.symm.trans hy')
  simp [Declaration.isInitializer, class?_eq_some.mp hyc]

/-- no classifier behind a symbol is missing, unless the symbol is -/
theorem noneMissing_suspects {s : SymbolId} (hs : F.isMissing s = false) (ho : F.owner? s = some d)
    {x : Declaration} (hx : F.declaration? d = some x) : F.NoneMissing (F.suspects s d x) := by
  have hd := h.owned s d ho
  have hself : F.NoneMissing [s] := fun t ht => List.mem_singleton.mp ht ▸ hs
  unfold suspects
  cases hc : x.content with
  | ofClass | ofTypeParameter => exact hself
  | ofEnumEntry entry => exact h.noneMissing_entryClass hnone hd hx hc
  | ofFunction => exact h.noneMissing_signatureBlamed hnone hd
  | ofField | ofVariable | ofParameter => exact h.noneMissing_valueBlamed hnone hd
  | ofInitializer => exact fun t ht => absurd ht List.not_mem_nil
  | ofProperty p =>
    have hbelow : ∀ a ∈ p.field.toList ++ p.getter.toList ++ p.setter.toList,
        F.Reached (.declaration a) := fun a ha => hd.below hx (by
      rw [hc]
      exact List.mem_map_of_mem ha)
    simp only [noneMissing_append, noneMissing_flatMap]
    exact ⟨⟨fun a ha => h.noneMissing_valueBlamed hnone (hbelow a (by simp [ha])),
      fun a ha => h.noneMissing_signatureBlamed hnone (hbelow a (by simp [ha]))⟩,
      fun a ha => h.noneMissing_signatureBlamed hnone (hbelow a (by simp [ha]))⟩

theorem not_someTainted {l : List SymbolId} (hl : F.NoneMissing l) : ¬ F.SomeTainted .empty l :=
  fun ⟨s, hs, ht⟩ => h.not_tainted hnone (hl s hs) ht

/-- **The demands of an expression are met.** -/
theorem not_unmet {e : ExpressionId} (he : F.Reached (.expression e)) {x : Expression}
    (hx : F.expression? e = some x) {demand : Demand} (hdemand : demand ∈ x.demands) :
    ¬ F.Unmet .empty demand := by
  have hmentions := h.noneMissing_mentions hnone he
  simp only [mentions, hx] at hmentions
  have hmentioned : F.NoneMissing demand.mentioned := hmentions.subset fun s hs =>
    (x.mem_demands_iff _).mp (List.mem_flatMap.mpr ⟨demand, hdemand, hs⟩)
  cases demand with
  | type t => exact h.not_someTainted hnone hmentioned
  | symbol s =>
    have hs : F.isMissing s = false := hmentioned s List.mem_cons_self
    rintro (hmissing | ⟨d, y, ho, hy, htainted⟩)
    · rw [hs] at hmissing
      cases hmissing
    · exact h.not_someTainted hnone (h.noneMissing_suspects hnone hs ho hy) htainted

end Tidy

end Forest

/-- an edit that changes nothing -/
theorem Forest.updateDeclaration_eq_self {F : Forest} {d : DeclarationId}
    {g : Declaration → Declaration} (h : ∀ x, F.declaration? d = some x → g x = x) :
    F.updateDeclaration d g = F := by
  have hsame : F.declarations.modify d.index g = F.declarations := by
    refine Array.ext_getElem? fun i => ?_
    rw [Array.getElem?_modify]
    split
    · rename_i e
      cases hx : F.declarations[i]? with
      | none => rfl
      | some x => rw [Option.map_some, h x (by rw [Forest.declaration?, e, hx])]
    · rfl
  unfold Forest.updateDeclaration
  rw [hsame]

theorem Declaration.withOverridden_overridden (x : Declaration) :
    x.withOverridden x.overridden = x := by
  obtain ⟨_, _, _, _, _, content⟩ := x
  cases content <;> rfl

theorem Declaration.overridden_subset_mentioned (x : Declaration) :
    x.overridden ⊆ x.content.mentioned := by
  intro s hs
  unfold overridden at hs
  cases hc : x.content <;> rw [hc] at hs <;> simp_all [Content.mentioned]

namespace Pass

/-- nothing was done yet but asking questions about `F` -/
structure Still (F : Forest) (p : Pass) : Prop where
  forest : p.forest = F
  repairs : p.repairs = []
  asked : F.Asked .empty p.memo

section
variable {cx : Context} {F : Forest} {p : Pass} {d : DeclarationId}

theorem still_start (F : Forest) : Still F (start F) := ⟨rfl, rfl, .refl⟩

theorem Still.each {α : Type} {f : Pass → α → Verdict × Pass} : ∀ {l : List α} {p : Pass},
    (∀ q, ∀ a ∈ l, Still F q → (f q a).1 = none ∧ Still F (f q a).2) → Still F p →
    (Pass.each f p l).1 = none ∧ Still F (Pass.each f p l).2 := by
  intro l
  induction l with
  | nil => exact fun _ hp => ⟨rfl, hp⟩
  | cons a l ih =>
    intro p h hp
    obtain ⟨hfirst, hstill⟩ := h p a List.mem_cons_self hp
    obtain ⟨hlater, hend⟩ := ih (fun q b hb => h q b (List.mem_cons_of_mem _ hb)) hstill
    exact ⟨by simp [Pass.each, hfirst, hlater], hend⟩

section
variable (h : F.Tidy cx.intrinsics) (hnone : F.unlinkedSymbols (F.userRoots cx.intrinsics) = [])

include h hnone

/-! ## the first sweep -/

theorem Still.ask (hp : Still F p) {l : List SymbolId} (hl : F.NoneMissing l) :
    ∃ q, p.ask l = (none, q) ∧ Still F q := by
  have hforest := hp.forest
  have hasked : F.Asked p.memo (p.ask l).2.memo := hforest ▸ Forest.asked_exploreFirst p.forest l p.memo
  refine ⟨(p.ask l).2, Prod.ext ?_ rfl, hforest, hp.repairs, hp.asked.trans hasked⟩
  show (p.forest.exploreFirst p.memo l).1 = none
  rw [hforest, Forest.exploreFirst_fst_eq_none_iff (hp.asked.sound (Memo.sound_empty F))]
  intro s hs
  rw [hp.asked.tainted_iff (Memo.sound_empty F)]
  exact h.not_tainted hnone (hl s hs)

theorem Still.fixParameter (hp : Still F p) (hd : F.Reached (.declaration d)) :
    (p.fixParameter cx d).1 = none ∧ Still F (p.fixParameter cx d).2 := by
  unfold Pass.fixParameter
  cases hparameter : p.forest.parameter? d with
  | none => exact ⟨rfl, hp⟩
  | some info =>
    obtain ⟨q, hq, hstill⟩ := hp.ask h hnone
      (h.noneMissing_parameter hnone hd (hp.forest ▸ hparameter))
    dsimp only
    rw [hq]
    exact ⟨rfl, hstill⟩

theorem Still.fixTypeParameter (hp : Still F p) (hd : F.Reached (.declaration d))
    (hkind : F.HasTypeParameter d) :
    (p.fixTypeParameter cx d).1 = none ∧ Still F (p.fixTypeParameter cx d).2 := by
  obtain ⟨x, info, hx, hc⟩ := hkind
  have hsymbol := (h.not_isMissing_symbol hnone hd hx (by simp [Declaration.isInitializer, hc])).2
  obtain ⟨q, hq, hstill⟩ := hp.ask h hnone (l := [x.symbol])
    fun s hs => List.mem_singleton.mp hs ▸ hsymbol
  unfold Pass.fixTypeParameter
  rw [hp.forest, hx]
  dsimp only
  rw [hq]
  exact ⟨rfl, hstill⟩

theorem Still.fixReturnType (hp : Still F p) {type : TypeRef} (ht : F.NoneMissing type.mentioned) :
    (p.fixReturnType cx d type).1 = none ∧ Still F (p.fixReturnType cx d type).2 := by
  obtain ⟨q, hq, hstill⟩ := hp.ask h hnone ht
  unfold Pass.fixReturnType
  rw [hq]
  exact ⟨rfl, hstill⟩

theorem Still.fixSignature (hp : Still F p) (hd : F.Reaches (F.userRoots cx.intrinsics) (.declaration d))
    {x : Declaration} (hx : F.declaration? d = some x) :
    (p.fixSignature cx d).1 = none ∧ Still F (p.fixSignature cx d).2 := by
  unfold Pass.fixSignature
  rw [hp.forest]
  cases hf : F.function? d with
  | none => exact ⟨rfl, hp⟩
  | some f =>
    have hreached : F.Reached (.declaration d) :=
      Forest.reached_of_reaches (F.userRoots_subperm cx.intrinsics).subset hd
    have hc : x.content = .ofFunction f := by
      rw [Forest.function?, hx] at hf
      exact Forest.function?_eq_some.mp hf
    have hbelow : ∀ {a}, .declaration a ∈ (Content.ofFunction f).children →
        F.Reached (.declaration a) := fun ha => hreached.below hx (hc ▸ ha)
    have hfits := h.kinds.slots d x hd hx
    rw [hc] at hfits
    refine Still.each (fun q part hpart hq => ?_) hp
    cases part with
    | parameter a => exact hq.fixParameter h hnone (hbelow (f.mem_children_of_mem_signature (.inl hpart)))
    | returnType =>
      have hcontent := h.noneMissing_content hnone hreached hx
      rw [hc] at hcontent
      exact hq.fixReturnType h hnone (Forest.noneMissing_append.mp hcontent).1
    | typeParameter a =>
      exact hq.fixTypeParameter h hnone (hbelow (f.mem_children_of_mem_signature (.inr hpart)))
        (hfits.1 a (FunctionInfo.typeParameter_mem_signature.mp hpart))

theorem Still.fixValue (hp : Still F p) (hd : F.Reached (.declaration d)) :
    (p.fixValue cx d).1 = none ∧ Still F (p.fixValue cx d).2 := by
  unfold Pass.fixValue
  rw [hp.forest]
  cases ht : (F.declaration? d).bind Declaration.valueType? with
  | none => exact ⟨rfl, hp⟩
  | some type =>
    have hvalue := h.noneMissing_valueTypes hnone hd
    simp only [Forest.valueTypes, ht, Option.toList_some, List.flatMap_cons, List.flatMap_nil,
      List.append_nil] at hvalue
    obtain ⟨q, hq, hstill⟩ := hp.ask h hnone hvalue
    dsimp only
    rw [hq]
    exact ⟨rfl, hstill⟩

/-- nothing that is overridden has to go -/
theorem Still.filterOverridden (hp : Still F p) (hd : F.Reached (.declaration d)) :
    Still F (p.filterOverridden d) := by
  refine ⟨?_, hp.repairs, hp.asked⟩
  show p.forest.updateDeclaration d _ = F
  rw [hp.forest]
  refine Forest.updateDeclaration_eq_self fun x hx => ?_
  rw [List.filter_eq_self.mpr fun s hs => ?_]
  · exact Declaration.withOverridden_overridden x
  · have hmissing : F.isMissing s = false := h.noneMissing_content hnone hd hx s
      (Declaration.overridden_subset_mentioned x hs)
    have hprivate := h.overridable d s (by simpa [Forest.overriddenBy, hx] using hs)
    simp [Forest.isOverridable, hmissing, hprivate]

omit hnone in
/-- no class lacks a member -/
theorem Still.implementWithin (bound : Nat) {p : Pass} {d : DeclarationId} : Still F p →
    Still F (Pass.implementWithin cx bound p d) := by
  have hexamine : ∀ {p : Pass} {d : DeclarationId}, Still F p →
      Still F { p with examined := d :: p.examined } := fun hp => ⟨hp.forest, hp.repairs, hp.asked⟩
  refine implementWithin_induction (motive := fun _ p _ q => Still F p → Still F q)
    ?stop ?seen ?abstract ?concrete bound p d
  case stop => exact fun _ _ hp => hp
  case seen => exact fun _ _ _ _ hp => hp
  case abstract => exact fun _ _ _ _ _ hp => hexamine hp
  case concrete =>
    intro bound p d ih _ hconcrete q hq hp
    have habove : Still F q := hq ▸ List.foldlRecOn (motive := Still F) _ _ (hexamine hp)
      fun q hq a _ => ih q a hq
    have hnothing : q.forest.unimplemented d (p.forest.ancestors d) = [] := by
      rw [habove.forest, hp.forest]
      rw [hp.forest] at hconcrete
      exact Forest.unimplemented_eq_nil fun b m x => h.implemented d b m x hconcrete
    rw [hnothing]
    exact habove

theorem Still.repairClass (hp : Still F p) (hd : F.Reaches (F.userRoots cx.intrinsics) (.declaration d))
    {x : Declaration} {c : ClassInfo} (hx : F.declaration? d = some x) (hc : x.content = .ofClass c) :
    Still F (p.repairClass cx d x.symbol c) := by
  have hreached : F.Reached (.declaration d) :=
    Forest.reached_of_reaches (F.userRoots_subperm cx.intrinsics).subset hd
  have hfits := h.kinds.slots d x hd hx
  rw [hc] at hfits
  obtain ⟨hbound, hstill⟩ := Still.each (f := Pass.fixTypeParameter cx) (l := c.typeParameters)
    (fun q a ha hq => hq.fixTypeParameter h hnone (hreached.below hx (by
      rw [hc]
      exact List.mem_map_of_mem (List.mem_append_left _ ha))) (hfits a ha)) hp
  have hsymbol := (h.not_isMissing_symbol hnone hreached hx
    (by simp [Declaration.isInitializer, hc])).2
  obtain ⟨q, hq, hasked⟩ := hstill.ask h hnone (l := [x.symbol])
    fun s hs => List.mem_singleton.mp hs ▸ hsymbol
  unfold Pass.repairClass Pass.fixTypeParameters
  dsimp only
  rw [hq, hbound]
  exact Still.implementWithin h _ hasked

/-- **A visit of the first sweep does nothing but ask.** -/
theorem Still.enterDeclaration {n : Node} (hp : Still F p)
    (hn : F.Reaches (F.userRoots cx.intrinsics) n) :
    Still F (Pass.enterDeclaration cx p n).1
      ∧ ∀ m ∈ (Pass.enterDeclaration cx p n).2, F.Child n m := by
  have hbelow : ∀ {q : Pass} {stopped : Bool}, Still F q → Still F (below n stopped q).1
      ∧ ∀ m ∈ (below n stopped q).2, F.Child n m := fun {q stopped} hq => by
    refine ⟨hq, fun m hm => ?_⟩
    unfold below at hm
    rw [hq.forest] at hm
    cases stopped with
    | true => exact absurd hm List.not_mem_nil
    | false => exact hm
  cases n with
  | expression e => exact hbelow hp
  | declaration d =>
    have hreached : F.Reached (.declaration d) :=
      Forest.reached_of_reaches (F.userRoots_subperm cx.intrinsics).subset hn
    unfold Pass.enterDeclaration
    dsimp only
    rw [hp.forest]
    cases hx : F.declaration? d with
    | none => exact ⟨hp, fun m hm => absurd hm List.not_mem_nil⟩
    | some x =>
      dsimp only
      cases hc : x.content with
      | ofClass c => exact hbelow (hp.repairClass h hnone hn hx hc)
      | ofFunction f =>
        obtain ⟨hcause, hstill⟩ := (hp.filterOverridden h hnone hreached).fixSignature h hnone hn hx
        have horigin := (h.not_isMissing_symbol hnone hreached hx
          (by simp [Declaration.isInitializer, hc])).1
        have hproblem : functionProblem d x ((p.filterOverridden d).fixSignature cx d).1 = none := by
          rw [hcause]
          unfold functionProblem
          cases ho : x.origin with
          | missing => exact absurd ho horigin
          | defined | unimplemented => rfl
        unfold Pass.repairFunction
        dsimp only
        rw [hproblem]
        exact hbelow hstill
      | ofProperty => exact hbelow (hp.filterOverridden h hnone hreached)
      | ofField | ofVariable => exact hbelow (hp.fixValue h hnone hreached).2
      | ofParameter | ofTypeParameter | ofEnumEntry | ofInitializer => exact hbelow hp

/-! ## the second sweep -/

/-- **A visit of the second sweep does nothing but ask.** -/
theorem Still.enterExpression {n : Node} (file : Option FileId) (hp : Still F p)
    (hn : F.Reached n) :
    Still F (Pass.enterExpression cx file p n).1
      ∧ ∀ m ∈ (Pass.enterExpression cx file p n).2, F.Child n m := by
  cases n with
  | declaration d => exact ⟨hp, fun m hm => by rwa [Forest.Child, ← hp.forest]⟩
  | expression e =>
    have hsound := hp.asked.sound (Memo.sound_empty F)
    have hproblem : (F.expressionProblem p.memo e).1 = none := by
      rw [Forest.expressionProblem_fst_eq_none_iff hsound]
      intro x hx demand hdemand
      rw [hp.asked.unmet_iff (Memo.sound_empty F)]
      exact h.not_unmet hnone hn hx hdemand
    have hasked : F.Asked p.memo (F.expressionProblem p.memo e).2 := by
      unfold Forest.expressionProblem
      cases F.expression? e with
      | none => exact .refl
      | some x => exact (Forest.firstProblem_spec e x.demands hsound).2
    unfold Pass.enterExpression
    dsimp only
    rw [hp.forest, hproblem]
    refine ⟨⟨rfl, hp.repairs, hp.asked.trans hasked⟩, fun m hm => ?_⟩
    exact hm

/-! ## the whole repair -/

theorem still_repairForest : Still F (repairForest cx F) := by
  have hfirst : Still F (repairDeclarations cx (F.userRoots cx.intrinsics) (.start F)) :=
    ((run_sweep cx F (F.userRoots cx.intrinsics)).invariant (P := Still F)
      (N := fun _ n => F.Reaches (F.userRoots cx.intrinsics) n)
      (fun p n hp hn => by
        obtain ⟨hstill, hbelow⟩ := hp.enterDeclaration h hnone hn
        obtain ⟨d, hd, hreach⟩ := hn
        exact ⟨hstill, fun m hm => ⟨d, hd, hreach.tail (hbelow m hm)⟩⟩)
      (fun _ _ _ _ _ hm => hm) (still_start F) fun n hn => by
        obtain ⟨d, hd, rfl⟩ := List.mem_map.mp hn
        exact ⟨d, hd, .refl⟩).1
  exact (expressionVisits_invariant cx (P := Still F) (N := F.Reached)
    (fun file p n hp hn => by
      obtain ⟨hstill, hbelow⟩ := hp.enterExpression h hnone file hn
      exact ⟨hstill, fun m hm => hn.child (hbelow m hm)⟩)
    (fun p hp root hroot d hd => by
      rw [hp.forest] at hd
      exact Forest.reached_of_reaches (F.userRoots_subperm cx.intrinsics).subset
        ⟨d, List.mem_flatMap.mpr ⟨root, hroot, hd⟩, .refl⟩) hfirst).1

end

end

end Pass

section
variable {cx : Context} {F : Forest}

/-- so a link comes to the same, whether it may repair or not -/
theorem link_enabled_of_unlinkedSymbols_nil {I : Intrinsics} {severity : Severity} (h : F.Tidy I)
    (hnone : F.unlinkedSymbols (F.userRoots I) = []) :
    link F I ⟨.enabled, severity⟩ = link F I ⟨.disabled, severity⟩ := by
  have hstill : Pass.Still F (repairForest ⟨I, severity⟩ F) := Pass.still_repairForest h hnone
  rw [link_disabled I severity h.wellFormed]
  simp [link, h.wellFormed, Settings.isEnabled, linkedOfPass, Pass.reports, Pass.summary,
    hstill.forest, hstill.repairs, refuseUnlinked, hnone, Summary.ofRepairs_nil]

end

/-! ## a forest with nothing to do -/

namespace Forest

end Forest

end LinkRepair
