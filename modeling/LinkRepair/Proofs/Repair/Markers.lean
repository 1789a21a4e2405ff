import LinkRepair.Proofs.Exploration.History
import LinkRepair.Proofs.Forest.Trees
import LinkRepair.Proofs.Repair.Signatures
import LinkRepair.Proofs.Repair.Verdicts

/-!
# The markers of a signature

While a signature is repaired, its types are replaced one after the other, and what comes later is
judged in the forest that is there by then.  The answers are those of the first forest all the same:
only bounds of type parameters change what rests on them, and a type parameter that lost its bounds
was asked about before.

* `Forest.askedAbout`        what a part of a signature is asked about;
* `Forest.findings`         the broken parts and their causes, with nothing changed in between;
* `Forest.Impaired`         a broken classifier is reached from a part, or it is a stand-in;
* `Forest.mark`             one part replaced by its marker;
* `exploreFirst_congr`      forests in which what was not asked about stands alike give one answer;
* `each_fixPart`            the parts are marked by the findings;
* `Forest.Marked`           a forest and the same one with the parts that were found broken marked;
* `fixSignature_marks`      what the repair of a signature does, and what it returns;
* `marked_standIn`          a stand-in is marked although it has no bound, and a second symbol of a type
                            parameter is judged without the bounds.
-/

namespace LinkRepair

/-! ## forests in which the same is left to be asked -/

section
variable {F G : Forest} {memo : Memo} {path : List SymbolId} {s : SymbolId} {o : Outcome}

/-- a search meets only what was not answered before it -/
theorem Explores.congr (h : Explores G path memo s o) (hst : F.StandsAs (fun _ => True) G memo) :
    Explores F path memo s o := by
  induction h using Explores.rec
    (motive_2 := fun path memo l o _ => F.StandsAs (fun _ => True) G memo →
      ExploresAll F path memo l o) with
  | kept hm => exact .kept hm
  | met hm hk => exact .met hm hk
  | broken hm hk hs => exact .broken hm hk ((hst _ trivial hm).symm.trans hs)
  | rests hm hk hs _ ih => exact .rests hm hk ((hst _ trivial hm).symm.trans hs) (ih hst)
  | nil => exact .nil
  | stop _ hc ih =>
    rename_i hst
    exact .stop (ih hst) hc
  | next ho hv _ iho ihl =>
    rename_i hst
    exact .next (iho hst) hv (ihl (hst.keptIn ho.keptIn))

namespace Forest

theorem explore_congr (h : F.StandsAs (fun _ => True) G memo) (s : SymbolId) :
    G.explore memo s = F.explore memo s := by
  obtain ⟨o, ho, e⟩ := explores_explore G memo s
  obtain ⟨o', ho', e'⟩ := explores_explore F memo s
  rw [e, e', (ho.congr h).unique o' ho']

/-- **What was not asked about stands alike, so there is one answer.** -/
theorem exploreFirst_congr : ∀ {l : List SymbolId} {memo : Memo},
    F.StandsAs (fun _ => True) G memo → G.exploreFirst memo l = F.exploreFirst memo l := by
  intro l
  induction l with
  | nil => exact fun _ => rfl
  | cons s rest ih =>
    intro memo h
    have hs := explore_congr h s
    cases hv : (F.explore memo s).1 with
    | some k =>
      rw [exploreFirst_cons_of_some hv, exploreFirst_cons_of_some (by rw [hs]; exact hv), hs]
    | none =>
      rw [exploreFirst_cons_of_none hv, exploreFirst_cons_of_none (by rw [hs]; exact hv), hs]
      exact ih (h.keptIn (keptIn_explore F memo s))

end Forest

end

/-! ## what a standing hangs on -/

/-- the part of a content that other classifiers look at -/
def Content.role : Content → Content
  | .ofClass c => .ofClass c
  | .ofEnumEntry e => .ofEnumEntry e
  | .ofTypeParameter _ => .ofTypeParameter ⟨[]⟩
  | _ => .ofInitializer []

/-- the part of a declaration that other classifiers look at -/
def Declaration.role (x : Declaration) : SymbolId × Origin × Option Parent × Content :=
  (x.symbol, x.origin, x.parent, x.content.role)

namespace Forest

section
variable {F G : Forest} {s : SymbolId} {d : DeclarationId}
  (h : ∀ a, (G.declaration? a).map Declaration.role = (F.declaration? a).map Declaration.role)
include h

theorem role_cases (d : DeclarationId) : G.declaration? d = none ∧ F.declaration? d = none
    ∨ ∃ x y, F.declaration? d = some x ∧ G.declaration? d = some y ∧ y.role = x.role := by
  have hd := h d
  cases hx : F.declaration? d with
  | none =>
    rw [hx, Option.map_none, Option.map_eq_none_iff] at hd
    exact .inl ⟨hd, rfl⟩
  | some x =>
    rw [hx, Option.map_some, Option.map_eq_some_iff] at hd
    obtain ⟨y, hy, e⟩ := hd
    exact .inr ⟨x, y, rfl, hy, e⟩

theorem parentDeclaration?_congr (d : DeclarationId) :
    G.parentDeclaration? d = F.parentDeclaration? d := by
  unfold parentDeclaration?
  rcases role_cases h d with ⟨hG, hF⟩ | ⟨x, y, hx, hy, e⟩
  · rw [hG, hF]
  · have hp : y.parent = x.parent := congrArg (fun r => r.2.2.1) e
    rw [hx, hy, Option.bind_some, Option.bind_some, Declaration.parentDeclaration?, hp]
    rfl

theorem isClass_congr (d : DeclarationId) :
    (G.declaration? d).any Declaration.isClass = (F.declaration? d).any Declaration.isClass := by
  rcases role_cases h d with ⟨hG, hF⟩ | ⟨x, y, hx, hy, e⟩
  · rw [hG, hF]
  · have hc : y.content.role = x.content.role := congrArg (fun r => r.2.2.2) e
    rw [hx, hy, Option.any_some, Option.any_some]
    unfold Declaration.isClass Declaration.class?
    generalize x.content = content at hc
    generalize y.content = content' at hc
    cases content <;> cases content' <;> simp_all [Content.role]

theorem enclosingClass_congr (d : DeclarationId) : G.enclosingClass d = F.enclosingClass d := by
  unfold enclosingClass
  rw [parentDeclaration?_congr h]
  refine Option.bind_congr fun p _ => ?_
  rcases role_cases h p with ⟨hG, hF⟩ | ⟨x, y, hx, hy, e⟩
  · rw [hG, hF]
    rfl
  · have hc : y.content.role = x.content.role := congrArg (fun r => r.2.2.2) e
    rw [hx, hy, Option.bind_some, Option.bind_some]
    simp only [parentDeclaration?_congr h, isClass_congr h]
    generalize x.content = content at hc
    generalize y.content = content' at hc
    cases content <;> cases content' <;> simp_all [Content.role]

/-- **Only its own bounds can change how a classifier stands**, when the roles stay as they are. -/
theorem standing_congr (ho : G.owner? s = F.owner? s)
    (hb : ∀ a, F.owner? s = some a → G.bounds a = F.bounds a) : G.standing s = F.standing s := by
  cases hown : F.owner? s with
  | none => rw [standing_of_owner?_none hown, standing_of_owner?_none (ho.trans hown)]
  | some d =>
    have hbounds := hb d hown
    rcases role_cases h d with ⟨hG, hF⟩ | ⟨x, y, hx, hy, e⟩
    · simp [standing, ho, hown, hG, hF]
    · have horigin : y.origin = x.origin := congrArg (fun r => r.2.1) e
      have hc : y.content.role = x.content.role := congrArg (fun r => r.2.2.2) e
      have houter : ∀ a, (G.declaration? a).map Declaration.symbol
          = (F.declaration? a).map Declaration.symbol := fun a => by
        have := congrArg (Option.map Prod.fst) (h a)
        simpa [Option.map_map, Function.comp_def, Declaration.role] using this
      have hmissing : ∀ a, (G.declaration? a).map Declaration.origin
          = (F.declaration? a).map Declaration.origin := fun a => by
        have := congrArg (Option.map fun r => r.2.1) (h a)
        simpa [Option.map_map, Function.comp_def, Declaration.role] using this
      have hlacks : G.lacksEnclosing d = F.lacksEnclosing d := by
        unfold lacksEnclosing
        rw [enclosingClass_congr h]
        cases F.enclosingClass d with
        | none => rfl
        | some a =>
          have := hmissing a
          rw [Option.bind_some, Option.bind_some]
          cases hF : F.declaration? a <;> cases hG : G.declaration? a <;> simp_all
      have hneeds : ∀ c, G.classNeeds d c = F.classNeeds d c := fun c => by
        unfold classNeeds enclosingSymbol?
        rw [enclosingClass_congr h]
        cases F.enclosingClass d with
        | none => rfl
        | some a => rw [Option.bind_some, Option.bind_some, houter]
      rw [standing_of_owner? hown hx, standing_of_owner? (ho.trans hown) hy]
      unfold bounds at hbounds
      rw [hx, hy, Option.bind_some, Option.bind_some] at hbounds
      unfold Declaration.typeParameter? at hbounds
      unfold standingOf
      rw [horigin, hlacks]
      generalize x.content = content at hc hbounds
      generalize y.content = content' at hc hbounds
      cases content <;> cases content' <;> simp_all [Content.role]

end

end Forest

/-! ## what is found in a signature -/

namespace Forest

/-- what a part of a signature is asked about: the classifiers of its types, and a type parameter
itself -/
def askedAbout (F : Forest) (f : FunctionInfo) : SignaturePart → List SymbolId
  | .parameter a => (F.partTypes f (.parameter a)).flatMap TypeRef.mentioned
  | .returnType => f.returnType.mentioned
  | .typeParameter a => ((F.declaration? a).map Declaration.symbol).toList

/-- the broken parts, each with its cause, when one is asked about after the other and nothing changes
in between -/
def findings (F : Forest) (f : FunctionInfo) (memo : Memo) :
    List SignaturePart → List (SignaturePart × Cause)
  | [] => []
  | part :: rest =>
    let answer := F.exploreFirst memo (F.askedAbout f part)
    (answer.1.toList.map fun k => (part, k)) ++ F.findings f answer.2 rest

/-- a type parameter that no linked library provides -/
def StandsIn (F : Forest) (part : SignaturePart) : Prop :=
  ∃ a x, part = .typeParameter a ∧ F.declaration? a = some x ∧ x.origin = .missing

/-- a broken classifier is reached from a type of the part, or the part is a stand-in -/
def Impaired (F : Forest) (f : FunctionInfo) (part : SignaturePart) : Prop :=
  (∃ t ∈ F.partTypes f part, ∃ s ∈ t.mentioned, F.Faulty s) ∨ F.StandsIn part

/-- one part of the signature of `d` replaced by its marker -/
def mark (I : Intrinsics) (d : DeclarationId) (F : Forest) (found : SignaturePart × Cause) : Forest :=
  let marker := I.markerType found.2.symbol
  match found.1 with
  | .parameter a => F.updateDeclaration a <| Declaration.mapParameter fun q => q.broken marker
  | .returnType =>
    F.updateDeclaration d <| Declaration.mapFunction fun f => { f with returnType := marker }
  | .typeParameter a => F.updateDeclaration a <| Declaration.mapTypeParameter fun _ => ⟨[marker]⟩

section
variable {F : Forest} {f : FunctionInfo} {memo : Memo} {I : Intrinsics} {d a : DeclarationId}
  {found : SignaturePart × Cause} {part : SignaturePart}

theorem map_role_update {g : Declaration → Declaration} (hg : ∀ x, (g x).role = x.role) :
    ((F.updateDeclaration d g).declaration? a).map Declaration.role
      = (F.declaration? a).map Declaration.role := by
  rw [declaration?_updateDeclaration]
  split
  · rw [Option.map_map]
    exact Option.map_congr fun x _ => hg x
  · rfl

/-- a marker changes no role -/
theorem map_role_mark (F : Forest) (I : Intrinsics) (d : DeclarationId) (found : SignaturePart × Cause)
    (a : DeclarationId) : ((F.mark I d found).declaration? a).map Declaration.role
      = (F.declaration? a).map Declaration.role := by
  unfold mark
  cases found.1 <;>
    (refine map_role_update fun x => ?_
     obtain ⟨_, _, _, _, _, content⟩ := x
     cases content <;> rfl)

theorem owner?_mark (s : SymbolId) : (F.mark I d found).owner? s = F.owner? s := by
  unfold mark
  cases found.1 <;> rfl

/-- a marker takes the bounds of one type parameter at most -/
theorem bounds_mark (h : found.1 ≠ .typeParameter a) : (F.mark I d found).bounds a = F.bounds a := by
  unfold mark
  rw [bounds_eq, bounds_eq]
  cases hpart : found.1 with
  | parameter b => rw [bind_update fun x => (x.views_mapParameter _).2]
  | returnType => rw [bind_update fun x => (x.views_mapFunction _).2]
  | typeParameter b =>
    have hne : b ≠ a := fun e => h (by rw [hpart, e])
    simp only [declaration?_update_of_ne hne]

theorem parameter?_mark (h : found.1 ≠ .parameter a) :
    (F.mark I d found).parameter? a = F.parameter? a := by
  unfold mark parameter?
  cases hpart : found.1 with
  | parameter b =>
    have hne : b ≠ a := fun e => h (by rw [hpart, e])
    simp only [declaration?_update_of_ne hne]
  | returnType => exact bind_update fun x => (x.views_mapFunction _).1
  | typeParameter b => exact bind_update fun x => (x.views_mapTypeParameter _).1

/-- the other parts are asked about the same -/
theorem askedAbout_mark (h : found.1 ≠ part) :
    (F.mark I d found).askedAbout f part = F.askedAbout f part := by
  cases part with
  | parameter a => simp only [askedAbout, partTypes, parameter?_mark h]
  | returnType => rfl
  | typeParameter a =>
    have := congrArg (Option.map Prod.fst) (map_role_mark F I d found a)
    simp only [Option.map_map, Function.comp_def, Declaration.role] at this
    simp only [askedAbout, this]

/-- **What was not asked about stands as it stood**, when a type parameter that was marked was asked
about. -/
theorem StandsAs.mark {G : Forest} (h : F.StandsAs (fun _ => True) G memo)
    (ho : ∀ a s, found.1 = .typeParameter a → G.owner? s = some a → memo.find? s ≠ none) :
    F.StandsAs (fun _ => True) (G.mark I d found) memo := by
  refine fun s hs hm => (standing_congr (map_role_mark G I d found) (owner?_mark s) ?_).trans (h s hs hm)
  exact fun a ha => bounds_mark fun e => ho a s e ha hm

end

end Forest

/-! ## the parts of a signature, one after the other -/

namespace Pass

open Forest

section
variable {cx : Context} {F : Forest} {d : DeclarationId} {f : FunctionInfo}

/-- a part is asked about, and marked if it is broken -/
theorem fixPart_eq (q : Pass) (part : SignaturePart) : fixPart cx d f.returnType q part
    = ((q.ask (q.forest.askedAbout f part)).1,
      match (q.ask (q.forest.askedAbout f part)).1 with
      | none => (q.ask (q.forest.askedAbout f part)).2
      | some k => (q.ask (q.forest.askedAbout f part)).2.edit fun G =>
        G.mark cx.intrinsics d (part, k)) := by
  have hnil : q.ask [] = (none, q) := rfl
  cases part with
  | parameter a =>
    cases hp : q.forest.parameter? a with
    | none => simp only [fixPart, fixParameter, askedAbout, partTypes, hp, List.flatMap_nil, hnil]
    | some info =>
      simp only [fixPart, fixParameter, askedAbout, partTypes, hp]
      generalize q.ask (info.types.flatMap TypeRef.mentioned) = answer
      obtain ⟨_ | k, r⟩ := answer <;> rfl
  | returnType =>
    simp only [fixPart, fixReturnType, askedAbout]
    generalize q.ask f.returnType.mentioned = answer
    obtain ⟨_ | k, r⟩ := answer <;> rfl
  | typeParameter a =>
    cases hx : q.forest.declaration? a with
    | none => simp only [fixPart, fixTypeParameter, askedAbout, hx, Option.map_none, Option.toList_none, hnil]
    | some x =>
      simp only [fixPart, fixTypeParameter, askedAbout, hx, Option.map_some, Option.toList_some]
      generalize q.ask [x.symbol] = answer
      obtain ⟨_ | k, r⟩ := answer <;> rfl

variable (cx d) in
/-- **The parts are marked by the findings**, which are those of a forest in which nothing was marked
yet. -/
theorem each_fixPart (ho : ∀ a s, .typeParameter a ∈ f.signature → F.owner? s = some a →
      s ∈ F.askedAbout f (.typeParameter a)) :
    ∀ {l : List SignaturePart} {q : Pass}, l ⊆ f.signature → l.Nodup →
      (∀ s, q.forest.owner? s = F.owner? s) →
      (∀ part ∈ l, q.forest.askedAbout f part = F.askedAbout f part) →
      F.StandsAs (fun _ => True) q.forest q.memo →
      (each (fixPart cx d f.returnType) q l).1 = (F.findings f q.memo l).head?.map Prod.snd
        ∧ (each (fixPart cx d f.returnType) q l).2.forest
          = (F.findings f q.memo l).foldl (Forest.mark cx.intrinsics d) q.forest := by
  intro l
  induction l with
  | nil => exact fun _ _ _ _ _ => ⟨rfl, rfl⟩
  | cons part rest ih =>
    intro q hsub hnd howner hasks hst
    obtain ⟨hpart, hrest⟩ := List.nodup_cons.mp hnd
    have hask : q.ask (q.forest.askedAbout f part)
        = ((F.exploreFirst q.memo (F.askedAbout f part)).1,
          { q with memo := (F.exploreFirst q.memo (F.askedAbout f part)).2 }) := by
      rw [hasks part List.mem_cons_self, ask, exploreFirst_congr hst]
    have hkept := (asked_exploreFirst F (F.askedAbout f part) q.memo).keptIn
    rw [each_cons, fixPart_eq, hask, findings]
    cases hv : (F.exploreFirst q.memo (F.askedAbout f part)).1 with
    | none =>
      obtain ⟨hcause, hforest⟩ := ih (q := { q with memo := (F.exploreFirst q.memo (F.askedAbout f part)).2 })
        (fun b hb => hsub (List.mem_cons_of_mem _ hb)) hrest howner
        (fun b hb => hasks b (List.mem_cons_of_mem _ hb)) (hst.keptIn hkept)
      exact ⟨by simpa using hcause, by simpa using hforest⟩
    | some k =>
      -- a type parameter was asked about itself, and is not asked about again
      have hasked : ∀ a s, part = .typeParameter a → q.forest.owner? s = some a →
          (F.exploreFirst q.memo (F.askedAbout f part)).2.find? s ≠ none := by
        rintro a s rfl hs
        obtain ⟨t, ht, hfind⟩ := exists_find?_of_exploreFirst hv
        have hmem := ho a s (hsub List.mem_cons_self) ((howner s).symm.trans hs)
        simp only [askedAbout, Option.mem_toList] at ht hmem
        rw [Option.some.inj (hmem.symm.trans ht), hfind]
        exact Option.some_ne_none _
      have hmarked : F.StandsAs (fun _ => True) (q.forest.mark cx.intrinsics d (part, k))
          (F.exploreFirst q.memo (F.askedAbout f part)).2 := (hst.keptIn hkept).mark hasked
      obtain ⟨-, hforest⟩ := ih (q := { q with
          memo := (F.exploreFirst q.memo (F.askedAbout f part)).2
          forest := q.forest.mark cx.intrinsics d (part, k) })
        (fun b hb => hsub (List.mem_cons_of_mem _ hb)) hrest
        (fun s => (owner?_mark s).trans (howner s))
        (fun b hb => (askedAbout_mark (show part ≠ b from fun e => hpart (e ▸ hb))).trans
          (hasks b (List.mem_cons_of_mem _ hb))) hmarked
      exact ⟨rfl, hforest⟩

end

end Pass

/-! ## what the findings say -/

namespace Forest

section
variable {F : Forest} {f : FunctionInfo} {memo : Memo} {part : SignaturePart}

theorem findings_sublist : ∀ {l : List SignaturePart} {memo : Memo},
    ((F.findings f memo l).map Prod.fst).Sublist l := by
  intro l
  induction l with
  | nil => exact fun {_} => .slnil
  | cons part rest ih =>
    intro memo
    rw [findings]
    cases (F.exploreFirst memo (F.askedAbout f part)).1 with
    | none => exact ih.cons part
    | some k => exact ih.cons_cons part

/-- a list of classifiers is linked when nothing broken is reached from any of them -/
theorem exploreFirst_eq_none_iff (h : F.Asked .empty memo) {l : List SymbolId} :
    (F.exploreFirst memo l).1 = none ↔ ∀ s ∈ l, ¬ F.Faulty s := by
  have hsound : memo.Sound F := h.sound (Memo.sound_empty F)
  rw [exploreFirst_fst_eq_none_iff hsound]
  refine forall₂_congr fun s _ => ?_
  rw [← explore_fst_eq_none_iff_not_tainted hsound, h.explore_eq_none_iff_not_faulty]

/-- **A part is found** when something broken is reached from what it is asked about. -/
theorem exists_mem_findings : ∀ {l : List SignaturePart} {memo : Memo}, F.Asked .empty memo →
    ((∃ k, (part, k) ∈ F.findings f memo l) ↔ part ∈ l ∧ ∃ s ∈ F.askedAbout f part, F.Faulty s) := by
  intro l
  induction l with
  | nil => exact fun _ => by simp [findings]
  | cons first rest ih =>
    intro memo h
    have hnone := exploreFirst_eq_none_iff h (l := F.askedAbout f first)
    have hrest := ih (h.trans (asked_exploreFirst F (F.askedAbout f first) memo))
    rw [findings, List.mem_cons, or_and_right, ← hrest]
    cases hv : (F.exploreFirst memo (F.askedAbout f first)).1 with
    | none =>
      have hsound := hnone.mp hv
      have hno : ¬ (part = first ∧ ∃ s ∈ F.askedAbout f part, F.Faulty s) := by
        rintro ⟨rfl, s, hs, hf⟩
        exact hsound s hs hf
      simp [hno]
    | some k =>
      have hbroken : ∃ s ∈ F.askedAbout f first, F.Faulty s := by
        by_contra hno
        push Not at hno
        rw [hnone.mpr hno] at hv
        cases hv
      by_cases e : part = first
      · obtain rfl := e
        simp [hbroken]
      · simp [e]

/-- a type parameter is broken by its bounds, or by itself -/
theorem faulty_typeParameter {s : SymbolId} {x : Declaration} {p : TypeParameterInfo}
    (hx : F.definition? s = some x) (hp : x.typeParameter? = some p) :
    F.Faulty s ↔ (∃ t ∈ p.bounds, ∃ u ∈ t.mentioned, F.Faulty u) ∨ x.origin = .missing := by
  by_cases hm : x.origin = .missing
  · exact iff_of_true (Broken.standIn hx hm).faulty (.inr hm)
  · have hst := standing_typeParameter hx hm hp
    have hneeds : ∀ u, F.Needs s u ↔ ∃ t ∈ p.bounds, u ∈ t.mentioned := fun u => by
      unfold Needs
      rw [hst]
      exact List.mem_flatMap
    have hb : ¬ F.Broken s := fun hb => by
      obtain ⟨c, hc⟩ := broken_iff.mp hb
      rw [hst] at hc
      cases hc
    rw [or_iff_left hm]
    constructor
    · rintro ⟨b, hsb, hbroken⟩
      rcases hsb.cases_head with rfl | ⟨u, hu, hub⟩
      · exact absurd hbroken hb
      · obtain ⟨t, ht, hut⟩ := (hneeds u).mp ((dependsOn_iff_of_not_broken hb).mp hu)
        exact ⟨t, ht, u, hut, b, hub, hbroken⟩
    · rintro ⟨t, ht, u, hu, hf⟩
      exact hf.needs ((hneeds u).mpr ⟨t, ht, hu⟩)

/-- what a part is asked about says whether it is impaired -/
theorem impaired_iff (ht : ∀ a, part = .typeParameter a →
      F.HasTypeParameter a ∧ F.symbolOwner? a = some a) :
    F.Impaired f part ↔ ∃ s ∈ F.askedAbout f part, F.Faulty s := by
  have hplain : ∀ types : List TypeRef, (∃ t ∈ types, ∃ s ∈ t.mentioned, F.Faulty s)
      ↔ ∃ s ∈ types.flatMap TypeRef.mentioned, F.Faulty s := fun types => by
    simp only [List.mem_flatMap]
    exact ⟨fun ⟨t, ht, s, hs, hf⟩ => ⟨s, ⟨t, ht, hs⟩, hf⟩, fun ⟨s, ⟨t, ht, hs⟩, hf⟩ => ⟨t, ht, s, hs, hf⟩⟩
  cases part with
  | parameter a =>
    rw [Impaired, askedAbout, ← hplain, or_iff_left]
    rintro ⟨_, _, h, _⟩
    cases h
  | returnType =>
    rw [Impaired, askedAbout, or_iff_left]
    · simp [partTypes]
    · rintro ⟨_, _, h, _⟩
      cases h
  | typeParameter a =>
    obtain ⟨⟨x, p, hx, hp⟩, hown⟩ := ht a rfl
    have hdef : F.definition? x.symbol = some x := by
      have hs : F.owner? x.symbol = some a := by simpa [symbolOwner?, hx] using hown
      exact definition?_of_owner? hs hx
    have hstands : F.StandsIn (.typeParameter a) ↔ x.origin = .missing := by
      constructor
      · rintro ⟨b, y, hb, hy, hm⟩
        obtain rfl := SignaturePart.typeParameter.inj hb
        rwa [Option.some.inj (hx.symm.trans hy)]
      · exact fun hm => ⟨a, x, rfl, hx, hm⟩
    have hbounds : F.bounds a = p.bounds := by
      rw [bounds_eq, hx, Option.bind_some, typeParameter?_eq_some.mpr hp]
      simp
    rw [Impaired, partTypes, hbounds, hstands,
      ← faulty_typeParameter hdef (typeParameter?_eq_some.mpr hp)]
    simp [askedAbout, hx]

end

/-! ## what is left of a signature -/

/-- `G` is `F`, but for the parts of the signature of `d` that were found broken: a parameter has the
marker for its type, and for the type of one element if it has one, and no default; the return type is
the marker, and so is the only bound of a type parameter -/
structure Marked (I : Intrinsics) (F G : Forest) (d : DeclarationId)
    (found : List (SignaturePart × Cause)) : Prop where
  stores : G.name = F.name ∧ G.files = F.files ∧ G.symbols = F.symbols ∧ G.expressions = F.expressions
  parameter : ∀ a k, (.parameter a, k) ∈ found → ∃ x q, F.declaration? a = some x
    ∧ x.content = .ofParameter q ∧ G.declaration? a
      = some { x with content := .ofParameter (q.broken (I.markerType k.symbol)) }
  returnType : ∀ k, (.returnType, k) ∈ found → ∃ x f, F.declaration? d = some x
    ∧ x.content = .ofFunction f ∧ G.declaration? d
      = some { x with content := .ofFunction { f with returnType := I.markerType k.symbol } }
  typeParameter : ∀ a k, (.typeParameter a, k) ∈ found → ∃ x p, F.declaration? a = some x
    ∧ x.content = .ofTypeParameter p ∧ G.declaration? a
      = some { x with content := .ofTypeParameter ⟨[I.markerType k.symbol]⟩ }
  other : ∀ a, (∀ h ∈ found, h.1 ≠ .parameter a ∧ h.1 ≠ .typeParameter a ∧ (h.1 = .returnType → a ≠ d)) →
    G.declaration? a = F.declaration? a

/-- what one marker does to the declaration `a` -/
def markedAt (I : Intrinsics) (d a : DeclarationId) (x : Declaration)
    (found : SignaturePart × Cause) : Declaration :=
  let marker := I.markerType found.2.symbol
  match found.1 with
  | .parameter b => if b = a then x.mapParameter fun q => q.broken marker else x
  | .returnType => if d = a then x.mapFunction fun f => { f with returnType := marker } else x
  | .typeParameter b => if b = a then x.mapTypeParameter fun _ => ⟨[marker]⟩ else x

/-- a list none of whose elements has an effect -/
theorem foldl_eq_self {α ν : Type} {g : α → ν → α} {x : α} {l : List ν} (h : ∀ n ∈ l, g x n = x) :
    l.foldl g x = x :=
  List.foldlRecOn (motive := fun y => y = x) l g rfl fun _ hy n hn => hy.symm ▸ h n hn

/-- a list of which one element alone has an effect -/
theorem foldl_eq_of_unique {α κ ν : Type} {g : α → κ × ν → α} {x : α} {key : κ} {v : ν} :
    ∀ {l : List (κ × ν)}, (l.map Prod.fst).Nodup → (key, v) ∈ l →
      (∀ h ∈ l, h.1 ≠ key → g x h = x) → (∀ h ∈ l, h.1 ≠ key → g (g x (key, v)) h = g x (key, v)) →
      l.foldl g x = g x (key, v) := by
  intro l
  induction l with
  | nil => exact fun _ h => absurd h List.not_mem_nil
  | cons h rest ih =>
    intro hnd hmem hbefore hafter
    rw [List.map_cons, List.nodup_cons] at hnd
    rw [List.foldl_cons]
    rcases List.mem_cons.mp hmem with rfl | hmem
    · refine foldl_eq_self fun h' hh => hafter h' (List.mem_cons_of_mem _ hh) fun e => hnd.1 ?_
      exact List.mem_map.mpr ⟨h', hh, e⟩
    · have hne : h.1 ≠ key := fun e => hnd.1 (List.mem_map.mpr ⟨_, hmem, e.symm⟩)
      rw [hbefore h List.mem_cons_self hne]
      exact ih hnd.2 hmem (fun h' hh => hbefore h' (List.mem_cons_of_mem _ hh)) fun h' hh =>
        hafter h' (List.mem_cons_of_mem _ hh)

section
variable {F : Forest} {I : Intrinsics} {d a : DeclarationId} {found : List (SignaturePart × Cause)}
  {h : SignaturePart × Cause} {x : Declaration}

theorem declaration?_mark (F : Forest) (I : Intrinsics) (d a : DeclarationId)
    (h : SignaturePart × Cause) :
    (F.mark I d h).declaration? a = (F.declaration? a).map fun x => markedAt I d a x h := by
  unfold mark markedAt
  cases h.1 <;>
    (dsimp only
     rw [declaration?_updateDeclaration]
     split
     · rfl
     · rw [Option.map_id'])

theorem declaration?_foldl_mark (I : Intrinsics) (d a : DeclarationId) :
    ∀ (found : List (SignaturePart × Cause)) (F : Forest),
      (found.foldl (mark I d) F).declaration? a
        = (F.declaration? a).map fun x => found.foldl (markedAt I d a) x := by
  intro found
  induction found with
  | nil => exact fun F => Option.map_id'.symm
  | cons h rest ih =>
    intro F
    rw [List.foldl_cons, ih, declaration?_mark, Option.map_map]
    rfl

theorem stores_foldl_mark (I : Intrinsics) (d : DeclarationId) :
    ∀ (found : List (SignaturePart × Cause)) (F : Forest),
      (found.foldl (mark I d) F).name = F.name ∧ (found.foldl (mark I d) F).files = F.files
        ∧ (found.foldl (mark I d) F).symbols = F.symbols
        ∧ (found.foldl (mark I d) F).expressions = F.expressions := by
  intro found
  induction found with
  | nil => exact fun F => ⟨rfl, rfl, rfl, rfl⟩
  | cons h rest ih =>
    intro F
    obtain ⟨hname, hfiles, hsymbols, hexpressions⟩ := ih (F.mark I d h)
    rw [List.foldl_cons, hname, hfiles, hsymbols, hexpressions]
    unfold mark
    cases h.1 <;> exact ⟨rfl, rfl, rfl, rfl⟩

theorem markedAt_parameter {q : ParameterInfo} (hx : x.content = .ofParameter q)
    (hne : h.1 ≠ .parameter a) : markedAt I d a x h = x := by
  obtain ⟨_, _, _, _, _, _⟩ := x
  obtain rfl : _ = Content.ofParameter q := hx
  unfold markedAt
  cases hpart : h.1 with
  | parameter b => exact if_neg fun e => hne (by rw [hpart, e])
  | returnType => exact ite_self _
  | typeParameter => exact ite_self _

theorem markedAt_function {f : FunctionInfo} (hx : x.content = .ofFunction f)
    (hne : h.1 ≠ .returnType) : markedAt I d a x h = x := by
  obtain ⟨_, _, _, _, _, _⟩ := x
  obtain rfl : _ = Content.ofFunction f := hx
  unfold markedAt
  cases hpart : h.1 with
  | parameter => exact ite_self _
  | returnType => exact absurd hpart hne
  | typeParameter => exact ite_self _

theorem markedAt_typeParameter {p : TypeParameterInfo} (hx : x.content = .ofTypeParameter p)
    (hne : h.1 ≠ .typeParameter a) : markedAt I d a x h = x := by
  obtain ⟨_, _, _, _, _, _⟩ := x
  obtain rfl : _ = Content.ofTypeParameter p := hx
  unfold markedAt
  cases hpart : h.1 with
  | parameter => exact ite_self _
  | returnType => exact ite_self _
  | typeParameter b => exact if_neg fun e => hne (by rw [hpart, e])

/-- **Markers do not get in each other's way.** -/
theorem marked_foldl (hnd : (found.map Prod.fst).Nodup)
    (hp : ∀ a k, (.parameter a, k) ∈ found → F.HasParameter a)
    (hr : ∀ k, (.returnType, k) ∈ found → ∃ f, F.function? d = some f)
    (ht : ∀ a k, (.typeParameter a, k) ∈ found → F.HasTypeParameter a) :
    F.Marked I (found.foldl (mark I d) F) d found where
  stores := stores_foldl_mark I d found F
  parameter := fun a k hk => by
    obtain ⟨x, q, hx, hq⟩ := hp a k hk
    refine ⟨x, q, hx, hq, ?_⟩
    have hmark : markedAt I d a x (.parameter a, k)
        = { x with content := .ofParameter (q.broken (I.markerType k.symbol)) } := by
      simp [markedAt, Declaration.mapParameter, hq]
    rw [declaration?_foldl_mark, hx, Option.map_some, ← hmark]
    exact congrArg some (foldl_eq_of_unique hnd hk (fun h _ hne => markedAt_parameter hq hne)
      fun h _ hne => markedAt_parameter (by rw [hmark]) hne)
  returnType := fun k hk => by
    obtain ⟨f, hf⟩ := hr k hk
    obtain ⟨x, hx, hxf⟩ := Option.bind_eq_some_iff.mp hf
    have hc := function?_eq_some.mp hxf
    refine ⟨x, f, hx, hc, ?_⟩
    have hmark : markedAt I d d x (.returnType, k)
        = { x with content := .ofFunction { f with returnType := I.markerType k.symbol } } := by
      simp [markedAt, Declaration.mapFunction, hc]
    rw [declaration?_foldl_mark, hx, Option.map_some, ← hmark]
    exact congrArg some (foldl_eq_of_unique hnd hk (fun h _ hne => markedAt_function hc hne)
      fun h _ hne => markedAt_function (by rw [hmark]) hne)
  typeParameter := fun a k hk => by
    obtain ⟨x, p, hx, hc⟩ := ht a k hk
    refine ⟨x, p, hx, hc, ?_⟩
    have hmark : markedAt I d a x (.typeParameter a, k)
        = { x with content := .ofTypeParameter ⟨[I.markerType k.symbol]⟩ } := by
      simp [markedAt, Declaration.mapTypeParameter, hc]
    rw [declaration?_foldl_mark, hx, Option.map_some, ← hmark]
    exact congrArg some (foldl_eq_of_unique hnd hk (fun h _ hne => markedAt_typeParameter hc hne)
      fun h _ hne => markedAt_typeParameter (by rw [hmark]) hne)
  other := fun a ha => by
    have hfixed : ∀ x, found.foldl (markedAt I d a) x = x := fun x => foldl_eq_self fun h hh => by
      obtain ⟨hparameter, htype, hreturn⟩ := ha h hh
      unfold markedAt
      cases hpart : h.1 with
      | parameter b => exact if_neg fun e => hparameter (by rw [hpart, e])
      | returnType => exact if_neg fun e => hreturn hpart e.symm
      | typeParameter b => exact if_neg fun e => htype (by rw [hpart, e])
    rw [declaration?_foldl_mark, funext hfixed, Option.map_id']

/-- a marker mentions nothing, so it was not there before -/
theorem Marked.ne {G : Forest} (h : F.Marked I G d found) {f : FunctionInfo}
    (hf : F.function? d = some f) {part : SignaturePart} {k : Cause} (hk : (part, k) ∈ found)
    (hi : ∃ t ∈ F.partTypes f part, ∃ s ∈ t.mentioned, F.Faulty s) : G ≠ F := by
  rintro rfl
  obtain ⟨t, ht, s, hs, -⟩ := hi
  have hmarker : t ≠ I.markerType k.symbol := fun e => by
    rw [e, Intrinsics.markerType, TypeRef.mentioned_marker] at hs
    exact List.not_mem_nil hs
  refine hmarker ?_
  cases part with
  | parameter a =>
    obtain ⟨x, q, hx, hq, hx'⟩ := h.parameter a k hk
    have hxc : q = q.broken (I.markerType k.symbol) := by
      have hc := congrArg Declaration.content (Option.some.inj (hx.symm.trans hx'))
      exact Content.ofParameter.inj (hq.symm.trans hc)
    have htypes : t ∈ q.types := by
      simpa [partTypes, parameter?, hx, Declaration.parameter?, hq] using ht
    rw [hxc] at htypes
    simp only [ParameterInfo.types, ParameterInfo.broken, List.mem_cons, Option.mem_toList,
      Option.map_eq_some_iff] at htypes
    rcases htypes with e | ⟨_, _, e⟩
    · exact e
    · exact e.symm
  | returnType =>
    obtain ⟨x, g, hx, hg, hx'⟩ := h.returnType k hk
    have hc := congrArg Declaration.content (Option.some.inj (hx.symm.trans hx'))
    have hreturn : g.returnType = I.markerType k.symbol :=
      congrArg FunctionInfo.returnType (Content.ofFunction.inj (hg.symm.trans hc))
    have hfg : f = g := by
      simpa [function?, hx, Declaration.function?, hg, eq_comm] using hf
    rw [← hreturn, ← hfg]
    exact List.mem_singleton.mp ht
  | typeParameter a =>
    obtain ⟨x, p, hx, hp, hx'⟩ := h.typeParameter a k hk
    have hc := congrArg Declaration.content (Option.some.inj (hx.symm.trans hx'))
    have hbounds : p = ⟨[I.markerType k.symbol]⟩ := Content.ofTypeParameter.inj (hp.symm.trans hc)
    have : t ∈ p.bounds := by
      simpa [partTypes, bounds, hx, Declaration.typeParameter?, hp] using ht
    rw [hbounds] at this
    exact List.mem_singleton.mp this

end

end Forest

namespace Pass

open Forest

section
variable {cx : Context} {p : Pass} {d : DeclarationId} {f : FunctionInfo}

variable (cx) in
/-- **The repair of a signature.**  The parts that are impaired are found, each with the cause that the
classifiers of the first forest have, in the order of the signature; they are marked, and all else
stays as it was.  The first cause is returned, and none just if no part is impaired; then nothing
changes, and where no type parameter is a stand-in nothing changes only then. -/
theorem fixSignature_marks (hF : p.forest.defects = [])
    (hK : p.forest.KindCorrect p.forest.fileRoots) (hd : p.forest.Reached (.declaration d))
    (hf : p.forest.function? d = some f) (hm : p.forest.Asked .empty p.memo)
    (ho : ∀ a s, .typeParameter a ∈ f.signature → p.forest.owner? s = some a →
      (p.forest.declaration? a).map Declaration.symbol = some s) :
    let found := p.forest.findings f p.memo f.signature
    let fixed := p.fixSignature cx d
    (found.map Prod.fst).Sublist f.signature
      ∧ (∀ part, part ∈ found.map Prod.fst ↔ part ∈ f.signature ∧ p.forest.Impaired f part)
      ∧ p.forest.Marked cx.intrinsics fixed.2.forest d found
      ∧ fixed.1 = found.head?.map Prod.snd
      ∧ (fixed.1 = none ↔ ∀ part ∈ f.signature, ¬ p.forest.Impaired f part)
      ∧ (fixed.1 = none → fixed.2.forest = p.forest)
      ∧ ((∀ part ∈ f.signature, ¬ p.forest.StandsIn part) →
        fixed.2.forest = p.forest → fixed.1 = none) := by
  intro found fixed
  have hplanted := (rooted_of_defects_nil hF).toPlanted
  obtain ⟨x, hx, hxf⟩ := Option.bind_eq_some_iff.mp hf
  have hc := function?_eq_some.mp hxf
  have hnd : f.signature.Nodup := hplanted.signature_nodup hd hx hc
  -- kinds and owners of the parts
  have hfits := hK.slots d x hd hx
  have htype : ∀ a, .typeParameter a ∈ f.signature →
      p.forest.HasTypeParameter a ∧ p.forest.symbolOwner? a = some a := fun a =>
    hplanted.owned_typeParameter hd hx hc hfits
  rw [hc] at hfits
  have hparameter : ∀ a, .parameter a ∈ f.signature → p.forest.HasParameter a := fun a ha =>
    hfits.2 a (FunctionInfo.parameter_mem_signature.mp ha)
  -- what is found
  have hsub : (found.map Prod.fst).Sublist f.signature := findings_sublist
  have hfound : ∀ part, part ∈ found.map Prod.fst ↔ part ∈ f.signature ∧ p.forest.Impaired f part :=
    fun part => by
    have hmem : part ∈ found.map Prod.fst ↔ ∃ k, (part, k) ∈ found := by simp
    rw [hmem, exists_mem_findings hm]
    refine and_congr_right fun hpart => (impaired_iff fun a e => ?_).symm
    exact htype a (e ▸ hpart)
  have hpart : ∀ {part k}, (part, k) ∈ found → part ∈ f.signature := fun hk =>
    hsub.subset (List.mem_map_of_mem hk)
  -- what is done
  have hfix : fixed = each (fixPart cx d f.returnType) p f.signature := by
    simp only [fixed, fixSignature, hf]
  obtain ⟨hcause, hforest⟩ := each_fixPart cx d (q := p)
    (fun a s ha hs => by
      rw [askedAbout, ho a s ha hs]
      exact List.mem_singleton_self s)
    (List.Subset.refl f.signature) hnd (fun _ => rfl) (fun _ _ => rfl) (standsAs_refl _ _ _)
  rw [← hfix] at hcause hforest
  have hmarked : p.forest.Marked cx.intrinsics fixed.2.forest d found := by
    rw [hforest]
    exact marked_foldl (hnd.sublist hsub) (fun a k hk => hparameter a (hpart hk))
      (fun _ _ => ⟨f, hf⟩) fun a k hk => (htype a (hpart hk)).1
  have hnone : fixed.1 = none ↔ found = [] := by
    rw [hcause, Option.map_eq_none_iff, List.head?_eq_none_iff]
  have hnil : found = [] ↔ ∀ part ∈ f.signature, ¬ p.forest.Impaired f part := by
    rw [← List.map_eq_nil_iff, List.eq_nil_iff_forall_not_mem]
    exact forall_congr' fun part => (not_congr (hfound part)).trans not_and
  refine ⟨hsub, hfound, hmarked, hcause, hnone.trans hnil, fun h => ?_, fun hs he => ?_⟩
  · rw [hforest, show p.forest.findings f p.memo f.signature = [] from hnone.mp h]
    rfl
  · refine hnone.mpr (List.eq_nil_iff_forall_not_mem.mpr ?_)
    rintro ⟨part, k⟩ hk
    obtain ⟨hpart, hi⟩ := (hfound part).mp (List.mem_map_of_mem hk)
    exact hmarked.ne hf hk (hi.resolve_right (hs part hpart)) he

end

end Pass

/-! ## type parameters of three functions -/

namespace Forest

/-- the function `f` with a type parameter, to which more is added -/
def withTypeParameter (bounds : SymbolId → List TypeRef) : DeclarationId × Forest :=
  let base := (named "lib").installIntrinsics
  let file := base.2.newFile "pkg" "a.kt" ""
  let gone := file.2.newMissingSymbol "pkg" .classLike "Gone"
  let f := gone.2.newFunction "pkg" (.file file.1) "f" base.1.unitType
  f.2.newTypeParameter f.1 "T" (bounds gone.1)

/-- a value parameter and a dispatch receiver have the type parameter `T`, whose bound is gone -/
def boundGone : Forest :=
  let t := withTypeParameter fun gone => [.simple gone]
  let x := t.2.newValueParameter ⟨6⟩ "x" (.simple ⟨8⟩)
  (x.2.newDispatchReceiver ⟨6⟩ (.simple ⟨8⟩)).2

/-- the type parameter `T` is a stand-in without bounds -/
def standInParameter : Forest :=
  let t := withTypeParameter fun _ => []
  t.2.updateDeclaration t.1 fun x => { x with origin := .missing }

/-- the dispatch receiver has the type parameter `T`, whose bound is gone, by a second symbol -/
def secondSymbol : Forest :=
  let t := withTypeParameter fun gone => [.simple gone]
  let second := t.2.addSymbol .typeParameter none
  let bound := second.2.updateSymbol second.1 fun s => { s with owner := some t.1 }
  (bound.newDispatchReceiver ⟨6⟩ (.simple second.1)).2

/-- the context of a repair of these -/
def withTypeParameterContext : Context := ⟨(named "lib").installIntrinsics.1, .warning⟩

end Forest

namespace Pass

open Forest

/-- The receiver is judged last, when `T` has lost its bound, and the memo knows about `T` by then. -/
theorem marked_boundGone :
    let cx := withTypeParameterContext
    let found := [(SignaturePart.parameter ⟨8⟩, Cause.missing ⟨6⟩), (.typeParameter ⟨7⟩, .missing ⟨6⟩),
      (.parameter ⟨9⟩, .missing ⟨6⟩)]
    boundGone.defects = [] ∧ boundGone.KindCorrect boundGone.fileRoots
      ∧ boundGone.Reached (.declaration ⟨6⟩)
      ∧ boundGone.Marked cx.intrinsics ((start boundGone).fixSignature cx ⟨6⟩).2.forest ⟨6⟩ found
      ∧ ((start boundGone).fixSignature cx ⟨6⟩).1 = some (.missing ⟨6⟩) := by
  intro cx found
  have hF : boundGone.defects = [] := by decide +kernel
  have hK : boundGone.KindCorrect boundGone.fileRoots := kindCorrect_of_kindsFit (by decide +kernel)
  have hd : boundGone.Reached (.declaration ⟨6⟩) := ⟨⟨6⟩, by decide +kernel, .refl⟩
  have hO : boundGone.OwnersMatch := by decide +kernel
  obtain ⟨f, hf⟩ : ∃ f, boundGone.function? ⟨6⟩ = some f :=
    Option.isSome_iff_exists.mp (by decide +kernel)
  have hfound : (boundGone.function? ⟨6⟩).map (fun f => boundGone.findings f .empty f.signature)
      = some found := by decide +kernel
  rw [hf, Option.map_some, Option.some.injEq] at hfound
  obtain ⟨-, -, hmarked, hcause, -⟩ := fixSignature_marks cx (p := start boundGone) hF hK hd hf
    .refl fun a s _ hs => by
      obtain ⟨x, hx, rfl⟩ := hO s a hs
      exact congrArg (Option.map Declaration.symbol) hx
  refine ⟨hF, hK, hd, ?_, ?_⟩
  · exact hfound ▸ hmarked
  · rw [hcause, show (start boundGone).forest.findings f (start boundGone).memo f.signature = found
      from hfound]
    rfl

/-- Not only a broken type becomes a marker, and not every broken type does: the stand-in `T` gets a
bound although it had none, and the second symbol of `T` is asked about when the bound is gone. -/
theorem marked_standIn :
    let cx := withTypeParameterContext
    (standInParameter.defects = [] ∧ standInParameter.KindCorrect standInParameter.fileRoots
      ∧ standInParameter.Reached (.declaration ⟨6⟩)
      ∧ (standInParameter.bounds ⟨7⟩).map TypeRef.isMarker = []
      ∧ (((start standInParameter).fixSignature cx ⟨6⟩).2.forest.bounds ⟨7⟩).map TypeRef.isMarker
        = [true])
    ∧ secondSymbol.defects = [] ∧ secondSymbol.KindCorrect secondSymbol.fileRoots
      ∧ secondSymbol.Reached (.declaration ⟨6⟩)
      ∧ (secondSymbol.function? ⟨6⟩).bind FunctionInfo.dispatchReceiver = some ⟨8⟩
      ∧ (secondSymbol.parameter? ⟨8⟩).map (fun q => q.type.mentioned) = some [⟨9⟩]
      ∧ secondSymbol.Faulty ⟨9⟩
      ∧ (((start secondSymbol).fixSignature cx ⟨6⟩).2.forest.parameter? ⟨8⟩).map
        (fun q => q.type.mentioned) = some [⟨9⟩] := by
  intro cx
  refine ⟨⟨by decide +kernel, kindCorrect_of_kindsFit (by decide +kernel),
      ⟨⟨6⟩, by decide +kernel, .refl⟩, by decide +kernel, by decide +kernel⟩,
    by decide +kernel, kindCorrect_of_kindsFit (by decide +kernel), ⟨⟨6⟩, by decide +kernel, .refl⟩,
    by decide +kernel, by decide +kernel, ?_, by decide +kernel⟩
  rw [faulty_iff_explore]
  decide +kernel

end Pass

end LinkRepair
