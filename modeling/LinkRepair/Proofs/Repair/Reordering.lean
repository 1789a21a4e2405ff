import LinkRepair.Proofs.Repair.Balance
import LinkRepair.Proofs.Repair.Replacements

/-!
# Files in another order

In an acyclic forest the account of a repair does not depend on the order in which the files are listed.
The first sweep raises the same problems in what was there, and gives classes the same members; the
second one replaces the same expressions.  What a class lacks is told from lists of overridden symbols in
the state in which the sweep has left them, so the sweep must not take from these lists what a member of
the class implements: the forest is lossless.

* `Forest.entire_of_stored`, `acyclic_of_rank`, `lossless_of_overridable`   checks of the stores;
* `Summary.ofRepairs_perm`      a summary counts the outlines of repairs;
* `Pass.repair_perm`            the summaries are equal, and the reports are the same in some order.
-/

namespace LinkRepair

namespace Forest

section
variable {F : Forest}

/-! ## checks of the stores -/

theorem entire_of_stored (hP : F.ParentsKnown) (hC : F.ChildrenKnown) (ho : F.OwnersMatch)
    (howned : ∀ d ∈ F.declarationIds, ∀ x ∈ (F.declaration? d).toList, F.owner? x.symbol = some d)
    (hsymbols : ∀ x ∈ F.declarations, ∀ s ∈ x.content.types.flatMap TypeRef.blamed ++ x.overridden,
      (F.symbol? s).isSome)
    (hspoken : ∀ x ∈ F.expressions, ∀ s ∈ x.mentioned, (F.symbol? s).isSome) : F.Entire where
  parents := hP
  children := hC
  owners := ho
  owned := fun d x hx => howned d (mem_declarationIds.mpr (Option.isSome_iff_exists.mpr ⟨x, hx⟩)) x
    (Option.mem_toList.mpr hx)
  typed := fun _ x hx t ht s hs => hsymbols x (Array.mem_of_getElem? hx) s
    (List.mem_append_left _ (List.mem_flatMap.mpr ⟨t, ht, hs⟩))
  overridden := fun _ x hx s hs => hsymbols x (Array.mem_of_getElem? hx) s (List.mem_append_right _ hs)
  spoken := fun _ x hx => hspoken x (Array.mem_of_getElem? hx)

/-- classifiers that stand, and rest on classifiers of a lower rank, are on no cycle -/
theorem acyclic_of_rank (rank : SymbolId → Nat)
    (h : ∀ s ∈ F.symbolIds, (F.definition? s).isNone
      ∨ (F.standing s = .rests (F.standing s).needs true ∨ F.standing s = .rests (F.standing s).needs false)
        ∧ ∀ t ∈ (F.standing s).needs, rank t < rank s) : F.Acyclic := by
  intro s
  refine not_transGen_of_rank (fun _ => True) rank (fun a b _ hab => ⟨trivial, ?_⟩) trivial s .refl
  cases hx : F.definition? a with
  | none => exact absurd hab (not_dependsOn_of_undefined hx)
  | some x =>
    obtain ⟨d, hd, _⟩ := exists_owner?_of_definition? hx
    rcases h a (mem_symbolIds.mpr (isSome_symbol?_of_owner? hd)) with hnone | ⟨hrests, hdown⟩
    · rw [hx] at hnone
      cases hnone
    · refine hdown b ((dependsOn_iff_of_not_broken fun hb => ?_).mp hab)
      obtain ⟨c, hc⟩ := broken_iff.mp hb
      rcases hrests with hst | hst <;> rw [hst] at hc <;> cases hc

/-- where all that is overridden can be overridden, nothing is lost -/
theorem lossless_of_overridable (h : ∀ d ∈ F.declarationIds, ∀ s ∈ F.overriddenBy d, F.isOverridable s) :
    F.Lossless := by
  intro d s hs hnot
  have hd : d ∈ F.declarationIds := by
    rw [mem_declarationIds]
    cases hx : F.declaration? d with
    | none => simp [overriddenBy, hx] at hs
    | some x => rfl
  rw [h d hd s hs] at hnot
  cases hnot

end

end Forest

/-! ## another order -/

/-- **A summary counts the outlines**, in whatever order. -/
theorem Summary.ofRepairs_perm {l l' : List Repair} (h : (l.map Repair.outline).Perm (l'.map Repair.outline)) :
    Summary.ofRepairs l = Summary.ofRepairs l'
      ∧ (l.map Repair.report).Perm (l'.map Repair.report) := by
  have hcount : ∀ (kind : Bool × Bool × Report → Bool),
      l.countP (kind ∘ Repair.outline) = l'.countP (kind ∘ Repair.outline) := fun kind => by
    rw [← List.countP_map, ← List.countP_map, h.countP_eq]
  refine ⟨?_, ?_⟩
  · unfold Summary.ofRepairs
    rw [show l.countP Repair.isDeclaration = _ from hcount fun o => o.1,
      show l.countP Repair.isExpression = _ from hcount fun o => !o.1,
      show l.countP Repair.isAddedMember = _ from hcount fun o => o.2.1]
    rfl
  · have := h.map fun o => o.2.2
    rwa [List.map_map, List.map_map] at this

namespace Pass

/-- **The order of the files does not matter.**  A repair of a well-formed, kind-correct and lossless
forest in which no classifier rests on itself counts the same, and reports the same in some order, in
whatever order its files are listed. -/
theorem repair_perm (cx : Context) {F : Forest} {roots roots' : List Root} (hF : F.defects = [])
    (hE : F.Entire) (hA : F.Acyclic) (hL : F.Lossless) (hI : cx.intrinsics.Intact F)
    (hk : F.KindCorrect roots) (hroots : roots.Subperm F.fileRoots) (hperm : roots.Perm roots') :
    (repair cx roots F).summary = (repair cx roots' F).summary
      ∧ (repair cx roots F).reports.Perm (repair cx roots' F).reports := by
  have hP := Forest.planted_of_defects_nil hF
  obtain ⟨l, l', hl, hl', hexpressions⟩ := replaced_perm hE hA hP hroots hk hI hperm
  have hdeclarations := (outlines_perm (repairDeclarations cx roots (.start F))).trans
    (((gifts_perm hE hA hL hk hP hroots hperm).append
      (charges_perm hE hA hP hroots hk hperm)).trans
        (outlines_perm (repairDeclarations cx roots' (.start F))).symm)
  refine Summary.ofRepairs_perm ?_
  rw [hl, hl', List.map_append, List.map_append]
  exact hdeclarations.append (hexpressions.map _)

end Pass

namespace Forest

/-- a class `C` in one file lacks the function `m` of an interface `A` in another one, where a function
`make` returns what is missing and another one reads it -/
def scattered : Forest :=
  let base := (named "lib").installIntrinsics
  let unit := base.1.unitType
  let top := base.2.newFile "pkg" "a.kt" ""
  let bottom := top.2.newFile "pkg" "c.kt" ""
  let gone := bottom.2.newMissingSymbol "pkg" .classLike "Gone"
  let a := gone.2.newClass "pkg" (.file top.1) "A" .interface
  let m := a.2.newFunction "pkg" (.declaration a.1) "m" unit
  let c := (m.2.updateDeclaration m.1 <| Declaration.mapFunction fun f =>
    { f with modality := .abstract, body := none }).newClass "pkg" (.file bottom.1) "C" .plain
  let make := (c.2.addSuperType c.1 ((c.2.typeOf a.1).getD unit)).newFunction "pkg" (.file top.1) "make"
    (.simple gone.1)
  let user := make.2.newFunction "pkg" (.file top.1) "use" unit
  let e := user.2.newExpression (.constant .null) (.simple gone.1)
  e.2.setBody user.1 [.expression e.1]

/-- the context of a repair of `scattered` -/
def scatteredContext : Context := ⟨(named "lib").installIntrinsics.1, .warning⟩

theorem intact_scattered : scatteredContext.intrinsics.Intact scattered :=
  (intact_installIntrinsics _).mono ⟨_, rfl⟩ ⟨_, rfl⟩

end Forest

open Forest in
/-- the first sweep comes to `C` first, or to `make`, and the problems of both are counted -/
theorem repair_perm_scattered :
    let p := repair scatteredContext [.file ⟨1⟩, .file ⟨2⟩] scattered
    let q := repair scatteredContext [.file ⟨2⟩, .file ⟨1⟩] scattered
    scattered.defects = [] ∧ scattered.Entire ∧ scattered.Acyclic ∧ scattered.Lossless
      ∧ scatteredContext.intrinsics.Intact scattered ∧ scattered.KindCorrect [.file ⟨1⟩, .file ⟨2⟩]
      ∧ p.summary = ⟨2, 1, 1⟩ ∧ p.summary = q.summary ∧ p.reports.Perm q.reports := by
  intro p q
  have hF : scattered.defects = [] := by decide +kernel
  have hE : scattered.Entire := entire_of_stored (by decide +kernel) (by decide +kernel) (by decide +kernel)
    (by decide +kernel) (by decide +kernel) (by decide +kernel)
  have hA : scattered.Acyclic := acyclic_of_rank SymbolId.index (by decide +kernel)
  have hL : scattered.Lossless := lossless_of_overridable (by decide +kernel)
  have hk : scattered.KindCorrect [.file ⟨1⟩, .file ⟨2⟩] := kindCorrect_of_kindsFit (by decide +kernel)
  have hroots : [.file ⟨1⟩, .file ⟨2⟩] <:+ scattered.fileRoots := by decide +kernel
  obtain ⟨hsummary, hreports⟩ := Pass.repair_perm scatteredContext hF hE hA hL intact_scattered hk
    hroots.sublist.subperm (List.Perm.swap _ _ _)
  exact ⟨hF, hE, hA, hL, intact_scattered, hk, by decide +kernel, hsummary, hreports⟩

end LinkRepair
