import LinkRepair.Link
import LinkRepair.Proofs.Repair.Account
import LinkRepair.Proofs.Repair.Raising

/-!
# The diagnostics of a link

Every repair has one report, and every report becomes one diagnostic.  So the diagnostics of a link
can be read off the repaired forest: they are the texts that the repaired nodes raise.

* `Pass.Rated`               every report has the severity that was asked for;
* `accused_repairExpressions`  the second sweep puts expressions into the account, and nothing else;
* `nodup_accused_repair`     no node is in the account twice;
* `link_accounts`            what the diagnostics of a link, its summary and its success have to do
                             with what the repaired nodes raise.
-/

namespace LinkRepair

namespace Pass

section
variable {cx : Context} {c : Scope} {p q : Pass} {severity : Severity}

/-! ## severity -/

def Rated (severity : Severity) (p : Pass) : Prop := ∀ r ∈ p.repairs, r.report.severity = severity

theorem Rated.concat {r : Repair} (h : p.Rated severity) (hq : q.repairs = p.repairs ++ [r])
    (hr : r.report.severity = severity) : q.Rated severity := by
  intro s hs
  rw [hq] at hs
  rcases List.mem_append.mp hs with hs | hs
  · exact h s hs
  · rw [List.mem_singleton.mp hs, hr]

theorem Step.rated (h : Step cx c p q) (hp : p.Rated cx.severity) : q.Rated cx.severity := by
  cases h with
  | raise => exact hp.concat rfl rfl
  | _ => exact hp

theorem Chain.rated (h : Chain cx c p q) (hp : p.Rated cx.severity) : q.Rated cx.severity := by
  induction h with
  | refl => exact hp
  | tail _ h ih => exact h.rated ih

theorem Rated.enterExpression (h : p.Rated cx.severity) (file : Option FileId) (n : Node) :
    (Pass.enterExpression cx file p n).1.Rated cx.severity := by
  unfold Pass.enterExpression
  cases n with
  | declaration d => exact h
  | expression e =>
    dsimp only
    split
    · exact h
    · exact h.concat rfl rfl

/-! ## the second sweep -/

theorem accused_enterExpression (cx : Context) (p : Pass) (file : Option FileId) (n : Node) :
    ((Pass.enterExpression cx file p n).1.accused = p.accused
        ∨ ∃ e, (Pass.enterExpression cx file p n).1.accused = p.accused ++ [.expression e])
      ∧ (Pass.enterExpression cx file p n).1.forest.declarations = p.forest.declarations := by
  unfold Pass.enterExpression
  cases n with
  | declaration d => exact ⟨.inl rfl, rfl⟩
  | expression e =>
    dsimp only
    split
    · exact ⟨.inl rfl, rfl⟩
    · exact ⟨.inr ⟨e, List.map_append⟩, rfl⟩

/-- **The second sweep complains about expressions only**, and leaves all declarations as they are. -/
theorem accused_repairExpressions (roots : List Root) (hp : p.Rated cx.severity) :
    (∃ l : List ExpressionId,
        (repairExpressions cx roots p).accused = p.accused ++ l.map .expression)
      ∧ (repairExpressions cx roots p).forest.declarations = p.forest.declarations
      ∧ (repairExpressions cx roots p).Rated cx.severity := by
  refine (expressionVisits_invariant cx (N := fun _ => True)
    (P := fun q => (∃ l : List ExpressionId, q.accused = p.accused ++ l.map .expression)
      ∧ q.forest.declarations = p.forest.declarations ∧ q.Rated cx.severity)
    (fun file q n hq _ => ⟨?_, fun _ _ => trivial⟩) (fun _ _ _ _ _ _ => trivial)
    ⟨⟨[], (List.append_nil _).symm⟩, rfl, hp⟩).1
  obtain ⟨⟨l, hl⟩, hd, hrated⟩ := hq
  obtain ⟨haccused, hdeclarations⟩ := accused_enterExpression cx q file n
  refine ⟨?_, hdeclarations.trans hd, hrated.enterExpression file n⟩
  rcases haccused with e | ⟨a, e⟩
  · exact ⟨l, e.trans hl⟩
  · exact ⟨l ++ [a], by rw [e, hl, List.map_append, List.append_assoc]; rfl⟩

/-! ## both sweeps -/

theorem rewritten_eq (p : Pass) : p.rewritten = p.accused.filterMap Node.expression? := by
  rw [rewritten, accused, List.filterMap_map]
  rfl

/-- **No node is in the account twice.** -/
theorem nodup_accused_repair {F : Forest} {roots : List Root} (hI : cx.intrinsics.Intact F)
    (hF : F.Planted) (hB : F.Bequests True roots) (hP : F.ParentsKnown) (hC : F.ChildrenKnown)
    (hroots : roots.Subperm F.fileRoots) : (repair cx roots F).accused.Nodup := by
  have hfirst := accounted_repairDeclarations cx hF hB hP hC hroots
  have hrated : (repairDeclarations cx roots (.start F)).Rated cx.severity :=
    Chain.rated (chain_repairDeclarations cx roots _) fun r hr => absurd hr List.not_mem_nil
  obtain ⟨⟨l, hl⟩, _⟩ := accused_repairExpressions roots hrated
  have hnodup := (rewrites_repair hI hP roots).nodup
  have haccused : (repair cx roots F).accused
      = (repairDeclarations cx roots (.start F)).accused ++ l.map .expression := hl
  have hl' : l.Nodup := by
    rw [rewritten_eq, haccused, List.filterMap_append, List.nodup_append, List.filterMap_map] at hnodup
    have := hnodup.2.1
    rwa [show Node.expression? ∘ Node.expression = some from rfl, List.filterMap_some] at this
  rw [haccused, List.nodup_append]
  refine ⟨hfirst.nodup, hl'.map fun _ _ h => Node.expression.inj h, ?_⟩
  rintro n hn _ hm rfl
  obtain ⟨a, rfl, _⟩ := hfirst.entries n hn
  obtain ⟨_, _, he⟩ := List.mem_map.mp hm
  cases he

/-- what the first sweep complains about is a function or the first initializer of a class still -/
theorem accusable_repair {F : Forest} (hC : F.MembersKnown) (roots : List Root) {a : DeclarationId}
    (ha : .declaration a ∈ (repair cx roots F).accused) : (repair cx roots F).forest.Accusable a := by
  have hrated : (repairDeclarations cx roots (.start F)).Rated cx.severity :=
    Chain.rated (chain_repairDeclarations cx roots _) fun r hr => absurd hr List.not_mem_nil
  obtain ⟨⟨l, hl⟩, hd, _⟩ := accused_repairExpressions roots hrated
  rw [show (repair cx roots F).accused
    = (repairDeclarations cx roots (.start F)).accused ++ l.map .expression from hl] at ha
  rcases List.mem_append.mp ha with ha | ha
  · obtain ⟨b, hb, hacc⟩ := accusable_repairDeclarations cx hC roots _ ha
    obtain rfl := Node.declaration.inj hb
    unfold Forest.Accusable Forest.function? Forest.initializer? Forest.class? Forest.declaration? at hacc ⊢
    rw [show (repair cx roots F).forest.declarations
      = (repairDeclarations cx roots (.start F)).forest.declarations from hd]
    exact hacc
  · obtain ⟨_, _, he⟩ := List.mem_map.mp ha
    cases he

/-- where no node is in the account twice, each raises the message of its report -/
theorem map_raisedText?_of_nodup {I : Intrinsics} (hv : p.Voiced I) (hnd : p.accused.Nodup) :
    p.accused.map (p.forest.raisedText? I) = p.reports.map fun r => some r.message := by
  rw [accused, reports, List.map_map, List.map_map]
  refine List.map_congr_left fun r hr => ?_
  obtain ⟨r', hr', hn, hvoice⟩ := hv r hr
  obtain rfl := List.inj_on_of_nodup_map hnd hr' hr hn
  exact hvoice.raisedText?

/-! ## what a link says -/

/-- every report becomes one diagnostic -/
theorem diagnostics_perm (p : Pass) :
    ((linkedOfPass p).errors ++ (linkedOfPass p).warnings).Perm (p.reports.map Report.diagnostic) := by
  rw [linkedOfPass, ← List.map_append]
  exact (List.filter_append_perm (fun r : Report => r.severity == .error) p.reports).map _

/-- a summary is empty when nothing was repaired -/
theorem isEmpty_summary (p : Pass) : p.summary.isEmpty = p.reports.isEmpty := by
  have hlength := p.reports_length
  cases h : p.reports with
  | nil =>
    have : p.repairs = [] := List.map_eq_nil_iff.mp h
    rw [summary, this]
    rfl
  | cons r l =>
    rw [h, List.length_cons] at hlength
    rw [Summary.isEmpty, List.isEmpty_cons, beq_eq_false_iff_ne]
    intro hzero
    rw [hzero] at hlength
    cases hlength

/-- a link fails when the reports are errors, and there are some -/
theorem success_linkedOfPass (hp : p.Rated severity) :
    (linkedOfPass p).success = false ↔ severity = .error ∧ p.summary.isEmpty = false := by
  have hreports : ∀ r ∈ p.reports, r.severity = severity := fun r hr => by
    obtain ⟨s, hs, rfl⟩ := List.mem_map.mp hr
    exact hp s hs
  rw [isEmpty_summary]
  by_cases he : severity = .error
  · subst he
    have hall : p.reports.filter (fun r => r.severity == .error) = p.reports :=
      List.filter_eq_self.mpr fun r hr => by simp [hreports r hr]
    simp [Linked.success, linkedOfPass, hall]
  · have hnone : p.reports.filter (fun r => r.severity == .error) = [] :=
      List.filter_eq_nil_iff.mpr fun r hr => by simp [hreports r hr, he]
    simp [Linked.success, linkedOfPass, hnone, he]

end

end Pass

section
variable {F : Forest} {I : Intrinsics}

/-- **A link has one diagnostic for every repair**, and fails just when it reports errors and repaired
something.  Every node that it counts raises a text, in the body of a function, in that of the first
initializer of a class, or as an expression.  Where the functions that are inherited below the roots
can be copied, no node is counted twice, and the texts are the messages of the diagnostics. -/
theorem link_accounts (severity : Severity) (hF : F.defects = []) (hI : I.Intact F)
    (hP : F.ParentsKnown) (hC : F.ChildrenKnown) :
    let p := repairForest ⟨I, severity⟩ F
    ∃ r, link F I ⟨.enabled, severity⟩ = .ok (r, p.forest) ∧ r.summary = p.summary
      ∧ r.errors.length + r.warnings.length = r.summary.declarations + r.summary.expressions
      ∧ (r.success = false ↔ severity = .error ∧ r.summary.isEmpty = false)
      ∧ r.summary.declarations + r.summary.expressions = p.accused.length
      ∧ (∀ n ∈ p.accused, ∃ text, p.forest.raisedText? I n = some text)
      ∧ (∀ a, .declaration a ∈ p.accused → p.forest.Accusable a)
      ∧ ((∀ m x f, F.Bequeaths (F.userRoots I) m x f → F.Fits x.content) →
          p.accused.Nodup ∧ ((r.errors ++ r.warnings).map fun x => some x.message).Perm
            (p.accused.map (p.forest.raisedText? I))) := by
  intro p
  have hvoiced : p.Voiced I := Pass.voiced_repair hI hP _
  have hrated : p.Rated severity := (Pass.accused_repairExpressions _
    (Pass.Chain.rated (Pass.chain_repairDeclarations ⟨I, severity⟩ (F.userRoots I) (.start F))
      fun r hr => absurd hr List.not_mem_nil)).2.2
  have hperm := p.diagnostics_perm
  have hlength : (linkedOfPass p).errors.length + (linkedOfPass p).warnings.length = p.reports.length := by
    rw [← List.length_append, hperm.length_eq, List.length_map]
  refine ⟨linkedOfPass p, by simp [link, hF, Settings.isEnabled, p], rfl, hlength.trans p.reports_length,
    Pass.success_linkedOfPass hrated, ?_, fun n hn => ?_, fun a => Pass.accusable_repair hC.membersKnown _,
    fun hB => ?_⟩
  · rw [Pass.accused, List.length_map]
    exact (Summary.length_eq_ofRepairs p.repairs).symm
  · obtain ⟨r, hr, rfl⟩ := List.mem_map.mp hn
    obtain ⟨r', _, _, hv⟩ := hvoiced r hr
    exact ⟨_, hv.raisedText?⟩
  · have hnd : p.accused.Nodup := Pass.nodup_accused_repair hI (Forest.planted_of_defects_nil hF)
      (Forest.bequests_of_fits hB) hP hC (F.userRoots_subperm I)
    refine ⟨hnd, ?_⟩
    rw [Pass.map_raisedText?_of_nodup hvoiced hnd]
    have := hperm.map fun x : Diagnostic => some x.message
    rwa [List.map_map] at this

end

/-! ## a class in the slot of a parameter -/

namespace Forest

theorem intact_lacksMember : lacksMemberContext.intrinsics.Intact lacksMember :=
  (intact_installIntrinsics _).mono ⟨_, rfl⟩ ⟨_, rfl⟩

/-- the copy of `m` and the call in the place of the expression raise what is reported as errors -/
theorem link_accounts_lacksMember :
    let I := lacksMemberContext.intrinsics
    let p := repairForest ⟨I, .error⟩ lacksMember
    lacksMember.defects = [] ∧ I.Intact lacksMember ∧ lacksMember.ParentsKnown
      ∧ lacksMember.ChildrenKnown
      ∧ (∀ m x f, lacksMember.Bequeaths (lacksMember.userRoots I) m x f → lacksMember.Fits x.content)
      ∧ ∃ r, link lacksMember I ⟨.enabled, .error⟩ = .ok (r, p.forest) ∧ r.success = false
        ∧ r.errors.length + r.warnings.length = 2
        ∧ ((r.errors ++ r.warnings).map fun x => some x.message).Perm
            [p.forest.raisedText? I (.declaration ⟨12⟩), p.forest.raisedText? I (.expression ⟨0⟩)] := by
  intro I p
  have hF : lacksMember.defects = [] := by decide +kernel
  have hP : lacksMember.ParentsKnown := by decide +kernel
  have hC : lacksMember.ChildrenKnown := by decide +kernel
  have hB := (@kindCorrect_of_kindsFit lacksMember (lacksMember.userRoots I) (by decide +kernel)).inherited
  have hsummary : p.summary = ⟨1, 1, 1⟩ := by decide +kernel
  have haccused : p.accused = [.declaration ⟨12⟩, .expression ⟨0⟩] := by decide +kernel
  obtain ⟨r, hlink, hr, hcount, hsuccess, _, _, _, htexts⟩ :=
    link_accounts .error hF intact_lacksMember hP hC
  replace hr : r.summary = ⟨1, 1, 1⟩ := hr.trans hsummary
  rw [hr] at hcount hsuccess
  refine ⟨hF, intact_lacksMember, hP, hC, hB, r, hlink, hsuccess.mpr ⟨rfl, rfl⟩, hcount, ?_⟩
  have hperm := (htexts hB).2
  rw [show (repairForest ⟨lacksMemberContext.intrinsics, .error⟩ lacksMember).accused
    = [.declaration ⟨12⟩, .expression ⟨0⟩] from haccused] at hperm
  exact hperm

/-- the class `C` lacks the function `m`, which lists the broken class `X` in the place of a parameter -/
def lentClass : Forest :=
  let base := (named "lib").installIntrinsics
  let unit := base.1.unitType
  let file := base.2.newFile "pkg" "a.kt" ""
  let gone := file.2.newMissingSymbol "pkg" .classLike "Gone"
  let c := gone.2.newClass "pkg" (.file file.1) "C" .plain
  let a := c.2.newClass "pkg" (.file file.1) "A" .interface
  let m := a.2.newFunction "pkg" (.declaration a.1) "m" unit
  let x := m.2.newClass "pkg" (.declaration m.1) "X" .plain
  let i := (x.2.addSuperType x.1 (.simple gone.1)).newInitializer x.1 .defined
  (i.2.addSuperType c.1 ((i.2.typeOf a.1).getD unit)).updateDeclaration m.1 <| Declaration.mapFunction fun f =>
    { f with modality := .abstract, body := none, valueParameters := [x.1] }

/-- the context of a repair of `lentClass` -/
def lentClassContext : Context := ⟨(named "lib").installIntrinsics.1, .warning⟩

theorem intact_lentClass : lentClassContext.intrinsics.Intact lentClass :=
  (intact_installIntrinsics _).mono ⟨_, rfl⟩ ⟨_, rfl⟩

/-- the copy of `X` has the same initializer as `X`, so it raises the message of one report only, and
that of the other is lost -/
theorem link_lentClass_loses_message :
    let I := lentClassContext.intrinsics
    let p := repairForest lentClassContext lentClass
    lentClass.defects = [] ∧ I.Intact lentClass ∧ lentClass.ParentsKnown ∧ lentClass.ChildrenKnown
      ∧ ∃ r, link lentClass I ⟨.enabled, .warning⟩ = .ok (r, p.forest)
        ∧ ¬ ((r.errors ++ r.warnings).map fun x => some x.message).Perm
            (p.accused.map (p.forest.raisedText? I)) := by
  intro I p
  have hF : lentClass.defects = [] := by decide +kernel
  refine ⟨hF, intact_lentClass, by decide +kernel, by decide +kernel, linkedOfPass p,
    by simp [link, hF, Settings.isEnabled, p, I, lentClassContext], ?_⟩
  decide +kernel

end Forest

end LinkRepair
