import LinkRepair.Forest.WellFormed
import LinkRepair.Repair.Basic
import LinkRepair.Settings
import LinkRepair.Unlinked

/-!
# Linking

A forest is linked in two steps: a malformed one is refused, and then a well-formed one is either
repaired, or only searched for unlinked symbols, each of which is an error.

* `LinkError`   a forest that is malformed, with its defects;
* `Linked`      the errors and warnings of a link, and what was repaired;
* `link`        the result, and the forest afterwards.
-/

namespace LinkRepair

/-- a forest that is not well-formed has one defect at least -/
inductive LinkError where
  | malformed (forest : String) (first : Defect) (others : List Defect)
deriving DecidableEq

def LinkError.message : LinkError → String
  | .malformed forest first others =>
    "module `" ++ forest ++ "` is malformed: " ++ first.message
      ++ (if others = [] then "" else " (and " ++ toString others.length ++ " more)")

structure Linked where
  errors : List Diagnostic
  warnings : List Diagnostic
  summary : Summary
deriving DecidableEq

/-- a link succeeds when it has no errors -/
def Linked.success (r : Linked) : Bool := r.errors.isEmpty

/-- every unlinked symbol is an error, and nothing is changed -/
def refuseUnlinked (F : Forest) (I : Intrinsics) : Linked :=
  ⟨(F.unlinkedSymbols (F.userRoots I)).map fun s =>
      ⟨F.problemText (.missingDeclaration s), none⟩,
    [], .zero⟩

/-- the reports of a pass, those of the highest severity apart -/
def linkedOfPass (p : Pass) : Linked :=
  ⟨(p.reports.filter fun r => r.severity == .error).map Report.diagnostic,
    (p.reports.filter fun r => r.severity != .error).map Report.diagnostic, p.summary⟩

def link (F : Forest) (I : Intrinsics) (settings : Settings) : Except LinkError (Linked × Forest) :=
  match F.defects with
  | first :: others => .error (.malformed F.name first others)
  | [] =>
    if settings.isEnabled then
      let p := repairForest ⟨I, settings.severity⟩ F
      .ok (linkedOfPass p, p.forest)
    else .ok (refuseUnlinked F I, F)

/-- a refused forest is left as it is -/
theorem link_disabled {F : Forest} (I : Intrinsics) (severity : Severity) (h : F.defects = []) :
    link F I ⟨.disabled, severity⟩ = .ok (refuseUnlinked F I, F) := by
  simp [link, h, Settings.isEnabled]

end LinkRepair
