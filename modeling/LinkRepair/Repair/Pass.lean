import LinkRepair.Classifier.Exploration
import LinkRepair.Diagnostic.Basic
import LinkRepair.Diagnostic.Wording
import LinkRepair.Forest.Intrinsics

/-!
# A repair pass

A pass carries the forest from repair to repair, with the answers it was given about classifiers
and with the account of what it did.

* `Repair`         a node that raises a linkage error now, with the problem and its report;
* `Summary`        how many repairs there are of each kind;
* `Pass.ask`       a question about classifiers, answered from the memo where possible;
* `Pass.complain`  a repair put into the account, and the call that raises its problem at run time;
* `Pass.raiseIn`   the same, with that call as the whole body of a declaration.

Every problem goes through `Pass.complain`, so each has one report, and the text that a repaired
node raises is the message of its report.
-/

namespace LinkRepair

/-! ## the account -/

structure Repair where
  /-- a function or initializer with a new body, or an expression that was replaced -/
  node : Node
  problem : Problem
  report : Report
deriving DecidableEq

namespace Repair

def isDeclaration (r : Repair) : Bool :=
  match r.node with
  | .declaration _ => true
  | .expression _ => false

def isExpression (r : Repair) : Bool := !r.isDeclaration

/-- whether the declaration was added by the pass, in place of an implementation that is gone -/
def isAddedMember (r : Repair) : Bool :=
  match r.problem with
  | .unimplementedMember _ => true
  | _ => false

end Repair

structure Summary where
  /-- declarations that were given a body that raises a linkage error -/
  declarations : Nat
  /-- expressions that were replaced by a linkage error -/
  expressions : Nat
  /-- members added for abstract ones that were not implemented -/
  members : Nat
deriving DecidableEq

namespace Summary

def zero : Summary := ⟨0, 0, 0⟩

def isEmpty (s : Summary) : Bool := s == zero

def ofRepairs (repairs : List Repair) : Summary :=
  ⟨repairs.countP Repair.isDeclaration, repairs.countP Repair.isExpression,
    repairs.countP Repair.isAddedMember⟩

theorem ofRepairs_nil : ofRepairs [] = zero := rfl

/-- a repair is at a declaration or at an expression -/
theorem length_eq_ofRepairs (repairs : List Repair) :
    repairs.length = (ofRepairs repairs).declarations + (ofRepairs repairs).expressions := by
  rw [List.length_eq_countP_add_countP Repair.isDeclaration]
  congr 2
  funext r
  cases h : r.isDeclaration <;> simp [Repair.isExpression, h]

end Summary

/-! ## the state -/

/-- what stays the same all through a pass -/
structure Context where
  intrinsics : Intrinsics
  /-- the severity of the reports -/
  severity : Severity

structure Pass where
  forest : Forest
  memo : Memo
  /-- in the order in which they were made -/
  repairs : List Repair
  /-- the classes whose abstract members have been looked at -/
  examined : List DeclarationId

namespace Pass

/-- the state before anything is repaired -/
def start (F : Forest) : Pass := ⟨F, .empty, [], []⟩

def summary (p : Pass) : Summary := .ofRepairs p.repairs

def reports (p : Pass) : List Report := p.repairs.map Repair.report

/-- an edit of the forest alone -/
def edit (p : Pass) (g : Forest → Forest) : Pass := { p with forest := g p.forest }

/-- the cause of the first broken one among some classifiers -/
def ask (p : Pass) (symbols : List SymbolId) : Verdict × Pass :=
  let answer := p.forest.exploreFirst p.memo symbols
  (answer.1, { p with memo := answer.2 })

/-- the same question for each of a list of things; the first cause counts, but all are asked -/
def each {α : Type} (f : Pass → α → Verdict × Pass) : Pass → List α → Verdict × Pass
  | p, [] => (none, p)
  | p, a :: rest =>
    let first := f p a
    let later := each f first.2 rest
    (first.1.or later.1, later.2)

def complain (cx : Context) (p : Pass) (n : Node) (problem : Problem) (span : Span)
    (location : Option Location) : Expression × Pass :=
  let message := p.forest.problemText problem
  let call := cx.intrinsics.linkageErrorCall p.forest span message
  (call.1,
    { p with
      forest := call.2
      repairs := p.repairs ++ [⟨n, problem, ⟨cx.severity, message, location⟩⟩] })

/-- a linkage error becomes the body of a function or an initializer -/
def raiseIn (cx : Context) (p : Pass) (problem : Problem) (d : DeclarationId) : Pass :=
  let span := ((p.forest.declaration? d).map Declaration.span).getD .undefined
  let raised := p.complain cx (.declaration d) problem span (p.forest.declarationLocation d)
  let call := raised.2.forest.addExpression raised.1
  { raised.2 with
    forest := call.2.updateDeclaration d (Declaration.withBody [.expression call.1]) }

section
variable (p : Pass)

theorem ask_forest (symbols : List SymbolId) : (p.ask symbols).2.forest = p.forest := rfl

theorem ask_repairs (symbols : List SymbolId) : (p.ask symbols).2.repairs = p.repairs := rfl

theorem ask_nil : p.ask [] = (none, p) := rfl

theorem edit_memo (g : Forest → Forest) : (p.edit g).memo = p.memo := rfl

theorem edit_repairs (g : Forest → Forest) : (p.edit g).repairs = p.repairs := rfl

/-- a report for every repair -/
theorem reports_length :
    p.reports.length = p.summary.declarations + p.summary.expressions := by
  rw [reports, List.length_map, Summary.length_eq_ofRepairs, summary]

/-- one report more, with the message of the problem -/
theorem complain_reports (cx : Context) (n : Node) (problem : Problem) (span : Span)
    (location : Option Location) :
    (p.complain cx n problem span location).2.reports
      = p.reports ++ [⟨cx.severity, p.forest.problemText problem, location⟩] := by
  simp [reports, complain]

/-- what takes the place of a node is a call that raises a linkage error -/
theorem isLinkageErrorCall_complain (cx : Context) (n : Node) (problem : Problem) (span : Span)
    (location : Option Location) :
    cx.intrinsics.isLinkageErrorCall (p.complain cx n problem span location).1 = true :=
  cx.intrinsics.isLinkageErrorCall_callWith span _

end

end Pass

end LinkRepair
