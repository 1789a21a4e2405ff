import LinkRepair.Forest.Navigation
import LinkRepair.Walk

/-!
# Well-formed forests

A forest is well-formed when its child lists make trees: from the files every node is reached once
at most, the parent link of a declaration points at the closest declaration above it, or at its
file, and every declaration owns its own symbol.  `Forest.defects` lists what is wrong, in the
order of a walk over all files; a node that is met a second time is reported and not entered again.

* `Defect`            the ways to be malformed;
* `Defect.message`    their wording;
* `Forest.defects`    empty just for the well-formed forests.
-/

namespace LinkRepair

inductive Defect where
  | parentMismatch (name : String)
  | ownerMismatch (name : String)
  | sharedDeclaration (name : String)
  | sharedExpression
deriving DecidableEq

def Defect.message : Defect → String
  | .parentMismatch name =>
    "declaration `" ++ name ++ "` has a parent link that does not point at its container"
  | .ownerMismatch name => "declaration `" ++ name ++ "` is not the owner of its own symbol"
  | .sharedDeclaration name => "declaration `" ++ name ++ "` is reachable more than once"
  | .sharedExpression => "expression is reachable more than once"

/-- what an inspection has met so far -/
structure Inspection where
  seen : List Node
  defects : List Defect

/-- a node together with the place that a declaration there must call its parent -/
structure Placement where
  node : Node
  container : Parent
deriving DecidableEq

namespace Forest

/-- the parent link, if the declaration is there and has one -/
def parentLink? (F : Forest) (d : DeclarationId) : Option Parent :=
  (F.declaration? d).bind Declaration.parent

/-- the owner of the symbol of a declaration -/
def symbolOwner? (F : Forest) (d : DeclarationId) : Option DeclarationId :=
  (F.declaration? d).bind fun x => F.owner? x.symbol

/-- what is wrong with a declaration in its place, whatever is below it -/
def placementDefects (F : Forest) (d : DeclarationId) (container : Parent) : List Defect :=
  (if F.parentLink? d = some container then [] else [.parentMismatch (F.nameOf d)])
    ++ (if F.symbolOwner? d = some d then [] else [.ownerMismatch (F.nameOf d)])

/-- the defect of a node that is met again -/
def sharingDefect (F : Forest) : Node → Defect
  | .declaration d => .sharedDeclaration (F.nameOf d)
  | .expression _ => .sharedExpression

/-- the places below a place: a declaration contains what is in it, an expression does not -/
def placementsBelow (F : Forest) (p : Placement) : List Placement :=
  match p.node with
  | .declaration d => (F.children p.node).map fun n => ⟨n, .declaration d⟩
  | .expression _ => (F.children p.node).map fun n => ⟨n, p.container⟩

def inspect (F : Forest) (s : Inspection) (p : Placement) : Inspection × List Placement :=
  if p.node ∈ s.seen then ({ s with defects := s.defects ++ [F.sharingDefect p.node] }, [])
  else
    let found :=
      match p.node with
      | .declaration d => F.placementDefects d p.container
      | .expression _ => []
    (⟨p.node :: s.seen, s.defects ++ found⟩, F.placementsBelow p)

/-- the places at top level, file by file -/
def topPlacements (F : Forest) : List Placement :=
  F.fileIds.flatMap fun f =>
    (F.rootDeclarations (.file f)).map fun d => ⟨.declaration d, .file f⟩

def inspection (F : Forest) : Inspection :=
  walkAll F.inspect (F.nodeCount + 1) ⟨[], []⟩ F.topPlacements

def defects (F : Forest) : List Defect := F.inspection.defects

/-- a declaration with the right links has nothing wrong with its place -/
theorem placementDefects_eq_nil {F : Forest} {d : DeclarationId} {container : Parent} :
    F.placementDefects d container = []
      ↔ F.parentLink? d = some container ∧ F.symbolOwner? d = some d := by
  unfold placementDefects
  split <;> split <;> simp_all

theorem defects_named (name : String) : (named name).defects = [] := rfl

end Forest

end LinkRepair
