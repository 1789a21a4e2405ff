import LinkRepair.Repair.Members

/-!
# The sweep over declarations

The first sweep visits every declaration, local ones included, and repairs its signature.

* `Pass.repairClass`       a broken class raises its problem when it is initialized, and loses its
                           broken super types;
* `Pass.repairFunction`    broken types become markers, and the body of a function with a broken
                           signature raises the problem;
* `Pass.enterDeclaration`  what happens at a declaration, and whether the sweep goes on below it;
* `Pass.sweepDeclarations` the sweep below a root.

What is below a repaired function, field or variable is not visited: it is no longer reachable.
-/

namespace LinkRepair

/-- what the verdict on a class makes wrong with its declaration -/
def classProblem (d : DeclarationId) (symbol : SymbolId) (verdict bound : Verdict) :
    Option Problem :=
  match verdict with
  | some (.missing _) => some (.missingDeclaration symbol)
  | some (.missingEnclosing _) => some (.missingEnclosingClass d)
  | some (.due _ root) => some (.brokenSignature d root)
  | none => bound.map (.brokenSignature d)

/-- what is wrong with a function whose signature has the given first cause -/
def functionProblem (d : DeclarationId) (x : Declaration) (cause : Verdict) : Option Problem :=
  match x.origin with
  | .unimplemented => none
  | .missing => some (.missingDeclaration x.symbol)
  | .defined => cause.map (.brokenSignature d)

namespace Forest

/-- the first initializer among the members of a class -/
def initializer? (F : Forest) (d : DeclarationId) : Option DeclarationId :=
  (F.class? d).bind fun c =>
    c.members.find? fun m => (F.declaration? m).any Declaration.isInitializer

end Forest

namespace Pass

/-- the first initializer of a class, or a new one -/
def initializerOf (p : Pass) (d : DeclarationId) : DeclarationId × Pass :=
  match p.forest.initializer? d with
  | some m => (m, p)
  | none =>
    let made := p.forest.newInitializer d .missing
    (made.1, { p with forest := made.2 })

/-- the types of a list that are fully linked -/
def linkedTypes : Pass → List TypeRef → List TypeRef × Pass
  | p, [] => ([], p)
  | p, t :: rest =>
    let answer := p.ask t.mentioned
    let later := linkedTypes answer.2 rest
    (if answer.1.isNone then t :: later.1 else later.1, later.2)

def dropBrokenSuperTypes (p : Pass) (d : DeclarationId) : Pass :=
  match p.forest.class? d with
  | none => p
  | some c =>
    let kept := p.linkedTypes c.superTypes
    kept.2.edit fun F => F.updateDeclaration d <| Declaration.mapClass fun c =>
      { c with superTypes := kept.1 }

/-- the problem of a class is raised by its first initializer -/
def breakClass (cx : Context) (p : Pass) (d : DeclarationId) (problem : Problem) : Pass :=
  let initializer := p.initializerOf d
  (initializer.2.raiseIn cx problem initializer.1).dropBrokenSuperTypes d

def repairClass (cx : Context) (p : Pass) (d : DeclarationId) (symbol : SymbolId)
    (c : ClassInfo) : Pass :=
  let bound := p.fixTypeParameters cx c.typeParameters
  let verdict := bound.2.ask [symbol]
  let p :=
    match classProblem d symbol verdict.1 bound.1 with
    | none => verdict.2
    | some problem => verdict.2.breakClass cx d problem
  p.implementMembers cx d

/-- whether the function was given a new body, and the pass afterwards -/
def repairFunction (cx : Context) (p : Pass) (d : DeclarationId) (x : Declaration) :
    Bool × Pass :=
  let fixed := (p.filterOverridden d).fixSignature cx d
  match functionProblem d x fixed.1 with
  | none => (false, fixed.2)
  | some problem => (true, fixed.2.raiseIn cx problem d)

/-- the nodes below `n`, unless the sweep stops there -/
def below (n : Node) (stopped : Bool) (p : Pass) : Pass × List Node :=
  (p, if stopped then [] else p.forest.children n)

def enterDeclaration (cx : Context) (p : Pass) (n : Node) : Pass × List Node :=
  match n with
  | .expression _ => p.below n false
  | .declaration d =>
    match p.forest.declaration? d with
    | none => (p, [])
    | some x =>
      match x.content with
      | .ofClass c => (p.repairClass cx d x.symbol c).below n false
      | .ofFunction _ =>
        let repaired := p.repairFunction cx d x
        repaired.2.below n repaired.1
      | .ofProperty _ => (p.filterOverridden d).below n false
      | .ofField _ | .ofVariable _ =>
        let fixed := p.fixValue cx d
        fixed.2.below n fixed.1.isSome
      | .ofParameter _ | .ofTypeParameter _ | .ofEnumEntry _ | .ofInitializer _ => p.below n false

/-- how deep a sweep can go.  In a forest whose parameter slots hold parameters, a path goes through
every node once at most, and then through what the sweep itself has put there: a member or
initializer, the call in its body, and the argument of the call.  That is `nodeCount + 4` levels.

A slot may also hold another declaration, such as a class.  An added member then gets a copy of it,
which lists the same members, so that a path goes through the copies, each below an added member,
and through all that was copied as well: three levels for every node.  It comes to a node once more
only if a repair of some node has changed the way in between, and a node has few such changes.  The
cube is above the product. -/
def sweepDepth (F : Forest) : Nat := Nat.pow (F.nodeCount + 4) 3

/-- the sweep has room for every node, and for what it puts below a path -/
theorem nodeCount_add_four_le_sweepDepth (F : Forest) : F.nodeCount + 4 ≤ sweepDepth F :=
  Nat.le_self_pow (by decide) _

def sweepDeclarations (cx : Context) (p : Pass) (root : Root) : Pass :=
  walkAll (enterDeclaration cx) (sweepDepth p.forest) p
    ((p.forest.rootDeclarations root).map .declaration)

end Pass

end LinkRepair
