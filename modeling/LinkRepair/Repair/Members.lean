import LinkRepair.Repair.Signature
import LinkRepair.Walk

/-!
# Abstract members without an implementation

A class that can be instantiated has to implement every abstract function that it inherits.  Those
that it does not implement are added to it, with a body that raises a linkage error.

* `Forest.ancestors`          the classes above a class, nearest first;
* `Forest.memberFunctions`    the plain functions among the members of a class;
* `Forest.overrideClosure`    what some functions override, over any number of steps;
* `Forest.unimplemented`      the inherited abstract functions that a class has to be given;
* `Forest.copyMember`         a function copied into another class, type parameters included;
* `Pass.implementMembers`     a class, after the classes above it, is given what it lacks.

A function counts as implemented when a function of the class or of an ancestor overrides it, or
has its name and its number of parameters and is not abstract: the overriding links of an old
library may be stale.
-/

namespace LinkRepair

namespace Forest

/-! ## ancestors -/

/-- the class that a symbol stands for, if it is one that can be inherited from -/
def classOf? (F : Forest) (s : SymbolId) : Option DeclarationId :=
  if F.isMissing s then none
  else (F.owner? s).filter fun d => (F.declaration? d).any Declaration.isClass

/-- the classes directly above a class, in the order of its super types; a marker is none -/
def bases (F : Forest) (d : DeclarationId) : List DeclarationId :=
  match F.class? d with
  | none => []
  | some c => (c.superTypes.filterMap TypeRef.head?).filterMap F.classOf?

/-- those of a list that are neither `d` nor among `found`, each once -/
def freshOnes (d : DeclarationId) (found bases : List DeclarationId) : List DeclarationId :=
  (bases.filter fun b => b != d && !found.contains b).eraseDups

/-- breadth-first search: `queue` lists the classes whose bases are still to be looked at -/
def ancestorsWithin (F : Forest) (d : DeclarationId) :
    Nat → List DeclarationId → List DeclarationId → List DeclarationId
  | 0, _, found => found
  | _ + 1, [], found => found
  | bound + 1, c :: queue, found =>
    let fresh := freshOnes d found (F.bases c)
    F.ancestorsWithin d bound (queue ++ fresh) (found ++ fresh)

/-- every class is looked at once at most, which gives the bound -/
def ancestors (F : Forest) (d : DeclarationId) : List DeclarationId :=
  F.ancestorsWithin d (F.declarations.size + 1) [d] []

theorem mem_freshOnes {d b : DeclarationId} {found bases : List DeclarationId} :
    b ∈ freshOnes d found bases ↔ b ∈ bases ∧ b ≠ d ∧ b ∉ found := by
  simp [freshOnes]

/-! ## what is implemented -/

/-- written by a user, instantiable, and not open-ended -/
def isConcrete (F : Forest) (d : DeclarationId) : Bool :=
  match F.declaration? d with
  | none => false
  | some x =>
    match x.class? with
    | none => false
    | some c =>
      x.origin == .defined
        && (c.kind == .plain || c.kind == .object || c.kind == .enumEntry)
        && (c.modality == .final || c.modality == .overridable)

/-- a function that is neither a constructor nor an accessor -/
def isPlainFunction (F : Forest) (d : DeclarationId) : Bool :=
  match F.declaration? d with
  | none => false
  | some x =>
    (F.symbol? x.symbol).any (fun s => s.kind == .function)
      && x.function?.any fun f => f.property.isNone

def memberFunctions (F : Forest) (d : DeclarationId) : List DeclarationId :=
  match F.class? d with
  | none => []
  | some c => c.members.filter F.isPlainFunction

def isAbstract (F : Forest) (d : DeclarationId) : Bool :=
  (F.declaration? d).bind Declaration.modality? == some .abstract

/-- the name and the number of parameters of a function -/
def callKey (F : Forest) (d : DeclarationId) : String × Nat :=
  (F.nameOf d, match F.function? d with
    | none => 0
    | some f => f.valueParameters.length)

/-- what a declaration overrides -/
def overriddenBy (F : Forest) (d : DeclarationId) : List SymbolId :=
  match F.declaration? d with
  | none => []
  | some x => x.overridden

/-- meets an overridden symbol: what its owner overrides comes next, unless it was met before -/
def meetOverridden (F : Forest) (met : List SymbolId) (s : SymbolId) :
    List SymbolId × List SymbolId :=
  if s ∈ met then (met, [])
  else (s :: met, match F.owner? s with
    | none => []
    | some d => F.overriddenBy d)

def overrideClosure (F : Forest) (functions : List DeclarationId) : List SymbolId :=
  walkAll F.meetOverridden (F.symbols.size + 1) [] (functions.flatMap F.overriddenBy)

/-- the abstract functions of the ancestors that nothing implements, in the order of the
ancestors -/
def unimplemented (F : Forest) (d : DeclarationId) (ancestors : List DeclarationId) :
    List DeclarationId :=
  let present := (d :: ancestors).flatMap F.memberFunctions
  let overridden := F.overrideClosure present
  let implemented := (present.filter fun m => !F.isAbstract m).map F.callKey
  (ancestors.flatMap F.memberFunctions).filter fun m =>
    F.isAbstract m && (F.declaration? m).any (fun x =>
      x.origin == .defined && !overridden.contains x.symbol)
      && !implemented.contains (F.callKey m)

/-! ## copies of functions -/

/-- the symbols of type parameters with those of their copies; the latest pair of a symbol counts -/
abbrev Renaming := List (SymbolId × SymbolId)

def Renaming.apply (r : Renaming) (s : SymbolId) : SymbolId := (r.lookup s).getD s

theorem Renaming.apply_nil (s : SymbolId) : Renaming.apply [] s = s := rfl

/-- one type parameter copied under `function`, its bounds as they are -/
def copyTypeParameter (F : Forest) (function d : DeclarationId) :
    (Renaming × List DeclarationId) × Forest :=
  match F.declaration? d with
  | none => (([], []), F)
  | some x =>
    let symbol := F.addSymbol .typeParameter none
    let made := symbol.2.addDeclaration
      { x with symbol := symbol.1, parent := some (.declaration function) }
    (([(x.symbol, symbol.1)], [made.1]), made.2)

def copyTypeParameters (function : DeclarationId) :
    Forest → List DeclarationId → (Renaming × List DeclarationId) × Forest
  | F, [] => (([], []), F)
  | F, d :: rest =>
    let first := F.copyTypeParameter function d
    let later := copyTypeParameters function first.2 rest
    ((later.1.1 ++ first.1.1, first.1.2 ++ later.1.2), later.2)

/-- the bounds of copied type parameters, in terms of the copies -/
def renameBounds (r : Renaming) (F : Forest) (copies : List DeclarationId) : Forest :=
  copies.foldl (fun F d => F.updateDeclaration d <| Declaration.mapTypeParameter fun p =>
    ⟨p.bounds.map (TypeRef.rename r.apply)⟩) F

/-- the content of a copied parameter: its types renamed, and no default value -/
def renamedParameter (r : Renaming) : Content → Content
  | .ofParameter p =>
    .ofParameter ⟨p.type.rename r.apply, p.element.map (TypeRef.rename r.apply), none⟩
  | content => content

/-- one value parameter copied under `function` -/
def copyParameter (r : Renaming) (function : DeclarationId) (F : Forest) (d : DeclarationId) :
    List DeclarationId × Forest :=
  match F.declaration? d with
  | none => ([], F)
  | some x =>
    let symbol := F.addSymbol .valueParameter none
    let made := symbol.2.addDeclaration
      ⟨symbol.1, x.name, .defined, some (.declaration function), x.span,
        renamedParameter r x.content⟩
    ([made.1], made.2)

def copyParameters (r : Renaming) (function : DeclarationId) :
    Forest → List DeclarationId → List DeclarationId × Forest
  | F, [] => ([], F)
  | F, d :: rest =>
    let first := copyParameter r function F d
    let later := copyParameters r function first.2 rest
    (first.1 ++ later.1, later.2)

/-- the signature of a member of a class that has a signature of its own -/
def memberSignature (F : Forest) (owner : Declaration) (name : String) : Option Signature :=
  match (F.symbol? owner.symbol).bind Symbol.signature with
  | some (.declared package declaration _) => some (.plain package (declaration ++ "." ++ name))
  | _ => none

/-- the copy of a function before it has parameters -/
def emptyCopy (f : FunctionInfo) (overridden : SymbolId) : FunctionInfo :=
  { FunctionInfo.returning f.returnType with
    modality := .overridable
    visibility := f.visibility
    body := none
    overridden := [overridden] }

/-- the receiver of a member of a class, which has the type of the class -/
def newOwnReceiver (F : Forest) (owner : Declaration) (function : DeclarationId) :
    DeclarationId × Forest :=
  let symbol := F.addSymbol .valueParameter none
  symbol.2.addDeclaration
    ⟨symbol.1, receiverName, .defined, some (.declaration function), owner.span,
      .ofParameter (.ofType (.simple owner.symbol))⟩

/-- the parameters of `f` copied under `function`, a member of `owner` -/
def copySignature (F : Forest) (owner : Declaration) (f : FunctionInfo)
    (function : DeclarationId) : Forest :=
  let types := copyTypeParameters function F f.typeParameters
  let F := renameBounds types.1.1 types.2 types.1.2
  let extension := copyParameters types.1.1 function F f.extensionReceiver.toList
  let parameters := copyParameters types.1.1 function extension.2 f.valueParameters
  let dispatch := parameters.2.newOwnReceiver owner function
  dispatch.2.updateDeclaration function <| Declaration.mapFunction fun g =>
    { g with
      returnType := g.returnType.rename (Renaming.apply types.1.1)
      typeParameters := types.1.2
      extensionReceiver := extension.1.head?
      valueParameters := parameters.1
      dispatchReceiver := some dispatch.1 }

/-- a new member of the class `d` with the signature of the function `m`, which it overrides.  It
has no body yet, and comes last among the members. -/
def copyMember (F : Forest) (d m : DeclarationId) : DeclarationId × Forest :=
  match F.declaration? d, F.declaration? m, F.function? m with
  | some owner, some source, some f =>
    let symbol := F.addSymbol .function (F.memberSignature owner source.name)
    let made := symbol.2.addDeclaration
      ⟨symbol.1, source.name, .unimplemented, none, owner.span,
        .ofFunction (emptyCopy f source.symbol)⟩
    (made.1, (made.2.attach (.declaration d) made.1).copySignature owner f made.1)
  | _, _, _ => (m, F)

end Forest

/-! ## the repair -/

namespace Pass

/-- one member added to a class, with a body that raises a linkage error -/
def addMember (cx : Context) (d : DeclarationId) (p : Pass) (m : DeclarationId) : Pass :=
  let made := p.forest.copyMember d m
  { p with forest := made.2 }.raiseIn cx (.unimplementedMember made.1) made.1

/-- at most `bound` classes one above the other; a class is examined once only -/
def implementWithin (cx : Context) : Nat → Pass → DeclarationId → Pass
  | 0, p, _ => p
  | bound + 1, p, d =>
    if d ∈ p.examined then p
    else
      let p := { p with examined := d :: p.examined }
      if p.forest.isConcrete d then
        let ancestors := p.forest.ancestors d
        let p := ancestors.foldl (implementWithin cx bound) p
        (p.forest.unimplemented d ancestors).foldl (addMember cx d) p
      else p

def implementMembers (cx : Context) (p : Pass) (d : DeclarationId) : Pass :=
  implementWithin cx (p.forest.declarations.size + 1) p d

theorem implementWithin_of_examined (cx : Context) (bound : Nat) {p : Pass} {d : DeclarationId}
    (h : d ∈ p.examined) : implementWithin cx bound p d = p := by
  cases bound with
  | zero => rfl
  | succ bound => simp [implementWithin, h]

end Pass

end LinkRepair
