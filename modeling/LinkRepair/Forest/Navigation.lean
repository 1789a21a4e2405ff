import LinkRepair.Forest.Basic

/-!
# Moving about in a forest

* `Forest.children`          the nodes directly below a node, in tree order;
* `Forest.preorder`          the nodes of a subtree, each before those below it;
* `Forest.lineage`           a declaration and those around it, innermost first;
* `Forest.fileOf`            the file that a lineage ends in;
* `Forest.qualifiedName`     the names of a lineage as one dotted name;
* `Forest.enclosingClass`    the class around a class.

Both kinds of walk carry a bound on their length.  The bounds that the library uses are the sizes
of the stores, and a path that does not repeat a node is never longer.
-/

namespace LinkRepair

/-- the nodes directly below a declaration with this content -/
def Content.children : Content → List Node
  | .ofClass c => (c.typeParameters ++ c.members).map .declaration
  | .ofFunction f =>
    (f.typeParameters ++ f.dispatchReceiver.toList ++ f.extensionReceiver.toList
      ++ f.valueParameters).map .declaration ++ (f.body.getD []).map Statement.node
  | .ofProperty p => (p.field.toList ++ p.getter.toList ++ p.setter.toList).map .declaration
  | .ofField f => f.initializer.toList.map .expression
  | .ofVariable v => v.initializer.toList.map .expression
  | .ofParameter p => p.default.toList.map .expression
  | .ofTypeParameter _ => []
  | .ofEnumEntry e => e.class?.toList.map .declaration ++ e.initializer.toList.map .expression
  | .ofInitializer body => body.map Statement.node

/-- a root of a walk: a file stands for its declarations at top level -/
inductive Root where
  | file (file : FileId)
  | declaration (declaration : DeclarationId)
deriving DecidableEq

namespace Forest

/-! ## downwards -/

def children (F : Forest) : Node → List Node
  | .declaration d =>
    match F.declaration? d with
    | none => []
    | some x => x.content.children
  | .expression e =>
    match F.expression? e with
    | none => []
    | some x => x.operation.children

/-- the declarations that a root stands for -/
def rootDeclarations (F : Forest) : Root → List DeclarationId
  | .file f =>
    match F.file? f with
    | none => []
    | some x => x.declarations
  | .declaration d => [d]

/-- the nodes at most `depth` levels deep, the node itself being the first level -/
def preorder (F : Forest) : Nat → Node → List Node
  | 0, _ => []
  | depth + 1, n => n :: (F.children n).flatMap (F.preorder depth)

/-- every node under a list of roots -/
def nodesUnder (F : Forest) (roots : List Root) : List Node :=
  (roots.flatMap F.rootDeclarations).flatMap fun d => F.preorder F.nodeCount (.declaration d)

theorem preorder_succ (F : Forest) (depth : Nat) (n : Node) :
    F.preorder (depth + 1) n = n :: (F.children n).flatMap (F.preorder depth) := rfl

/-! ## upwards -/

/-- the declaration that a parent link points at, if it points at one -/
def parentDeclaration? (F : Forest) (d : DeclarationId) : Option DeclarationId :=
  (F.declaration? d).bind Declaration.parentDeclaration?

/-- a lineage of at most `bound` declarations -/
def lineageWithin (F : Forest) : Nat → DeclarationId → List DeclarationId
  | 0, _ => []
  | bound + 1, d =>
    match F.declaration? d with
    | none => []
    | some x =>
      d :: match x.parentDeclaration? with
        | none => []
        | some p => F.lineageWithin bound p

def lineage (F : Forest) (d : DeclarationId) : List DeclarationId :=
  F.lineageWithin F.declarations.size d

/-- the file around a declaration; nothing if a parent link is missing on the way up -/
def fileOf (F : Forest) (d : DeclarationId) : Option FileId :=
  match ((F.lineage d).getLast?.bind F.declaration?).bind Declaration.parent with
  | some (.file f) => some f
  | _ => none

/-- the dotted name of `name` inside `parent` -/
def qualifiedName (F : Forest) (parent : Parent) (name : String) : String :=
  match parent with
  | .file _ => dottedName [name]
  | .declaration d => dottedName ((F.lineage d).reverse.map F.nameOf ++ [name])

/-- the class around a class, through the enum entry that owns the body of an entry -/
def enclosingClass (F : Forest) (d : DeclarationId) : Option DeclarationId :=
  (F.parentDeclaration? d).bind fun p =>
    (F.declaration? p).bind fun x =>
      match x.content with
      | .ofClass _ => some p
      | .ofEnumEntry _ =>
        (F.parentDeclaration? p).filter fun q => (F.declaration? q).any Declaration.isClass
      | _ => none

theorem lineageWithin_of_file {F : Forest} {d : DeclarationId} {x : Declaration} {f : FileId}
    (n : Nat) (hx : F.declaration? d = some x) (hp : x.parent = some (.file f)) :
    F.lineageWithin (n + 1) d = [d] := by
  simp [lineageWithin, hx, Declaration.parentDeclaration?, hp]

theorem lineageWithin_of_parent {F : Forest} {d p : DeclarationId} {x : Declaration}
    (n : Nat) (hx : F.declaration? d = some x) (hp : x.parent = some (.declaration p)) :
    F.lineageWithin (n + 1) d = d :: F.lineageWithin n p := by
  simp [lineageWithin, hx, Declaration.parentDeclaration?, hp]

end Forest

end LinkRepair
