import LinkRepair.Forest.Navigation

/-!
# Construction of forests

The operations by which a forest is built.  Each allocates what it makes, binds the symbols, sets
the parent links, and returns the handle with the forest.

* `Forest.declare`        a declaration with a signature, listed in its file or class;
* `Forest.declareLocal`   a declaration without one, which its owner holds in a slot of its own;
* the other operations    the kinds of declarations, made by these two.

A signature is made of the current package and the names of the declarations around.  The accessor
of a property has the property's signature and one of its own.
-/

namespace LinkRepair

/-- the name of the receiver parameters -/
def receiverName : String := "<this>"

/-- the name of the constructors -/
def constructorName : String := "<init>"

/-- the name of the initializers that have none of their own -/
def initializerName : String := "<anonymous-init>"

def getterName (property : String) : String := "<get-" ++ property ++ ">"

/-- a type parameter put at the end of those of a class or a function -/
def Declaration.addTypeParameter (p : DeclarationId) (d : Declaration) : Declaration :=
  (d.mapClass fun c => { c with typeParameters := c.typeParameters ++ [p] }).mapFunction
    fun f => { f with typeParameters := f.typeParameters ++ [p] }

namespace Forest

/-- a file with the line table of its text -/
def newFile (F : Forest) (package path source : String) : FileId × Forest :=
  F.addFile ⟨path, .ofText source, package, []⟩

def declare (F : Forest) (package : String) (parent : Parent) (kind : SymbolKind) (name : String)
    (origin : Origin) (content : Content) : DeclarationId × Forest :=
  let symbol := F.addSymbol kind (some (.plain package (F.qualifiedName parent name)))
  let made := symbol.2.addDeclaration ⟨symbol.1, name, origin, some parent, .undefined, content⟩
  (made.1, made.2.attach parent made.1)

def declareLocal (F : Forest) (owner : DeclarationId) (kind : SymbolKind) (name : String)
    (content : Content) : DeclarationId × Forest :=
  let symbol := F.addSymbol kind none
  symbol.2.addDeclaration
    ⟨symbol.1, name, .defined, some (.declaration owner), .undefined, content⟩

/-- the type that names a class on its own -/
def typeOf (F : Forest) (d : DeclarationId) : Option TypeRef :=
  (F.declaration? d).map fun x => .simple x.symbol

/-! ## classes -/

def newClass (F : Forest) (package : String) (parent : Parent) (name : String)
    (kind : ClassKind) : DeclarationId × Forest :=
  let modality := if kind = .interface then .abstract else .final
  F.declare package parent .classLike name .defined
    (.ofClass { ClassInfo.blank with kind := kind, modality := modality })

def addSuperType (F : Forest) (d : DeclarationId) (type : TypeRef) : Forest :=
  F.updateDeclaration d <| Declaration.mapClass fun c =>
    { c with superTypes := c.superTypes ++ [type] }

def newEnumEntry (F : Forest) (package : String) (enumClass : DeclarationId) (name : String) :
    DeclarationId × Forest :=
  F.declare package (.declaration enumClass) .enumEntry name .defined (.ofEnumEntry ⟨none, none⟩)

/-- an initializer without statements, the last member of its class and at the class's place -/
def newInitializer (F : Forest) (owner : DeclarationId) (origin : Origin) :
    DeclarationId × Forest :=
  let span := ((F.declaration? owner).map Declaration.span).getD .undefined
  let symbol := F.addSymbol .anonymousInitializer none
  let made := symbol.2.addDeclaration
    ⟨symbol.1, initializerName, origin, none, span, .ofInitializer []⟩
  (made.1, made.2.attach (.declaration owner) made.1)

/-! ## functions -/

def newFunction (F : Forest) (package : String) (parent : Parent) (name : String)
    (type : TypeRef) : DeclarationId × Forest :=
  F.declare package parent .function name .defined (.ofFunction (.returning type))

/-- the constructor of a class, whose type is the class -/
def newConstructor (F : Forest) (package : String) (owner : DeclarationId) (type : TypeRef) :
    DeclarationId × Forest :=
  F.declare package (.declaration owner) .constructor constructorName .defined
    (.ofFunction (.returning type))

/-- the stand-in for a declaration that is gone -/
def newStandIn (F : Forest) (package : String) (parent : Parent) (kind : SymbolKind)
    (name : String) (type : TypeRef) : DeclarationId × Forest :=
  F.declare package parent kind name .missing
    (.ofFunction { FunctionInfo.returning type with body := none })

def newValueParameter (F : Forest) (function : DeclarationId) (name : String) (type : TypeRef) :
    DeclarationId × Forest :=
  let made := F.declareLocal function .valueParameter name (.ofParameter (.ofType type))
  (made.1, made.2.updateDeclaration function <| Declaration.mapFunction fun f =>
    { f with valueParameters := f.valueParameters ++ [made.1] })

def newExtensionReceiver (F : Forest) (function : DeclarationId) (type : TypeRef) :
    DeclarationId × Forest :=
  let made := F.declareLocal function .valueParameter receiverName (.ofParameter (.ofType type))
  (made.1, made.2.updateDeclaration function <| Declaration.mapFunction fun f =>
    { f with extensionReceiver := some made.1 })

def newDispatchReceiver (F : Forest) (function : DeclarationId) (type : TypeRef) :
    DeclarationId × Forest :=
  let made := F.declareLocal function .valueParameter receiverName (.ofParameter (.ofType type))
  (made.1, made.2.updateDeclaration function <| Declaration.mapFunction fun f =>
    { f with dispatchReceiver := some made.1 })

/-- a type parameter of a class or a function -/
def newTypeParameter (F : Forest) (owner : DeclarationId) (name : String)
    (bounds : List TypeRef) : DeclarationId × Forest :=
  let made := F.declareLocal owner .typeParameter name (.ofTypeParameter ⟨bounds⟩)
  (made.1, made.2.updateDeclaration owner (Declaration.addTypeParameter made.1))

/-- a local variable, which a statement of a body has to hold -/
def newLocalVariable (F : Forest) (function : DeclarationId) (name : String) (type : TypeRef)
    (initializer : Option ExpressionId) : DeclarationId × Forest :=
  F.declareLocal function .localVariable name (.ofVariable ⟨false, type, initializer⟩)

/-- the body of a function replaced -/
def setBody (F : Forest) (function : DeclarationId) (body : List Statement) : Forest :=
  F.updateDeclaration function <| Declaration.mapFunction fun f => { f with body := some body }

/-! ## properties -/

def newField (F : Forest) (package : String) (parent : Parent) (name : String)
    (type : TypeRef) : DeclarationId × Forest :=
  F.declare package parent .field name .defined (.ofField ⟨.privateAccess, type, none, none⟩)

/-- the field behind a property -/
def newBackingField (F : Forest) (owner : DeclarationId) (property : SymbolId) (name : String)
    (type : TypeRef) : DeclarationId × Forest :=
  F.declareLocal owner .field name (.ofField ⟨.privateAccess, type, none, some property⟩)

/-- the function that reads a property -/
def newGetter (F : Forest) (package : String) (owner : DeclarationId) (property : SymbolId)
    (name : String) (type : TypeRef) : DeclarationId × Forest :=
  let own := Signature.plain package (F.qualifiedName (.declaration owner) (getterName name))
  let signature := ((F.symbol? property).bind Symbol.signature).map fun s => .accessor s own
  let symbol := F.addSymbol .function signature
  symbol.2.addDeclaration
    ⟨symbol.1, getterName name, .defined, some (.declaration owner), .undefined,
      .ofFunction { FunctionInfo.returning type with property := some property }⟩

/-- a property with a field and a getter -/
def newProperty (F : Forest) (package : String) (parent : Parent) (name : String)
    (type : TypeRef) (isMutable : Bool) : DeclarationId × Forest :=
  let symbol : SymbolId := ⟨F.symbols.size⟩
  let made := F.declare package parent .property name .defined
    (.ofProperty { PropertyInfo.blank with isMutable := isMutable })
  let field := made.2.newBackingField made.1 symbol name type
  let getter := field.2.newGetter package made.1 symbol name type
  (made.1, getter.2.updateDeclaration made.1 <| Declaration.mapProperty fun p =>
    { p with field := some field.1, getter := some getter.1 })

/-! ## symbols and expressions -/

/-- a symbol of a declaration that no linked library provides -/
def newMissingSymbol (F : Forest) (package : String) (kind : SymbolKind) (name : String) :
    SymbolId × Forest :=
  F.addSymbol kind (some (.plain package name))

def newExpression (F : Forest) (operation : Operation) (type : TypeRef) :
    ExpressionId × Forest :=
  F.addExpression ⟨operation, type, .undefined, false⟩

/-- what is declared is the next declaration -/
theorem declare_fst (F : Forest) (package : String) (parent : Parent) (kind : SymbolKind)
    (name : String) (origin : Origin) (content : Content) :
    (F.declare package parent kind name origin content).1 = ⟨F.declarations.size⟩ := rfl

end Forest

end LinkRepair
