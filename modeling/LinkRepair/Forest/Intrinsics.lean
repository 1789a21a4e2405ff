import LinkRepair.Forest.Construction

/-!
# Intrinsic declarations

Every linked forest holds a file of declarations that the language itself relies on: the top and
bottom types, strings, the unit type, and the function that raises a linkage error.

* `Forest.installIntrinsics`     the file added to a forest, with handles to its contents;
* `Intrinsics.linkageErrorCall`  the call that raises a linkage error with a message;
* `Intrinsics.markerType`        the stand-in for a type that a classifier broke.
-/

namespace LinkRepair

structure Intrinsics where
  file : FileId
  /-- the top type -/
  any : SymbolId
  /-- the bottom type -/
  nothing : SymbolId
  string : SymbolId
  unit : SymbolId
  /-- the function that raises a linkage error with the message that it is given -/
  linkageError : SymbolId
deriving DecidableEq

/-- the package of the intrinsic declarations -/
def intrinsicPackage : String := "builtins"

def linkageErrorName : String := "throwLinkageError"

namespace Forest

/-- an intrinsic declaration at top level -/
def addIntrinsic (F : Forest) (file : FileId) (kind : SymbolKind) (name : String)
    (content : Content) : (SymbolId × DeclarationId) × Forest :=
  let symbol := F.addSymbol kind (some (.plain intrinsicPackage name))
  let made := symbol.2.addDeclaration ⟨symbol.1, name, .defined, none, .undefined, content⟩
  ((symbol.1, made.1), made.2.attach (.file file) made.1)

def addIntrinsicClass (F : Forest) (file : FileId) (name : String) (modality : Modality) :
    SymbolId × Forest :=
  let made := F.addIntrinsic file .classLike name
    (.ofClass { ClassInfo.blank with modality := modality })
  (made.1.1, made.2)

def installIntrinsics (F : Forest) : Intrinsics × Forest :=
  let file := F.newFile intrinsicPackage "<builtins>" ""
  let any := file.2.addIntrinsicClass file.1 "Any" .overridable
  let nothing := any.2.addIntrinsicClass file.1 "Nothing" .final
  let string := nothing.2.addIntrinsicClass file.1 "String" .final
  let unit := string.2.addIntrinsicClass file.1 "Unit" .final
  let raise := unit.2.addIntrinsic file.1 .function linkageErrorName
    (.ofFunction { FunctionInfo.returning (.simple nothing.1) with body := none })
  let message := raise.2.newValueParameter raise.1.2 "message" (.simple string.1)
  (⟨file.1, any.1, nothing.1, string.1, unit.1, raise.1.1⟩, message.2)

/-- the roots of what is linked: every file but the intrinsic one -/
def userRoots (F : Forest) (I : Intrinsics) : List Root :=
  (F.fileIds.filter fun f => f != I.file).map Root.file

end Forest

namespace Intrinsics

def anyType (I : Intrinsics) : TypeRef := .simple I.any

def nothingType (I : Intrinsics) : TypeRef := .simple I.nothing

def stringType (I : Intrinsics) : TypeRef := .simple I.string

def unitType (I : Intrinsics) : TypeRef := .simple I.unit

def markerType (I : Intrinsics) (unlinked : SymbolId) : TypeRef := .marker I.any unlinked

/-- the text that a linkage error carries, as an expression -/
def messageArgument (I : Intrinsics) (span : Span) (message : String) : Expression :=
  ⟨.constant (.text message), I.stringType, span, false⟩

/-- a call of the intrinsic function whose argument is the given expression -/
def callWith (I : Intrinsics) (span : Span) (argument : ExpressionId) : Expression :=
  ⟨.call ⟨I.linkageError, [], none, none, [some argument]⟩ none, I.nothingType, span, true⟩

/-- the call that raises a linkage error; its argument is allocated, the call itself is not, so
that it can take the place of another expression -/
def linkageErrorCall (I : Intrinsics) (F : Forest) (span : Span) (message : String) :
    Expression × Forest :=
  let argument := F.addExpression (I.messageArgument span message)
  (I.callWith span argument.1, argument.2)

/-- whether an expression calls the intrinsic function -/
def isLinkageErrorCall (I : Intrinsics) (e : Expression) : Bool :=
  match e.operation with
  | .call access _ => access.symbol == I.linkageError
  | _ => false

theorem isLinkageErrorCall_callWith (I : Intrinsics) (span : Span) (argument : ExpressionId) :
    I.isLinkageErrorCall (I.callWith span argument) = true := by
  simp [isLinkageErrorCall, callWith]

end Intrinsics

/-- the intrinsic symbols are the next five, in the order of allocation -/
theorem fst_installIntrinsics (F : Forest) :
    F.installIntrinsics.1 = ⟨⟨F.files.size⟩, ⟨F.symbols.size⟩, ⟨F.symbols.size + 1⟩,
      ⟨F.symbols.size + 2⟩, ⟨F.symbols.size + 3⟩, ⟨F.symbols.size + 4⟩⟩ := by
  simp [Forest.installIntrinsics, Forest.addIntrinsicClass, Forest.addIntrinsic, Forest.newFile,
    Forest.addFile, Forest.addSymbol, Forest.addDeclaration, Forest.updateSymbol, Forest.attach,
    Forest.updateDeclaration, Forest.updateFile]

end LinkRepair
