import LinkRepair.Source.Span
import LinkRepair.Tree.TypeRef

/-!
# Declarations

A declaration has a symbol, a name, an origin, a parent link and a span, whatever it declares, and
a content that depends on its kind.

* `Content`         the nine kinds, each with what only it holds;
* `Origin`          whether a declaration was written by a user, stands in for one that is gone,
                    or implements an abstract member that nothing implements any more;
* `Statement`       what a body consists of.
-/

namespace LinkRepair

/-- where a declaration sits: directly in a file, or in another declaration -/
inductive Parent where
  | file (file : FileId)
  | declaration (declaration : DeclarationId)
deriving DecidableEq

inductive Origin where
  /-- written by a user -/
  | defined
  /-- the stand-in for a declaration that is gone -/
  | missing
  /-- the stand-in for an implementation that is gone -/
  | unimplemented
deriving DecidableEq

/-- whether a declaration stands in for another one -/
def Origin.isStandIn (o : Origin) : Bool := o != .defined

inductive Visibility where
  | publicAccess
  | protectedAccess
  | internalAccess
  | privateAccess
deriving DecidableEq

inductive Modality where
  | final
  | overridable
  | sealed
  | abstract
deriving DecidableEq

inductive ClassKind where
  | plain
  | interface
  | enumClass
  | enumEntry
  | annotationClass
  | object
deriving DecidableEq

/-- an item of a body: a local declaration, or an expression -/
inductive Statement where
  | declaration (declaration : DeclarationId)
  | expression (expression : ExpressionId)
deriving DecidableEq

/-! ## contents -/

structure ClassInfo where
  kind : ClassKind
  modality : Modality
  visibility : Visibility
  isInner : Bool
  isCompanion : Bool
  /-- an object expression, which has no name of its own -/
  isAnonymous : Bool
  superTypes : List TypeRef
  typeParameters : List DeclarationId
  /-- the members, in source order -/
  members : List DeclarationId

/-- a function, a constructor or an accessor of a property -/
structure FunctionInfo where
  modality : Modality
  visibility : Visibility
  typeParameters : List DeclarationId
  dispatchReceiver : Option DeclarationId
  extensionReceiver : Option DeclarationId
  valueParameters : List DeclarationId
  returnType : TypeRef
  body : Option (List Statement)
  overridden : List SymbolId
  /-- the property that an accessor belongs to -/
  property : Option SymbolId

structure PropertyInfo where
  modality : Modality
  visibility : Visibility
  isMutable : Bool
  field : Option DeclarationId
  getter : Option DeclarationId
  setter : Option DeclarationId
  overridden : List SymbolId

structure FieldInfo where
  visibility : Visibility
  type : TypeRef
  initializer : Option ExpressionId
  /-- the property that a backing field belongs to -/
  property : Option SymbolId

structure VariableInfo where
  isMutable : Bool
  type : TypeRef
  initializer : Option ExpressionId

structure ParameterInfo where
  type : TypeRef
  /-- the type of one element, for a parameter that takes any number of arguments -/
  element : Option TypeRef
  default : Option ExpressionId

structure TypeParameterInfo where
  bounds : List TypeRef

structure EnumEntryInfo where
  /-- the class of an entry that has a body -/
  class? : Option DeclarationId
  initializer : Option ExpressionId

inductive Content where
  | ofClass (info : ClassInfo)
  | ofFunction (info : FunctionInfo)
  | ofProperty (info : PropertyInfo)
  | ofField (info : FieldInfo)
  | ofVariable (info : VariableInfo)
  | ofParameter (info : ParameterInfo)
  | ofTypeParameter (info : TypeParameterInfo)
  | ofEnumEntry (info : EnumEntryInfo)
  | ofInitializer (body : List Statement)

namespace ClassInfo

/-- an empty final class -/
def blank : ClassInfo :=
  ⟨.plain, .final, .publicAccess, false, false, false, [], [], []⟩

/-- a class that makes sense only inside another one -/
def needsEnclosing (c : ClassInfo) : Bool := c.isInner || c.kind == .enumEntry

end ClassInfo

namespace FunctionInfo

/-- a public final function of the given type, without parameters and with an empty body -/
def returning (type : TypeRef) : FunctionInfo :=
  ⟨.final, .publicAccess, [], none, none, [], type, some [], [], none⟩

end FunctionInfo

def PropertyInfo.blank : PropertyInfo :=
  ⟨.final, .publicAccess, false, none, none, none, []⟩

/-- a parameter that takes one argument and has no default value -/
def ParameterInfo.ofType (type : TypeRef) : ParameterInfo := ⟨type, none, none⟩

structure Declaration where
  symbol : SymbolId
  name : String
  origin : Origin
  /-- nothing only while the declaration is being built -/
  parent : Option Parent
  span : Span
  content : Content

/-! ## views of a declaration -/

namespace Declaration

def class? (d : Declaration) : Option ClassInfo :=
  match d.content with
  | .ofClass info => some info
  | _ => none

def function? (d : Declaration) : Option FunctionInfo :=
  match d.content with
  | .ofFunction info => some info
  | _ => none

def property? (d : Declaration) : Option PropertyInfo :=
  match d.content with
  | .ofProperty info => some info
  | _ => none

def parameter? (d : Declaration) : Option ParameterInfo :=
  match d.content with
  | .ofParameter info => some info
  | _ => none

def typeParameter? (d : Declaration) : Option TypeParameterInfo :=
  match d.content with
  | .ofTypeParameter info => some info
  | _ => none

def isClass (d : Declaration) : Bool := d.class?.isSome

def isInitializer (d : Declaration) : Bool :=
  match d.content with
  | .ofInitializer _ => true
  | _ => false

def parentDeclaration? (d : Declaration) : Option DeclarationId :=
  match d.parent with
  | some (.declaration p) => some p
  | _ => none

/-- the declared visibility, for the kinds that have one -/
def visibility? (d : Declaration) : Option Visibility :=
  match d.content with
  | .ofClass info => some info.visibility
  | .ofFunction info => some info.visibility
  | .ofProperty info => some info.visibility
  | .ofField info => some info.visibility
  | _ => none

/-- the declared modality, for the kinds that have one -/
def modality? (d : Declaration) : Option Modality :=
  match d.content with
  | .ofClass info => some info.modality
  | .ofFunction info => some info.modality
  | .ofProperty info => some info.modality
  | _ => none

/-- what the declaration overrides; nothing for the kinds that override nothing -/
def overridden (d : Declaration) : List SymbolId :=
  match d.content with
  | .ofFunction info => info.overridden
  | .ofProperty info => info.overridden
  | _ => []

/-- the type of a declared value -/
def valueType? (d : Declaration) : Option TypeRef :=
  match d.content with
  | .ofField info => some info.type
  | .ofVariable info => some info.type
  | .ofParameter info => some info.type
  | _ => none

end Declaration

/-! ## edits of a declaration

Each edit changes the content of one kind and leaves a declaration of another kind as it is. -/

namespace Declaration

def mapClass (f : ClassInfo → ClassInfo) (d : Declaration) : Declaration :=
  match d.content with
  | .ofClass info => { d with content := .ofClass (f info) }
  | _ => d

def mapFunction (f : FunctionInfo → FunctionInfo) (d : Declaration) : Declaration :=
  match d.content with
  | .ofFunction info => { d with content := .ofFunction (f info) }
  | _ => d

def mapProperty (f : PropertyInfo → PropertyInfo) (d : Declaration) : Declaration :=
  match d.content with
  | .ofProperty info => { d with content := .ofProperty (f info) }
  | _ => d

def mapParameter (f : ParameterInfo → ParameterInfo) (d : Declaration) : Declaration :=
  match d.content with
  | .ofParameter info => { d with content := .ofParameter (f info) }
  | _ => d

def mapTypeParameter (f : TypeParameterInfo → TypeParameterInfo) (d : Declaration) :
    Declaration :=
  match d.content with
  | .ofTypeParameter info => { d with content := .ofTypeParameter (f info) }
  | _ => d

def withOverridden (symbols : List SymbolId) (d : Declaration) : Declaration :=
  match d.content with
  | .ofFunction info => { d with content := .ofFunction { info with overridden := symbols } }
  | .ofProperty info => { d with content := .ofProperty { info with overridden := symbols } }
  | _ => d

/-- a member put at the end of a class -/
def addMember (child : DeclarationId) : Declaration → Declaration :=
  mapClass fun c => { c with members := c.members ++ [child] }

/-- the statements that run, of a function or an initializer, replaced -/
def withBody (body : List Statement) (d : Declaration) : Declaration :=
  match d.content with
  | .ofFunction info => { d with content := .ofFunction { info with body := some body } }
  | .ofInitializer _ => { d with content := .ofInitializer body }
  | _ => d

section
variable (d : Declaration)

theorem mapClass_symbol (f : ClassInfo → ClassInfo) : (d.mapClass f).symbol = d.symbol := by
  unfold mapClass; split <;> rfl

theorem mapClass_parent (f : ClassInfo → ClassInfo) : (d.mapClass f).parent = d.parent := by
  unfold mapClass; split <;> rfl

theorem class?_mapClass (f : ClassInfo → ClassInfo) : (d.mapClass f).class? = d.class?.map f := by
  obtain ⟨_, _, _, _, _, content⟩ := d
  cases content <;> rfl

theorem function?_mapFunction (f : FunctionInfo → FunctionInfo) :
    (d.mapFunction f).function? = d.function?.map f := by
  obtain ⟨_, _, _, _, _, content⟩ := d
  cases content <;> rfl

theorem withBody_symbol (body : List Statement) : (d.withBody body).symbol = d.symbol := by
  unfold withBody; split <;> rfl

theorem withOverridden_symbol (symbols : List SymbolId) :
    (d.withOverridden symbols).symbol = d.symbol := by
  unfold withOverridden; split <;> rfl

end

end Declaration

end LinkRepair
