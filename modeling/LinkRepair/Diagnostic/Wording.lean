import LinkRepair.Diagnostic.Problem
import LinkRepair.Forest.Navigation

/-!
# The wording of problems

Messages call declarations what a user would call them in source code.  What is not known is named
by a placeholder, so every problem has a message.

* `DeclarationNoun`        what a declaration is called;
* `ExpressionPhrase`       what an expression does with the declaration it refers to;
* `Forest.noun`            the noun of a symbol, by its owner or else by its kind;
* `Forest.causeText`       the wording of a cause;
* `Forest.problemText`     the wording of a problem.
-/

namespace LinkRepair

inductive DeclarationNoun where
  | plainClass
  | interface
  | enumClass
  | enumEntry
  | annotationClass
  | object
  | anonymousObject
  | companionObject
  | mutableVariable
  | immutableVariable
  | valueParameter
  | field
  | backingField
  | property
  | accessor
  | function
  | constructor
  | other
deriving DecidableEq

def DeclarationNoun.text : DeclarationNoun → String
  | .plainClass => "class"
  | .interface => "interface"
  | .enumClass => "enum class"
  | .enumEntry => "enum entry"
  | .annotationClass => "annotation class"
  | .object => "object"
  | .anonymousObject => "anonymous object"
  | .companionObject => "companion object"
  | .mutableVariable => "var"
  | .immutableVariable => "val"
  | .valueParameter => "value parameter"
  | .field => "field"
  | .backingField => "backing field of property"
  | .property => "property"
  | .accessor => "property accessor"
  | .function => "function"
  | .constructor => "constructor"
  | .other => "declaration"

inductive ExpressionPhrase where
  | reference
  | calling
  | initialization
  | reading
  | writing
  | gettingInstance
  | other
deriving DecidableEq

namespace ExpressionPhrase

/-- the words in front, for the phrases that have some -/
def opening : ExpressionPhrase → Option String
  | .reference => some "reference to"
  | .initialization => some "instance initializer of"
  | .other => some "expression"
  | .calling | .reading | .writing | .gettingInstance => none

/-- the participle after "can not be" -/
def participle : ExpressionPhrase → String
  | .reference | .other => "evaluated"
  | .calling | .initialization => "called"
  | .reading => "read"
  | .writing => "written"
  | .gettingInstance => "gotten"

end ExpressionPhrase

/-- the phrase of an operation, and the symbol it refers to, if it refers to one -/
def Operation.phrase : Operation → ExpressionPhrase × Option SymbolId
  | .functionReference access | .propertyReference access .. => (.reference, some access.symbol)
  | .classReference symbol _ => (.reference, some symbol)
  | .call access _ | .construction _ access => (.calling, some access.symbol)
  | .readField symbol _ | .readValue symbol => (.reading, some symbol)
  | .writeField symbol _ _ | .writeValue symbol _ => (.writing, some symbol)
  | .objectInstance symbol | .enumInstance symbol => (.gettingInstance, some symbol)
  | .initialization symbol => (.initialization, some symbol)
  | .constant _ | .block .. | .exit .. | .typeOperation .. | .variadic .. | .choice _
  | .raise _ => (.other, none)

/-! ## nouns -/

/-- what a class is called -/
def ClassInfo.noun (c : ClassInfo) : DeclarationNoun :=
  match c.kind with
  | .plain => if c.isAnonymous then .anonymousObject else .plainClass
  | .interface => .interface
  | .enumClass => .enumClass
  | .enumEntry => .enumEntry
  | .annotationClass => .annotationClass
  | .object => if c.isCompanion then .companionObject else .object

/-- what a declaration behind a symbol of the given kind is called -/
def declarationNoun (kind : SymbolKind) (signature : Option Signature) (x : Option Declaration) :
    DeclarationNoun :=
  match kind with
  | .classLike =>
    match x.bind Declaration.class? with
    | none => .plainClass
    | some c => c.noun
  | .enumEntry => .enumEntry
  | .localVariable =>
    match x.map Declaration.content with
    | some (.ofVariable v) => if v.isMutable then .mutableVariable else .immutableVariable
    | _ => .immutableVariable
  | .valueParameter => .valueParameter
  | .field =>
    match x.map Declaration.content with
    | some (.ofField f) => if f.property.isSome then .backingField else .field
    | _ => .field
  | .property => .property
  | .function =>
    let isAccessor :=
      match x.bind Declaration.function? with
      | some f => f.property.isSome
      | none => signature.any Signature.isAccessor
    if isAccessor then .accessor else .function
  | .constructor => .constructor
  | .typeParameter | .anonymousInitializer => .other

def unknownName : String := "<unknown name>"

def unknownSymbol : String := "<unknown symbol>"

namespace Forest

def noun (F : Forest) (s : SymbolId) : DeclarationNoun :=
  match F.symbol? s with
  | none => .other
  | some x => declarationNoun x.kind x.signature (F.definition? s)

/-- the name in a signature; accessors and constructors are named with what they belong to -/
def guessedName (F : Forest) (s : SymbolId) : Option String :=
  (F.symbol? s).bind fun x =>
    x.signature.bind fun signature =>
      signature.guessName
        (if signature.isAccessor || x.kind == .constructor then 2 else 1)

/-- the name of the owner, or else the name in the signature -/
def symbolName (F : Forest) (s : SymbolId) : Option String :=
  match F.definition? s with
  | none => F.guessedName s
  | some x => if x.name = "" then F.guessedName s else some x.name

def signatureText (F : Forest) (s : SymbolId) : String :=
  match (F.symbol? s).bind Symbol.signature with
  | none => unknownSymbol
  | some signature => signature.text

/-- noun and name; an object expression has no name -/
def symbolText (F : Forest) (s : SymbolId) : String :=
  let noun := F.noun s
  if noun = .anonymousObject then noun.text
  else noun.text ++ " " ++ (F.symbolName s).getD unknownName

/-- the wording of a declaration by its own symbol -/
def declarationText (F : Forest) (d : DeclarationId) : String :=
  match F.declaration? d with
  | none => DeclarationNoun.other.text ++ " " ++ unknownName
  | some x => F.symbolText x.symbol

def expressionText (F : Forest) (e : ExpressionId) : String :=
  let phrase :=
    match F.expression? e with
    | none => (ExpressionPhrase.other, none)
    | some x => x.operation.phrase
  let subject :=
    match phrase.1.opening, phrase.2 with
    | none, none => ""
    | some opening, none => opening
    | none, some s => F.symbolText s
    | some opening, some s => opening ++ " " ++ F.symbolText s
  subject ++ " can not be " ++ phrase.1.participle

def causeText (F : Forest) : Cause → String
  | .missing s => "unlinked symbol " ++ F.signatureText s
  | .missingEnclosing s => F.symbolText s ++ " without expected enclosing class"
  | .due s root =>
    "partially linked symbol " ++ F.signatureText s ++ " (the root cause is "
      ++ F.causeText root ++ ")"

/-- the wording of the class that a member belongs to -/
def ownerText (F : Forest) (member : DeclarationId) : String :=
  match (F.parentDeclaration? member).bind F.declaration? with
  | none => DeclarationNoun.other.text ++ " " ++ unknownName
  | some x =>
    if x.isClass then F.symbolText x.symbol
    else DeclarationNoun.other.text ++ " " ++ (if x.name = "" then unknownName else x.name)

def problemText (F : Forest) : Problem → String
  | .missingDeclaration s =>
    "No " ++ (F.noun s).text ++ " found for signature " ++ F.signatureText s
  | .missingEnclosingClass d =>
    F.declarationText d ++ " is expected to have enclosing class which is missing"
  | .brokenSignature d cause =>
    "The signature of " ++ F.declarationText d ++ " uses " ++ F.causeText cause
  | .missingReference e s =>
    F.expressionText e ++ " because it uses unlinked symbol " ++ F.signatureText s
  | .brokenReference e cause =>
    F.expressionText e ++ " because it uses " ++ F.causeText cause
  | .brokenTarget e d cause =>
    F.expressionText e ++ " because it uses " ++ F.declarationText d ++ " whose signature uses "
      ++ F.causeText cause
  | .unimplementedMember member =>
    "Abstract " ++ F.declarationText member ++ " is not implemented in non-abstract "
      ++ F.ownerText member

end Forest

end LinkRepair
