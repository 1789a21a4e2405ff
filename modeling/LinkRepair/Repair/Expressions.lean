import LinkRepair.Repair.Declarations

/-!
# The sweep over expressions

The second sweep looks at every expression, from the outside inwards, and replaces those that can
not be evaluated, with all that is below them, by a call that raises a linkage error.

* `Expression.demands`        what an expression needs to be linked, in the order in which it is
                              looked at: types and symbols, its own type last;
* `Forest.suspects`           the classifiers behind a symbol, one of which may have broken it;
* `Forest.expressionProblem`  the first demand of an expression that is not met;
* `Pass.enterExpression`      what happens at a node, and what is visited below it;
* `Pass.sweepExpressions`     the sweep below a root.
-/

namespace LinkRepair

inductive Demand where
  | type (type : TypeRef)
  | symbol (symbol : SymbolId)

/-! ## demands -/

/-- a type, then the type arguments of an access -/
def Access.typeDemands (a : Access) (type : TypeRef) : List Demand :=
  .type type :: a.types.map .type

/-- the demands of an operation whose result has the given type -/
def Operation.demands (type : TypeRef) : Operation → List Demand
  | .exit target _ => [.symbol target]
  | .block _ inlined => inlined.toList.map .symbol
  | .typeOperation _ operand _ => [.type type, .type operand]
  | .variadic element _ => [.type type, .type element]
  | .classReference symbol classType => [.type type, .type classType, .symbol symbol]
  | .call access superQualifier =>
    superQualifier.toList.map .symbol ++ access.typeDemands type ++ [.symbol access.symbol]
  | .construction _ access => access.typeDemands type ++ [.symbol access.symbol]
  | .functionReference access => .symbol access.symbol :: access.typeDemands type
  | .propertyReference access field getter setter =>
    (field.toList ++ getter.toList ++ setter.toList).map .symbol ++ access.typeDemands type
      ++ [.symbol access.symbol]
  | .readValue symbol | .writeValue symbol _ | .readField symbol _ | .writeField symbol _ _
  | .objectInstance symbol | .enumInstance symbol | .initialization symbol => [.symbol symbol]
  | .constant _ | .choice _ | .raise _ => []

def Expression.demands (e : Expression) : List Demand :=
  e.operation.demands e.type ++ [.type e.type]

/-! ## problems -/

namespace Forest

/-- the symbol of the class of an enum entry: its own, or else the one that lists it -/
def entryClassSymbol? (F : Forest) (d : DeclarationId) (entry : EnumEntryInfo) :
    Option SymbolId :=
  ((entry.class?.or (F.parentDeclaration? d)).bind F.declaration?).map Declaration.symbol

/-- the classifiers to ask about the symbol `s`, whose owner is the declaration `d` -/
def suspects (F : Forest) (s : SymbolId) (d : DeclarationId) (x : Declaration) : List SymbolId :=
  match x.content with
  | .ofClass _ | .ofTypeParameter _ => [s]
  | .ofEnumEntry entry => (F.entryClassSymbol? d entry).toList
  | .ofFunction _ => F.signatureBlamed d
  | .ofProperty p =>
    p.field.toList.flatMap F.valueBlamed ++ p.getter.toList.flatMap F.signatureBlamed
      ++ p.setter.toList.flatMap F.signatureBlamed
  | .ofField _ | .ofVariable _ | .ofParameter _ => F.valueBlamed d
  | .ofInitializer _ => []

/-- the problem of an expression that refers to the declaration `d`: a classifier is used as it is,
anything else by its signature -/
def accusation (e : ExpressionId) (d : DeclarationId) (x : Declaration) (cause : Cause) : Problem :=
  match x.content with
  | .ofClass _ | .ofTypeParameter _ | .ofEnumEntry _ => .brokenReference e cause
  | _ => .brokenTarget e d cause

/-- an answer about classifiers as an answer about an expression -/
def asProblem (accuse : Cause → Problem) (answer : Verdict × Memo) : Option Problem × Memo :=
  (answer.1.map accuse, answer.2)

def symbolProblem (F : Forest) (e : ExpressionId) (memo : Memo) (s : SymbolId) :
    Option Problem × Memo :=
  if F.isMissing s then (some (.missingReference e s), memo)
  else
    match F.owner? s with
    | none => (none, memo)
    | some d =>
      match F.declaration? d with
      | none => (none, memo)
      | some x => asProblem (accusation e d x) (F.exploreFirst memo (F.suspects s d x))

def demandProblem (F : Forest) (e : ExpressionId) (memo : Memo) : Demand → Option Problem × Memo
  | .type type => asProblem (.brokenReference e) (F.exploreType memo type)
  | .symbol s => F.symbolProblem e memo s

/-- the first problem among some demands -/
def firstProblem (F : Forest) (e : ExpressionId) : Memo → List Demand → Option Problem × Memo
  | memo, [] => (none, memo)
  | memo, demand :: rest =>
    match F.demandProblem e memo demand with
    | (some problem, memo) => (some problem, memo)
    | (none, memo) => F.firstProblem e memo rest

def expressionProblem (F : Forest) (memo : Memo) (e : ExpressionId) : Option Problem × Memo :=
  match F.expression? e with
  | none => (none, memo)
  | some x => F.firstProblem e memo x.demands

end Forest

/-! ## the sweep -/

namespace Pass

/-- a call that raises the problem takes the place of an expression -/
def replaceExpression (cx : Context) (file : Option FileId) (p : Pass) (e : ExpressionId)
    (problem : Problem) : Pass :=
  let span := ((p.forest.expression? e).map Expression.span).getD .undefined
  let raised := p.complain cx (.expression e) problem span (p.forest.expressionLocation file e)
  { raised.2 with forest := raised.2.forest.updateExpression e fun _ => raised.1 }

def enterExpression (cx : Context) (file : Option FileId) (p : Pass) (n : Node) :
    Pass × List Node :=
  match n with
  | .declaration _ => p.below n false
  | .expression e =>
    let found := p.forest.expressionProblem p.memo e
    let p := { p with memo := found.2 }
    match found.1 with
    | none => p.below n false
    | some problem => (p.replaceExpression cx file e problem, [])

/-- the file in which the nodes below a root are located -/
def rootFile (F : Forest) : Root → Option FileId
  | .file f => some f
  | .declaration d => F.fileOf d

def sweepExpressions (cx : Context) (p : Pass) (root : Root) : Pass :=
  walkAll (enterExpression cx (rootFile p.forest root)) (sweepDepth p.forest) p
    ((p.forest.rootDeclarations root).map .declaration)

end Pass

end LinkRepair
