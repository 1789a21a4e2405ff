import LinkRepair.Tree.Declaration

/-!
# Expressions

An expression is an operation with a type, a span, and the note whether it was put there to raise
a linkage error.

* `Operation`                 what an expression does, with its operands;
* `Operation.operands`        the expressions directly below, in the order of evaluation;
* `Operation.children`        the same with the local declarations of a block in their places;
* `Operation.mentioned`       the symbols that the operation itself mentions, in reading order.
-/

namespace LinkRepair

inductive Constant where
  | null
  | boolean (value : Bool)
  | integer (value : Int64)
  | text (value : String)
deriving DecidableEq

inductive TypeOperator where
  | cast
  | safeCast
  | instanceOf
  | notInstanceOf
  | coercionToUnit
deriving DecidableEq

/-- the part that calls and references to callables share -/
structure Access where
  symbol : SymbolId
  /-- nothing where a type argument was left open -/
  typeArguments : List (Option TypeRef)
  dispatch : Option ExpressionId
  extension : Option ExpressionId
  /-- nothing where the default value is used -/
  arguments : List (Option ExpressionId)

/-- the three ways in which a constructor is called -/
inductive ConstructorUse where
  | creation
  | delegation
  | enumEntry
deriving DecidableEq

structure Branch where
  condition : ExpressionId
  result : ExpressionId
deriving DecidableEq

inductive Operation where
  | constant (value : Constant)
  /-- statements in a row; the body of an inlined function carries the function's symbol -/
  | block (statements : List Statement) (inlined : Option SymbolId)
  | exit (target : SymbolId) (value : ExpressionId)
  | typeOperation (operator : TypeOperator) (operand : TypeRef) (argument : ExpressionId)
  | variadic (element : TypeRef) (elements : List ExpressionId)
  | readValue (symbol : SymbolId)
  | writeValue (symbol : SymbolId) (value : ExpressionId)
  | readField (symbol : SymbolId) (receiver : Option ExpressionId)
  | writeField (symbol : SymbolId) (receiver : Option ExpressionId) (value : ExpressionId)
  | objectInstance (symbol : SymbolId)
  | enumInstance (symbol : SymbolId)
  | call (access : Access) (superQualifier : Option SymbolId)
  | construction (use : ConstructorUse) (access : Access)
  | functionReference (access : Access)
  | propertyReference (access : Access) (field getter setter : Option SymbolId)
  | classReference (symbol : SymbolId) (classType : TypeRef)
  | initialization (ofClass : SymbolId)
  | choice (branches : List Branch)
  | raise (value : ExpressionId)

structure Expression where
  operation : Operation
  type : TypeRef
  span : Span
  /-- put there to raise a linkage error -/
  isLinkageError : Bool

/-- a node of the tree, as a walk meets it -/
inductive Node where
  | declaration (declaration : DeclarationId)
  | expression (expression : ExpressionId)
deriving DecidableEq

def Statement.node : Statement → Node
  | .declaration d => .declaration d
  | .expression e => .expression e

/-- the expression of a statement, if it is one -/
def Statement.expression? : Statement → Option ExpressionId
  | .declaration _ => none
  | .expression e => some e

/-! ## what is below an operation -/

def Access.operands (a : Access) : List ExpressionId :=
  a.dispatch.toList ++ a.extension.toList ++ a.arguments.filterMap id

/-- the types among the type arguments -/
def Access.types (a : Access) : List TypeRef := a.typeArguments.filterMap id

namespace Operation

def operands : Operation → List ExpressionId
  | .constant _ | .readValue _ | .objectInstance _ | .enumInstance _ | .classReference ..
  | .initialization _ => []
  | .block statements _ => statements.filterMap Statement.expression?
  | .exit _ value | .writeValue _ value | .raise value => [value]
  | .typeOperation _ _ argument => [argument]
  | .variadic _ elements => elements
  | .readField _ receiver => receiver.toList
  | .writeField _ receiver value => receiver.toList ++ [value]
  | .call access _ | .construction _ access | .functionReference access
  | .propertyReference access .. => access.operands
  | .choice branches => branches.flatMap fun b => [b.condition, b.result]

def children : Operation → List Node
  | .block statements _ => statements.map Statement.node
  | operation => operation.operands.map Node.expression

theorem children_block (ss : List Statement) (i : Option SymbolId) :
    (block ss i).children = ss.map Statement.node := rfl

/-! ## what an operation mentions -/

/-- the symbols of an access, and of its type arguments -/
def accessMentioned (a : Access) : List SymbolId :=
  a.symbol :: a.types.flatMap TypeRef.mentioned

def mentioned : Operation → List SymbolId
  | .constant _ | .choice _ | .raise _ => []
  | .block _ inlined => inlined.toList
  | .exit target _ => [target]
  | .typeOperation _ operand _ => operand.mentioned
  | .variadic element _ => element.mentioned
  | .readValue symbol | .writeValue symbol _ | .readField symbol _ | .writeField symbol _ _
  | .objectInstance symbol | .enumInstance symbol | .initialization symbol => [symbol]
  | .call access superQualifier => superQualifier.toList ++ accessMentioned access
  | .construction _ access | .functionReference access => accessMentioned access
  | .propertyReference access field getter setter =>
    field.toList ++ getter.toList ++ setter.toList ++ accessMentioned access
  | .classReference symbol classType => symbol :: classType.mentioned

end Operation

end LinkRepair
