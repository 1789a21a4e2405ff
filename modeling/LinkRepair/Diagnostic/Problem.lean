import LinkRepair.Classifier.Cause
import LinkRepair.Forest.Basic

/-!
# Problems

What can be wrong with a node that is repaired.  A problem names the nodes and symbols that its
message will speak of, and the cause where a classifier is behind it.
-/

namespace LinkRepair

inductive Problem where
  /-- nothing but a stand-in is behind the symbol -/
  | missingDeclaration (symbol : SymbolId)
  /-- a class that makes sense only inside another one has lost it -/
  | missingEnclosingClass (declaration : DeclarationId)
  /-- the signature of a declaration uses a broken classifier -/
  | brokenSignature (declaration : DeclarationId) (cause : Cause)
  /-- an expression refers to a declaration that is gone -/
  | missingReference (expression : ExpressionId) (symbol : SymbolId)
  /-- an expression uses a broken classifier -/
  | brokenReference (expression : ExpressionId) (cause : Cause)
  /-- an expression refers to a declaration whose signature uses a broken classifier -/
  | brokenTarget (expression : ExpressionId) (declaration : DeclarationId) (cause : Cause)
  /-- an abstract member that a class has to implement and does not -/
  | unimplementedMember (member : DeclarationId)
deriving DecidableEq

end LinkRepair
