import LinkRepair.Handle
import LinkRepair.Symbol.Signature

/-!
# Symbols

A symbol is what a reference points at: the identity of a declaration.  It is bound to the
declaration that owns it, or to nothing when no linked library provides the declaration.
-/

namespace LinkRepair

inductive SymbolKind where
  | classLike
  | enumEntry
  | typeParameter
  | function
  | constructor
  | property
  | field
  | localVariable
  | valueParameter
  | anonymousInitializer
deriving DecidableEq

/-- the kinds that a type may name -/
def SymbolKind.isClassifier : SymbolKind → Bool
  | .classLike | .typeParameter => true
  | _ => false

structure Symbol where
  kind : SymbolKind
  /-- absent for local declarations -/
  signature : Option Signature
  owner : Option DeclarationId

end LinkRepair
