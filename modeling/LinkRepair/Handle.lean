/-!
# Handles

The four stores of a forest are addressed by numbers, in the order of allocation.  Each store has
a handle type of its own, so that a handle of one cannot be used in another.
-/

namespace LinkRepair

structure FileId where
  index : Nat
deriving DecidableEq

structure SymbolId where
  index : Nat
deriving DecidableEq

structure DeclarationId where
  index : Nat
deriving DecidableEq

structure ExpressionId where
  index : Nat
deriving DecidableEq

end LinkRepair
