import LinkRepair.Handle

/-!
# Causes

Why a classifier is not fully linked.  A cause is a chain: it names a classifier, and, unless that
one is broken by itself, the cause of the classifier that broke it.

* `Cause.symbol`      the classifier at the front of the chain;
* `Cause.innermost`   the link at the end of the chain, which is broken by itself;
* `Verdict`           a cause, or nothing for a classifier that is fully linked.
-/

namespace LinkRepair

inductive Cause where
  /-- no declaration is behind the classifier -/
  | missing (symbol : SymbolId)
  /-- the class makes sense only inside another one, which is gone -/
  | missingEnclosing (symbol : SymbolId)
  /-- a super type or the enclosing class is broken -/
  | due (symbol : SymbolId) (root : Cause)
deriving DecidableEq

namespace Cause

def symbol : Cause → SymbolId
  | .missing s => s
  | .missingEnclosing s => s
  | .due s _ => s

def innermost : Cause → Cause
  | .due _ root => root.innermost
  | cause => cause

/-- the links of the chain, outermost first -/
def links : Cause → List Cause
  | .due s root => .due s root :: root.links
  | cause => [cause]

/-- the end of the chain is not due to anything else -/
theorem innermost_ne_due (c : Cause) (s : SymbolId) (root : Cause) :
    c.innermost ≠ .due s root := by
  induction c with
  | missing => intro h; cases h
  | missingEnclosing => intro h; cases h
  | due _ _ ih => exact ih

theorem innermost_mem_links (c : Cause) : c.innermost ∈ c.links := by
  induction c with
  | missing => exact List.mem_cons_self
  | missingEnclosing => exact List.mem_cons_self
  | due _ _ ih => exact List.mem_cons_of_mem _ ih

end Cause

/-- the answer to a question about a classifier: what broke it, if anything did -/
abbrev Verdict := Option Cause

end LinkRepair
