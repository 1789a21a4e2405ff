import LinkRepair.Forest.Navigation

/-!
# Unlinked symbols

The missing symbols that the nodes of some trees mention, found without changing the trees.

* `Declaration.mentioned`      the symbols that a declaration itself mentions, in reading order;
* `Expression.mentioned`       those that an expression itself mentions, its type first;
* `Forest.mentions`            the same for a node;
* `Forest.unlinkedSymbols`     the missing ones among all of them, each once, in the order of their
                               first mention.
-/

namespace LinkRepair

/-- what the content of a declaration mentions -/
def Content.mentioned : Content → List SymbolId
  | .ofClass c => c.superTypes.flatMap TypeRef.mentioned
  | .ofFunction f => f.returnType.mentioned ++ f.overridden
  | .ofProperty p => p.overridden
  | .ofField f => f.type.mentioned
  | .ofVariable v => v.type.mentioned
  | .ofParameter p => p.type.mentioned ++ p.element.toList.flatMap TypeRef.mentioned
  | .ofTypeParameter p => p.bounds.flatMap TypeRef.mentioned
  | .ofEnumEntry _ | .ofInitializer _ => []

/-- a stand-in mentions its own symbol, unless it is an initializer that holds the linkage error
of a class -/
def Declaration.mentioned (d : Declaration) : List SymbolId :=
  (if d.origin = .missing ∧ d.isInitializer = false then [d.symbol] else [])
    ++ d.content.mentioned

def Expression.mentioned (e : Expression) : List SymbolId :=
  e.type.mentioned ++ e.operation.mentioned

namespace Forest

def mentions (F : Forest) : Node → List SymbolId
  | .declaration d =>
    match F.declaration? d with
    | none => []
    | some x => x.mentioned
  | .expression e =>
    match F.expression? e with
    | none => []
    | some x => x.mentioned

def unlinkedSymbols (F : Forest) (roots : List Root) : List SymbolId :=
  (((F.nodesUnder roots).flatMap F.mentions).filter F.isMissing).eraseDups

theorem mem_unlinkedSymbols {F : Forest} {roots : List Root} {s : SymbolId} :
    s ∈ F.unlinkedSymbols roots
      ↔ (∃ n ∈ F.nodesUnder roots, s ∈ F.mentions n) ∧ F.isMissing s = true := by
  simp [unlinkedSymbols]

end Forest

end LinkRepair
