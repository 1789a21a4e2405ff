import LinkRepair.Handle

/-!
# Type references

A type reference names a classifier, with arguments, or is a marker: the stand-in for a reference
that could not be resolved, which behaves as the top type and remembers the classifier to blame.

* `TypeRef.mentioned`     the classifiers that a reference depends on, the head first, then those
                          of its arguments in order; a marker depends on none;
* `TypeRef.classifiers`   the same listing with markers shown by the classifier they erase to;
* `TypeRef.blamed`        the classifiers whose first broken one is to blame for a broken
                          reference: of a marker the one it remembers;
* `TypeRef.rename`        classifiers replaced by others, markers kept.
-/

namespace LinkRepair

mutual

inductive TypeRef where
  | named (classifier : SymbolId) (arguments : List TypeArgument) (nullable : Bool)
  | marker (erasure unlinked : SymbolId)

/-- an argument of a generic type; a star admits every type -/
inductive TypeArgument where
  | star
  | projection (type : TypeRef)

end

namespace TypeRef

/-- a class on its own: no arguments, not nullable -/
def simple (classifier : SymbolId) : TypeRef := .named classifier [] false

def asNullable : TypeRef → TypeRef
  | .named classifier arguments _ => .named classifier arguments true
  | .marker erasure unlinked => .marker erasure unlinked

def isMarker : TypeRef → Bool
  | .named .. => false
  | .marker .. => true

/-- the classifier at the head -/
def classifier : TypeRef → SymbolId
  | .named classifier _ _ => classifier
  | .marker erasure _ => erasure

/-- the classifier that the reference names, if it is not a marker -/
def head? : TypeRef → Option SymbolId
  | .named classifier _ _ => some classifier
  | .marker .. => none

end TypeRef

/-! ## mentioned classifiers -/

mutual

def TypeRef.mentioned : TypeRef → List SymbolId
  | .named classifier arguments _ => classifier :: TypeArgument.mentioned arguments
  | .marker .. => []

/-- the classifiers that a list of arguments mentions -/
def TypeArgument.mentioned : List TypeArgument → List SymbolId
  | [] => []
  | .star :: rest => TypeArgument.mentioned rest
  | .projection type :: rest => type.mentioned ++ TypeArgument.mentioned rest

end

mutual

def TypeRef.classifiers : TypeRef → List SymbolId
  | .named classifier arguments _ => classifier :: TypeArgument.classifiers arguments
  | .marker erasure _ => [erasure]

/-- the classifiers of a list of arguments -/
def TypeArgument.classifiers : List TypeArgument → List SymbolId
  | [] => []
  | .star :: rest => TypeArgument.classifiers rest
  | .projection type :: rest => type.classifiers ++ TypeArgument.classifiers rest

end

def TypeRef.blamed : TypeRef → List SymbolId
  | .marker _ unlinked => [unlinked]
  | type => type.mentioned

theorem TypeRef.mentioned_simple (s : SymbolId) : (TypeRef.simple s).mentioned = [s] := by
  simp [TypeRef.simple, TypeRef.mentioned, TypeArgument.mentioned]

theorem TypeRef.mentioned_marker (e u : SymbolId) : (TypeRef.marker e u).mentioned = [] := by
  simp [TypeRef.mentioned]

theorem TypeRef.blamed_marker (e u : SymbolId) : (TypeRef.marker e u).blamed = [u] := rfl

theorem TypeRef.blamed_named (c : SymbolId) (as : List TypeArgument) (n : Bool) :
    (TypeRef.named c as n).blamed = (TypeRef.named c as n).mentioned := rfl

/-! ## renaming -/

mutual

def TypeRef.rename (f : SymbolId → SymbolId) : TypeRef → TypeRef
  | .named classifier arguments nullable =>
    .named (f classifier) (TypeArgument.rename f arguments) nullable
  | .marker erasure unlinked => .marker erasure unlinked

/-- a list of arguments with their classifiers replaced -/
def TypeArgument.rename (f : SymbolId → SymbolId) : List TypeArgument → List TypeArgument
  | [] => []
  | .star :: rest => .star :: TypeArgument.rename f rest
  | .projection type :: rest => .projection (type.rename f) :: TypeArgument.rename f rest

end

theorem TypeRef.rename_marker (f : SymbolId → SymbolId) (e u : SymbolId) :
    (TypeRef.marker e u).rename f = .marker e u := by
  simp [TypeRef.rename]

/-- renaming a type renames what it mentions -/
theorem TypeRef.mentioned_rename (f : SymbolId → SymbolId) (t : TypeRef) :
    (t.rename f).mentioned = t.mentioned.map f := by
  induction t using TypeRef.rec
    (motive_2 := fun a => TypeArgument.mentioned (TypeArgument.rename f [a])
      = (TypeArgument.mentioned [a]).map f)
    (motive_3 := fun as => TypeArgument.mentioned (TypeArgument.rename f as)
      = (TypeArgument.mentioned as).map f) with
  | named c as n ih => simp [TypeRef.rename, TypeRef.mentioned, ih]
  | marker e u => simp [TypeRef.rename, TypeRef.mentioned]
  | star => rfl
  | projection t ih => simp [TypeArgument.rename, TypeArgument.mentioned, ih]
  | nil => rfl
  | cons a as iha ihas =>
    cases a with
    | star => simpa [TypeArgument.rename, TypeArgument.mentioned] using ihas
    | projection t =>
      simp only [TypeArgument.rename, TypeArgument.mentioned, List.append_nil] at iha
      simp [TypeArgument.rename, TypeArgument.mentioned, iha, ihas]

end LinkRepair
