import LinkRepair.Classifier.Cause
import LinkRepair.Forest.Navigation

/-!
# The standing of a classifier

Before its dependencies are looked at, a classifier is either broken by itself or rests on others.

* `Forest.standing`   broken, with the cause, or sound as long as others are;
* `Standing.needs`    the classifiers that it rests on, in the order in which they are looked at.

A class rests on what its super types mention, then on its enclosing class; a type parameter on
what its bounds mention.  Declarations that are no classifiers rest on nothing.
-/

namespace LinkRepair

inductive Standing where
  | broken (cause : Cause)
  /-- a class passes a cause on under its own name, a type parameter as it is -/
  | rests (needs : List SymbolId) (isClass : Bool)
deriving DecidableEq

def Standing.needs : Standing → List SymbolId
  | .broken _ => []
  | .rests needs _ => needs

/-- the cause that a classifier passes on, when one that it rests on is broken -/
def blame (s : SymbolId) (isClass : Bool) (root : Cause) : Cause :=
  if isClass then .due s root else root

namespace Forest

/-- neither a class nor anything but a stand-in is around the class -/
def lacksEnclosing (F : Forest) (d : DeclarationId) : Bool :=
  match (F.enclosingClass d).bind F.declaration? with
  | none => true
  | some outer => outer.origin == .missing

/-- the symbol of the class around a class -/
def enclosingSymbol? (F : Forest) (d : DeclarationId) : Option SymbolId :=
  ((F.enclosingClass d).bind F.declaration?).map Declaration.symbol

/-- what a class rests on -/
def classNeeds (F : Forest) (d : DeclarationId) (c : ClassInfo) : List SymbolId :=
  c.superTypes.flatMap TypeRef.mentioned ++ (F.enclosingSymbol? d).toList

/-- the standing of a symbol whose owner is the declaration `d` -/
def standingOf (F : Forest) (s : SymbolId) (d : DeclarationId) (x : Declaration) : Standing :=
  if x.origin = .missing then .broken (.missing s)
  else
    match x.content with
    | .ofClass c =>
      if c.needsEnclosing && F.lacksEnclosing d then .broken (.missingEnclosing s)
      else .rests (F.classNeeds d c) true
    | .ofTypeParameter p => .rests (p.bounds.flatMap TypeRef.mentioned) false
    | _ => .rests [] false

def standing (F : Forest) (s : SymbolId) : Standing :=
  match F.owner? s with
  | none => .broken (.missing s)
  | some d =>
    match F.declaration? d with
    | none => .broken (.missing s)
    | some x => F.standingOf s d x

theorem standing_of_owner?_none {F : Forest} {s : SymbolId} (h : F.owner? s = none) :
    F.standing s = .broken (.missing s) := by
  simp [standing, h]

theorem standing_of_owner? {F : Forest} {s : SymbolId} {d : DeclarationId} {x : Declaration}
    (h : F.owner? s = some d) (hx : F.declaration? d = some x) :
    F.standing s = F.standingOf s d x := by
  simp [standing, h, hx]

/-- a missing symbol is broken by itself -/
theorem standing_of_isMissing {F : Forest} {s : SymbolId} (h : F.isMissing s = true) :
    F.standing s = .broken (.missing s) := by
  unfold isMissing definition? at h
  unfold standing
  cases ho : F.owner? s with
  | none => rfl
  | some d =>
    simp only [ho, Option.bind_some] at h
    cases hx : F.declaration? d with
    | none => simp [hx]
    | some x =>
      simp only [hx, beq_iff_eq] at h
      simp [hx, standingOf, h]

end Forest

end LinkRepair
