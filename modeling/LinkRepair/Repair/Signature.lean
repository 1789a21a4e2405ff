import LinkRepair.Repair.Pass

/-!
# Repair of signatures

The types of a signature that are broken are replaced by markers.

* `FunctionInfo.signature`     the parts of a signature, in the order in which causes count;
* `Pass.fixPart`               one part, with the cause if it was broken;
* `Pass.fixSignature`          all parts, with the first cause;
* `Forest.signatureBlamed`     the classifiers to ask about a signature without changing it: a marker
                               stands for the classifier that it remembers;
* `Pass.fixValue`              the type of a field or a variable;
* `Pass.filterOverridden`      the overridden symbols that can not be overridden any more.
-/

namespace LinkRepair

/-- a part of the signature of a function -/
inductive SignaturePart where
  | parameter (declaration : DeclarationId)
  | returnType
  | typeParameter (declaration : DeclarationId)
deriving DecidableEq

/-- extension receiver, value parameters, return type, type parameters, dispatch receiver -/
def FunctionInfo.signature (f : FunctionInfo) : List SignaturePart :=
  f.extensionReceiver.toList.map .parameter ++ f.valueParameters.map .parameter ++ [.returnType]
    ++ f.typeParameters.map .typeParameter ++ f.dispatchReceiver.toList.map .parameter

/-! ## what is to blame for a signature -/

namespace ParameterInfo

/-- the type, then the type of one element -/
def types (p : ParameterInfo) : List TypeRef := p.type :: p.element.toList

/-- every type a marker, and no default value -/
def broken (p : ParameterInfo) (marker : TypeRef) : ParameterInfo :=
  ⟨marker, p.element.map fun _ => marker, none⟩

end ParameterInfo

/-- a field or a variable whose type is gone -/
def Declaration.breakValue (marker : TypeRef) (d : Declaration) : Declaration :=
  match d.content with
  | .ofField f => { d with content := .ofField { f with type := marker, initializer := none } }
  | .ofVariable v =>
    { d with content := .ofVariable { v with type := marker, initializer := none } }
  | _ => d

namespace Forest

def parameter? (F : Forest) (d : DeclarationId) : Option ParameterInfo :=
  (F.declaration? d).bind Declaration.parameter?

def function? (F : Forest) (d : DeclarationId) : Option FunctionInfo :=
  (F.declaration? d).bind Declaration.function?

def class? (F : Forest) (d : DeclarationId) : Option ClassInfo :=
  (F.declaration? d).bind Declaration.class?

/-- the bounds of a type parameter -/
def bounds (F : Forest) (d : DeclarationId) : List TypeRef :=
  match (F.declaration? d).bind Declaration.typeParameter? with
  | none => []
  | some p => p.bounds

/-- the types of a part of a signature -/
def partTypes (F : Forest) (f : FunctionInfo) : SignaturePart → List TypeRef
  | .parameter d =>
    match F.parameter? d with
    | none => []
    | some p => p.types
  | .returnType => [f.returnType]
  | .typeParameter d => F.bounds d

def signatureBlamed (F : Forest) (d : DeclarationId) : List SymbolId :=
  match F.function? d with
  | none => []
  | some f => (f.signature.flatMap (F.partTypes f)).flatMap TypeRef.blamed

/-- the classifiers to ask about the type of a declared value -/
def valueBlamed (F : Forest) (d : DeclarationId) : List SymbolId :=
  match (F.declaration? d).bind Declaration.valueType? with
  | none => []
  | some type => type.blamed

end Forest

/-! ## markers in place of broken types -/

namespace Pass

/-- both types of a broken parameter become the marker of the first broken one -/
def fixParameter (cx : Context) (p : Pass) (d : DeclarationId) : Verdict × Pass :=
  match p.forest.parameter? d with
  | none => (none, p)
  | some info =>
    match p.ask (info.types.flatMap TypeRef.mentioned) with
    | (none, p) => (none, p)
    | (some cause, p) =>
      let marker := cx.intrinsics.markerType cause.symbol
      (some cause, p.edit fun F => F.updateDeclaration d <| Declaration.mapParameter fun q =>
        q.broken marker)

def fixReturnType (cx : Context) (p : Pass) (function : DeclarationId) (type : TypeRef) :
    Verdict × Pass :=
  match p.ask type.mentioned with
  | (none, p) => (none, p)
  | (some cause, p) =>
    let marker := cx.intrinsics.markerType cause.symbol
    (some cause, p.edit fun F => F.updateDeclaration function <| Declaration.mapFunction fun f =>
      { f with returnType := marker })

/-- the bounds of a broken type parameter become one marker.  The question is about the type
parameter itself, so that its uses find the cause later on, when the bounds are gone. -/
def fixTypeParameter (cx : Context) (p : Pass) (d : DeclarationId) : Verdict × Pass :=
  match p.forest.declaration? d with
  | none => (none, p)
  | some x =>
    match p.ask [x.symbol] with
    | (none, p) => (none, p)
    | (some cause, p) =>
      let marker := cx.intrinsics.markerType cause.symbol
      (some cause, p.edit fun F => F.updateDeclaration d <| Declaration.mapTypeParameter fun _ =>
        ⟨[marker]⟩)

def fixTypeParameters (cx : Context) (p : Pass) (ds : List DeclarationId) : Verdict × Pass :=
  each (fixTypeParameter cx) p ds

def fixPart (cx : Context) (function : DeclarationId) (returnType : TypeRef) (p : Pass) :
    SignaturePart → Verdict × Pass
  | .parameter d => p.fixParameter cx d
  | .returnType => p.fixReturnType cx function returnType
  | .typeParameter d => p.fixTypeParameter cx d

def fixSignature (cx : Context) (p : Pass) (function : DeclarationId) : Verdict × Pass :=
  match p.forest.function? function with
  | none => (none, p)
  | some f => each (fixPart cx function f.returnType) p f.signature

/-- a broken type of a field or a variable becomes a marker, and its initializer is gone -/
def fixValue (cx : Context) (p : Pass) (d : DeclarationId) : Verdict × Pass :=
  match (p.forest.declaration? d).bind Declaration.valueType? with
  | none => (none, p)
  | some type =>
    match p.ask type.mentioned with
    | (none, p) => (none, p)
    | (some cause, p) =>
      (some cause, p.edit fun F => F.updateDeclaration d <| Declaration.breakValue
        (cx.intrinsics.markerType cause.symbol))

end Pass

/-! ## overridden symbols -/

namespace Forest

/-- neither missing nor private -/
def isOverridable (F : Forest) (s : SymbolId) : Bool :=
  !F.isMissing s && (F.definition? s).bind Declaration.visibility? != some .privateAccess

end Forest

namespace Pass

def filterOverridden (p : Pass) (d : DeclarationId) : Pass :=
  p.edit fun F => F.updateDeclaration d fun x =>
    x.withOverridden (x.overridden.filter F.isOverridable)

theorem filterOverridden_memo (p : Pass) (d : DeclarationId) :
    (p.filterOverridden d).memo = p.memo := rfl

end Pass

end LinkRepair
