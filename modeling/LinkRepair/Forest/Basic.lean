import LinkRepair.Source.LineTable
import LinkRepair.Symbol.Basic
import LinkRepair.Tree.Expression

/-!
# Forests

A forest is what is linked: source files, each with a tree of declarations whose bodies hold
expressions, and the symbols by which all of them refer to declarations.  The nodes live in four
stores and are addressed by handles; a parent link is a handle and owns nothing.  A handle that
points past the end of its store is treated as absent.

* `Forest.file?`, `symbol?`, `declaration?`, `expression?`   the look-ups;
* `Forest.addFile`, …                                         allocation: the handle and the forest;
* `Forest.updateFile`, …                                      an edit of one node;
* `Forest.attach`                                             a declaration made a member;
* `Forest.owner?`, `isMissing`                                the binding of symbols.

Beside each operation stand the equations that say what it does to the look-ups.
-/

namespace LinkRepair

/-- a source file, the root of one tree -/
structure SourceFile where
  path : String
  lines : LineTable
  package : String
  /-- the declarations at top level, in source order -/
  declarations : List DeclarationId

structure Forest where
  name : String
  files : Array SourceFile
  symbols : Array Symbol
  declarations : Array Declaration
  expressions : Array Expression

namespace Forest

/-- a forest without files -/
def named (name : String) : Forest := ⟨name, #[], #[], #[], #[]⟩

/-! ## look-ups -/

def file? (F : Forest) (f : FileId) : Option SourceFile := F.files[f.index]?

def symbol? (F : Forest) (s : SymbolId) : Option Symbol := F.symbols[s.index]?

def declaration? (F : Forest) (d : DeclarationId) : Option Declaration := F.declarations[d.index]?

def expression? (F : Forest) (e : ExpressionId) : Option Expression := F.expressions[e.index]?

/-- the files, in the order of allocation -/
def fileIds (F : Forest) : List FileId := (List.range F.files.size).map FileId.mk

/-- how many nodes there are; no path in a tree is longer -/
def nodeCount (F : Forest) : Nat := F.declarations.size + F.expressions.size

/-! ## edits -/

def updateFile (F : Forest) (f : FileId) (g : SourceFile → SourceFile) : Forest :=
  { F with files := F.files.modify f.index g }

def updateSymbol (F : Forest) (s : SymbolId) (g : Symbol → Symbol) : Forest :=
  { F with symbols := F.symbols.modify s.index g }

def updateDeclaration (F : Forest) (d : DeclarationId) (g : Declaration → Declaration) : Forest :=
  { F with declarations := F.declarations.modify d.index g }

def updateExpression (F : Forest) (e : ExpressionId) (g : Expression → Expression) : Forest :=
  { F with expressions := F.expressions.modify e.index g }

/-! ## allocation -/

def addFile (F : Forest) (file : SourceFile) : FileId × Forest :=
  (⟨F.files.size⟩, { F with files := F.files.push file })

/-- an unbound symbol -/
def addSymbol (F : Forest) (kind : SymbolKind) (signature : Option Signature) :
    SymbolId × Forest :=
  (⟨F.symbols.size⟩, { F with symbols := F.symbols.push ⟨kind, signature, none⟩ })

/-- a declaration, to which its symbol is bound; it is not yet a member of anything -/
def addDeclaration (F : Forest) (d : Declaration) : DeclarationId × Forest :=
  (⟨F.declarations.size⟩,
    { F with declarations := F.declarations.push d }.updateSymbol d.symbol
      fun s => { s with owner := some ⟨F.declarations.size⟩ })

def addExpression (F : Forest) (e : Expression) : ExpressionId × Forest :=
  (⟨F.expressions.size⟩, { F with expressions := F.expressions.push e })

/-- `child` gets its parent link, and is listed at the end of the file or class `parent` -/
def attach (F : Forest) (parent : Parent) (child : DeclarationId) : Forest :=
  let F := F.updateDeclaration child fun d => { d with parent := some parent }
  match parent with
  | .file f => F.updateFile f fun file => { file with declarations := file.declarations ++ [child] }
  | .declaration d => F.updateDeclaration d (Declaration.addMember child)

/-! ## the binding of symbols -/

def owner? (F : Forest) (s : SymbolId) : Option DeclarationId := (F.symbol? s).bind Symbol.owner

/-- the declaration behind a symbol -/
def definition? (F : Forest) (s : SymbolId) : Option Declaration :=
  (F.owner? s).bind F.declaration?

/-- nothing but a stand-in is behind the symbol -/
def isMissing (F : Forest) (s : SymbolId) : Bool :=
  match F.definition? s with
  | none => true
  | some d => d.origin == .missing

/-- the name of a declaration, empty for one that is absent -/
def nameOf (F : Forest) (d : DeclarationId) : String :=
  match F.declaration? d with
  | none => ""
  | some x => x.name

/-! ## equations -/

section
variable (F : Forest)

@[simp] theorem declaration?_updateFile (f : FileId) (g : SourceFile → SourceFile)
    (d : DeclarationId) : (F.updateFile f g).declaration? d = F.declaration? d := rfl

@[simp] theorem symbol?_updateFile (f : FileId) (g : SourceFile → SourceFile) (s : SymbolId) :
    (F.updateFile f g).symbol? s = F.symbol? s := rfl

@[simp] theorem expression?_updateFile (f : FileId) (g : SourceFile → SourceFile)
    (e : ExpressionId) : (F.updateFile f g).expression? e = F.expression? e := rfl

@[simp] theorem file?_updateSymbol (s : SymbolId) (g : Symbol → Symbol) (f : FileId) :
    (F.updateSymbol s g).file? f = F.file? f := rfl

@[simp] theorem declaration?_updateSymbol (s : SymbolId) (g : Symbol → Symbol)
    (d : DeclarationId) : (F.updateSymbol s g).declaration? d = F.declaration? d := rfl

@[simp] theorem expression?_updateSymbol (s : SymbolId) (g : Symbol → Symbol)
    (e : ExpressionId) : (F.updateSymbol s g).expression? e = F.expression? e := rfl

@[simp] theorem file?_updateDeclaration (d : DeclarationId) (g : Declaration → Declaration)
    (f : FileId) : (F.updateDeclaration d g).file? f = F.file? f := rfl

@[simp] theorem symbol?_updateDeclaration (d : DeclarationId) (g : Declaration → Declaration)
    (s : SymbolId) : (F.updateDeclaration d g).symbol? s = F.symbol? s := rfl

@[simp] theorem expression?_updateDeclaration (d : DeclarationId) (g : Declaration → Declaration)
    (e : ExpressionId) : (F.updateDeclaration d g).expression? e = F.expression? e := rfl

@[simp] theorem file?_updateExpression (e : ExpressionId) (g : Expression → Expression)
    (f : FileId) : (F.updateExpression e g).file? f = F.file? f := rfl

@[simp] theorem symbol?_updateExpression (e : ExpressionId) (g : Expression → Expression)
    (s : SymbolId) : (F.updateExpression e g).symbol? s = F.symbol? s := rfl

@[simp] theorem declaration?_updateExpression (e : ExpressionId) (g : Expression → Expression)
    (d : DeclarationId) : (F.updateExpression e g).declaration? d = F.declaration? d := rfl

theorem file?_updateFile (f : FileId) (g : SourceFile → SourceFile) (f' : FileId) :
    (F.updateFile f g).file? f' = if f = f' then (F.file? f').map g else F.file? f' := by
  obtain ⟨i⟩ := f
  obtain ⟨j⟩ := f'
  simp [file?, updateFile, Array.getElem?_modify]

theorem symbol?_updateSymbol (s : SymbolId) (g : Symbol → Symbol) (s' : SymbolId) :
    (F.updateSymbol s g).symbol? s' = if s = s' then (F.symbol? s').map g else F.symbol? s' := by
  obtain ⟨i⟩ := s
  obtain ⟨j⟩ := s'
  simp [symbol?, updateSymbol, Array.getElem?_modify]

theorem declaration?_updateDeclaration (d : DeclarationId) (g : Declaration → Declaration)
    (d' : DeclarationId) : (F.updateDeclaration d g).declaration? d'
      = if d = d' then (F.declaration? d').map g else F.declaration? d' := by
  obtain ⟨i⟩ := d
  obtain ⟨j⟩ := d'
  simp [declaration?, updateDeclaration, Array.getElem?_modify]

theorem expression?_updateExpression (e : ExpressionId) (g : Expression → Expression)
    (e' : ExpressionId) : (F.updateExpression e g).expression? e'
      = if e = e' then (F.expression? e').map g else F.expression? e' := by
  obtain ⟨i⟩ := e
  obtain ⟨j⟩ := e'
  simp [expression?, updateExpression, Array.getElem?_modify]

theorem symbol?_addSymbol (kind : SymbolKind) (signature : Option Signature) (s : SymbolId) :
    (F.addSymbol kind signature).2.symbol? s
      = if s = (F.addSymbol kind signature).1 then some ⟨kind, signature, none⟩
        else F.symbol? s := by
  obtain ⟨i⟩ := s
  simp [symbol?, addSymbol, Array.getElem?_push]

theorem expression?_addExpression (x : Expression) (e : ExpressionId) :
    (F.addExpression x).2.expression? e
      = if e = (F.addExpression x).1 then some x else F.expression? e := by
  obtain ⟨i⟩ := e
  simp [expression?, addExpression, Array.getElem?_push]

theorem declaration?_addDeclaration (x : Declaration) (d : DeclarationId) :
    (F.addDeclaration x).2.declaration? d
      = if d = (F.addDeclaration x).1 then some x else F.declaration? d := by
  obtain ⟨i⟩ := d
  simp [declaration?, addDeclaration, updateSymbol, Array.getElem?_push]

/-- the new declaration owns its symbol -/
theorem owner?_addDeclaration (x : Declaration) (h : (F.symbol? x.symbol).isSome = true) :
    (F.addDeclaration x).2.owner? x.symbol = some (F.addDeclaration x).1 := by
  obtain ⟨s, hs⟩ := Option.isSome_iff_exists.mp h
  have e : F.symbols[x.symbol.index]? = some s := hs
  simp [owner?, symbol?, addDeclaration, updateSymbol, Array.getElem?_modify, e]

/-- an unbound symbol is missing -/
theorem isMissing_of_owner?_none {s : SymbolId} (h : F.owner? s = none) :
    F.isMissing s = true := by
  simp [isMissing, definition?, h]

end

end Forest

end LinkRepair
