import LinkRepair.Forest.Navigation

/-!
# Diagnostics

* `Severity`                          how serious a report is, in ascending order;
* `Location`                          a file with a line and a column, both counted from one;
* `Report`                            a message with its severity and location;
* `Forest.locate`                     the location of an offset in a file;
* `Forest.declarationLocation`        the location of a declaration;
* `Forest.expressionLocation`         the location of an expression in a file.

A line and a column are signed words: an offset is taken as a word of 32 bits before one is added,
so a very large one wraps.  `-1` stands for a number that is not known.
-/

namespace LinkRepair

inductive Severity where
  | info
  | warning
  | error
deriving DecidableEq

namespace Severity

def text : Severity → String
  | .info => "info"
  | .warning => "warning"
  | .error => "error"

def rank : Severity → Nat
  | .info => 0
  | .warning => 1
  | .error => 2

/-- less serious -/
def below (a b : Severity) : Bool := a.rank < b.rank

theorem rank_injective {a b : Severity} (h : a.rank = b.rank) : a = b := by
  cases a <;> cases b <;> simp_all [rank]

end Severity

/-! ## locations -/

/-- the number of a line or column that is not known -/
def unknownNumber : Int32 := -1

structure Location where
  /-- the name of the forest and the path of the file -/
  file : String
  line : Int32
  column : Int32
deriving DecidableEq

namespace Location

def isUndefined (l : Location) : Bool := l.line == unknownNumber || l.column == unknownNumber

def text (l : Location) : String :=
  if l.isUndefined then l.file
  else l.file ++ ":" ++ toString l.line.toInt ++ ":" ++ toString l.column.toInt

theorem text_of_isUndefined {l : Location} (h : l.isUndefined = true) : l.text = l.file := by
  simp [text, h]

end Location

/-- a number counted from zero, as a signed number counted from one -/
def fromOne (n : UInt32) : Int32 := n.toInt32 + 1

structure Diagnostic where
  message : String
  location : Option Location
deriving DecidableEq

structure Report where
  severity : Severity
  message : String
  location : Option Location
deriving DecidableEq

def Report.diagnostic (r : Report) : Diagnostic := ⟨r.message, r.location⟩

namespace LineTable

/-- the line and the column of an offset, counted from one -/
def position (t : LineTable) (offset : UInt32) : Int32 × Int32 :=
  (fromOne (UInt32.ofNat (t.line offset)), fromOne (t.column offset))

end LineTable

namespace Forest

/-- the location of an offset, or of the file alone -/
def locate (F : Forest) (f : FileId) (offset : Option UInt32) : Option Location :=
  (F.file? f).map fun file =>
    let position :=
      match offset with
      | none => (unknownNumber, unknownNumber)
      | some o => file.lines.position o
    ⟨F.name ++ " @ " ++ file.path, position.1, position.2⟩

/-- the offset of the closest declaration, from `d` outwards, that a user wrote -/
def sourceOffset? (F : Forest) (d : DeclarationId) : Option UInt32 :=
  (((F.lineage d).filterMap F.declaration?).find? fun x => !x.origin.isStandIn).bind
    fun x => x.span.startOffset?

/-- nothing for a declaration outside the files -/
def declarationLocation (F : Forest) (d : DeclarationId) : Option Location :=
  (F.fileOf d).bind fun f => F.locate f (F.sourceOffset? d)

def expressionLocation (F : Forest) (f : Option FileId) (e : ExpressionId) : Option Location :=
  f.bind fun f => F.locate f ((F.expression? e).bind fun x => x.span.startOffset?)

theorem expressionLocation_none (F : Forest) (e : ExpressionId) :
    F.expressionLocation none e = none := rfl

end Forest

end LinkRepair
