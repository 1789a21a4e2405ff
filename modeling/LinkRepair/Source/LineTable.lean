/-!
# Line tables

The table of a source file lists the byte offset at which every line starts, `0` first.  It turns
an offset into a line and a column, both counted from zero.

* `LineTable.ofText`     the table of a text: a line starts after every newline byte;
* `LineTable.ofStarts`   a recorded table, with the missing `0` put in front;
* `LineTable.line`       the last line that starts at or before an offset;
* `LineTable.column`     the distance of an offset from the start of its line.
-/

namespace LinkRepair

/-- the offsets at which the lines start, in ascending order -/
structure LineTable where
  starts : List UInt32
deriving DecidableEq

/-- the offsets that follow a newline, in a text whose first byte is at `pos` -/
def newlineEnds (pos : Nat) : List Char → List Nat
  | [] => []
  | c :: cs =>
    if c = '\n' then (pos + 1) :: newlineEnds (pos + 1) cs else newlineEnds (pos + c.utf8Size) cs

theorem newlineEnds_newline (pos : Nat) (cs : List Char) :
    newlineEnds pos ('\n' :: cs) = (pos + 1) :: newlineEnds (pos + 1) cs := rfl

namespace LineTable

def ofText (source : String) : LineTable :=
  ⟨0 :: (newlineEnds 0 source.toList).map UInt32.ofNat⟩

def ofStarts (starts : List UInt32) : LineTable :=
  if starts.head? = some 0 then ⟨starts⟩ else ⟨0 :: starts⟩

theorem head?_ofText (source : String) : (ofText source).starts.head? = some 0 := rfl

def line (t : LineTable) (offset : UInt32) : Nat :=
  (t.starts.takeWhile fun start => start ≤ offset).length - 1

/-- the start of the line with the number `n`, counted from zero -/
def start (t : LineTable) (n : Nat) : UInt32 := t.starts.getD n 0

def column (t : LineTable) (offset : UInt32) : UInt32 := offset - t.start (t.line offset)

end LineTable

end LinkRepair
