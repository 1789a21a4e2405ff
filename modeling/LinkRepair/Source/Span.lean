/-!
# Spans

A span is a half-open range of byte offsets in a source file.  A node that no source text stands
behind carries `Span.undefined`; the largest offset is reserved for it, so a span is undefined as
soon as it starts there.

* `Span.merge`      the smallest span over two spans, an undefined one counting for nothing;
* `Span.contains`   membership of an offset.
-/

namespace LinkRepair

/-- the bytes from `start` up to, and without, `stop` -/
structure Span where
  start : UInt32
  stop : UInt32
deriving DecidableEq

namespace Span

/-- the reserved offset -/
def nowhere : UInt32 := 0xFFFFFFFF

def undefined : Span := ⟨nowhere, nowhere⟩

instance : Inhabited Span := ⟨undefined⟩

/-- the span before the byte at `offset` -/
def empty (offset : UInt32) : Span := ⟨offset, offset⟩

def isUndefined (s : Span) : Bool := s.start == nowhere

def startOffset? (s : Span) : Option UInt32 := if s.isUndefined then none else some s.start

def merge (a b : Span) : Span :=
  if a.isUndefined then b
  else if b.isUndefined then a
  else ⟨if a.start ≤ b.start then a.start else b.start, if a.stop ≤ b.stop then b.stop else a.stop⟩

def contains (s : Span) (offset : UInt32) : Bool :=
  !s.isUndefined && s.start ≤ offset && offset < s.stop

theorem isUndefined_undefined : undefined.isUndefined = true := rfl

theorem startOffset?_undefined : undefined.startOffset? = none := rfl

theorem merge_undefined_left (b : Span) : undefined.merge b = b := rfl

theorem merge_undefined_right (a : Span) (h : a.isUndefined = false) : a.merge undefined = a := by
  simp [merge, h, isUndefined_undefined]

/-- an offset that a span can start at is never the reserved one -/
theorem ne_nowhere_of_startOffset? {s : Span} {o : UInt32} (h : s.startOffset? = some o) :
    o ≠ nowhere := by
  unfold startOffset? isUndefined at h
  split at h
  · cases h
  · rename_i hs
    cases h
    intro e
    exact hs (by rw [e]; rfl)

end Span

end LinkRepair
