/-!
# Signatures

A signature is the serialized identity of a declaration: it survives when the declaration itself
is no longer there.

* `Signature.declared`    `package/Outer.Inner.name`, with a number that tells overloads apart;
* `Signature.accessor`    an accessor of a property, with its own signature beside the property's;
* `Signature.text`        the written form, in which an accessor shows its own part only;
* `Signature.guessName`   the last dotted segments of the declaration's name.

Dotted names are cut with `List.splitOn` and joined with `List.intercalate`, which are inverse to
each other on names without a dot.
-/

namespace LinkRepair

/-- the names of nested declarations, outermost first, as one dotted name -/
def dottedName (names : List String) : String :=
  String.ofList (List.intercalate ['.'] (names.map String.toList))

/-- the segments of a dotted name -/
def dottedSegments (name : String) : List String :=
  (name.toList.splitOn '.').map String.ofList

theorem toList_dottedName (names : List String) :
    (dottedName names).toList = List.intercalate ['.'] (names.map String.toList) := by
  simp [dottedName]

/-- names without a dot are found again in the dotted name -/
theorem dottedSegments_dottedName (names : List String) (hne : names ≠ [])
    (hdot : ∀ n ∈ names, '.' ∉ n.toList) : dottedSegments (dottedName names) = names := by
  unfold dottedSegments
  rw [toList_dottedName, List.splitOn_intercalate]
  · rw [List.map_map]
    have h : (String.ofList ∘ String.toList) = (id : String → String) := by
      funext s
      simp
    rw [h, List.map_id]
  · intro l hl
    obtain ⟨n, hn, rfl⟩ := List.mem_map.mp hl
    exact hdot n hn
  · simpa using hne

inductive Signature where
  | declared (package declaration : String) (id : Option UInt64)
  | accessor (property own : Signature)
deriving DecidableEq

namespace Signature

/-- a signature that needs no number -/
def plain (package declaration : String) : Signature := .declared package declaration none

def withId : Signature → UInt64 → Signature
  | .declared package declaration _, n => .declared package declaration (some n)
  | .accessor property own, n => .accessor property (own.withId n)

def isAccessor : Signature → Bool
  | .declared .. => false
  | .accessor .. => true

/-- the qualified name that the signature shows -/
def declaration : Signature → String
  | .declared _ declaration _ => declaration
  | .accessor _ own => own.declaration

/-- the last `count` segments of the qualified name, at least one; nothing for an empty name -/
def guessName (s : Signature) (count : Nat) : Option String :=
  if s.declaration = "" then none
  else
    let segments := dottedSegments s.declaration
    some (dottedName (segments.drop (segments.length - max count 1)))

def text : Signature → String
  | .declared package declaration none => package ++ "/" ++ declaration
  | .declared package declaration (some n) =>
    package ++ "/" ++ declaration ++ "|" ++ toString n.toNat
  | .accessor _ own => own.text

theorem text_accessor (property own : Signature) : (accessor property own).text = own.text := rfl

theorem isAccessor_withId (s : Signature) (n : UInt64) : (s.withId n).isAccessor = s.isAccessor := by
  cases s <;> rfl

/-- a number is not part of the name -/
theorem declaration_withId (s : Signature) (n : UInt64) :
    (s.withId n).declaration = s.declaration := by
  induction s with
  | declared => rfl
  | accessor _ own _ ih => exact ih

end Signature

end LinkRepair
