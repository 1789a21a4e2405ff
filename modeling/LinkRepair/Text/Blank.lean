/-!
# Blank characters

The characters of the Unicode property `White_Space`, and a text without those at its two ends.

* `isBlank`     membership in the property, by its twenty-five code points;
* `trimChars`   what is left between the first and the last character that is not blank.
-/

namespace LinkRepair.Text

/-- the code points of the property, as closed ranges -/
def blankRanges : List (Nat × Nat) :=
  [(0x0009, 0x000D), (0x0020, 0x0020), (0x0085, 0x0085), (0x00A0, 0x00A0), (0x1680, 0x1680),
    (0x2000, 0x200A), (0x2028, 0x2029), (0x202F, 0x202F), (0x205F, 0x205F), (0x3000, 0x3000)]

def isBlank (c : Char) : Bool := blankRanges.any fun r => r.1 ≤ c.toNat && c.toNat ≤ r.2

/-- twenty-five code points in all -/
theorem blankRanges_size : blankRanges.foldr (fun r n => r.2 + 1 - r.1 + n) 0 = 25 := rfl

/-- the characters of a list without the blanks at its ends -/
def trimChars (cs : List Char) : List Char :=
  ((cs.dropWhile isBlank).reverse.dropWhile isBlank).reverse

theorem trimChars_nil : trimChars [] = [] := rfl

/-- a blank in front is dropped -/
theorem trimChars_cons (c : Char) (cs : List Char) (h : isBlank c = true) :
    trimChars (c :: cs) = trimChars cs := by
  simp [trimChars, h]

end LinkRepair.Text
