import LinkRepair.Diagnostic.Basic
import LinkRepair.Proofs.Source.Lines

/-!
# Locations of offsets

A location counts lines and columns from one, as signed words.  A line or a column that is too large for
that wraps, and one of them wraps to the number that stands for an unknown one.

* `toInt_fromOne`                the signed number that a word becomes;
* `one_le_fromOne_iff`           the words that stay positive;
* `fromOne_eq_unknownNumber_iff` the word that is taken for an unknown number;
* `toUInt32_fromOne_sub_one`     no word is lost;
* `Forest.locate_wraps`          which offsets have a proper location.
-/

namespace LinkRepair

/-! ## signed numbers counted from one -/

section
variable (n : UInt32)

theorem toInt_fromOne : (fromOne n).toInt = ((n.toNat : Int) + 1).bmod (2 ^ 32) := by
  have hn : n.toInt32.toInt = (n.toNat : Int).bmod (2 ^ 32) := BitVec.toInt_eq_toNat_bmod n.toBitVec
  have hone : (1 : Int32).toInt = 1 := rfl
  rw [fromOne, Int32.toInt_add, hn, hone, Int.bmod_add_bmod]

/-- **A number counted from one is positive** only if the word is one of the lower half, the last of them
apart. -/
theorem one_le_fromOne_iff : 1 ≤ fromOne n ↔ n.toNat < 2 ^ 31 - 1 := by
  have hlt := n.toNat_lt
  have hone : (1 : Int32).toInt = 1 := rfl
  rw [Int32.le_iff_toInt_le, toInt_fromOne, hone, Int.bmod_def]
  split <;> omega

theorem fromOne_eq_unknownNumber_iff : fromOne n = unknownNumber ↔ n.toNat = 2 ^ 32 - 2 := by
  have hlt := n.toNat_lt
  have hunknown : unknownNumber.toInt = -1 := rfl
  rw [← Int32.toInt_inj, toInt_fromOne, hunknown, Int.bmod_def]
  split <;> omega

/-- the word is found again, whatever it is -/
theorem toUInt32_fromOne_sub_one : (fromOne n - 1).toUInt32 = n := by
  rw [fromOne, Int32.add_sub_cancel, UInt32.toUInt32_toInt32]

/-- a positive number is the word and one more -/
theorem toInt_fromOne_of_lt (h : n.toNat < 2 ^ 31 - 1) : (fromOne n).toInt = n.toNat + 1 := by
  rw [toInt_fromOne, Int.bmod_def]
  split <;> omega

end

/-! ## locations -/

namespace Forest

/-- the location of an offset in a file that is there -/
theorem locate_some (F : Forest) {f : FileId} {file : SourceFile} (hf : F.file? f = some file)
    (o : UInt32) : F.locate f (some o) = some ⟨F.name ++ " @ " ++ file.path,
      fromOne (UInt32.ofNat (file.lines.line o)), fromOne (file.lines.column o)⟩ := by
  rw [locate, hf]
  rfl

/-- **Which offsets have a proper location.**  A line and a column are positive as long as fewer than
`2 ^ 31 - 1` of them come before, and a number is taken for an unknown one after `2 ^ 32 - 2`.  In words the
offset is always found again, and in numbers if they are positive. -/
theorem locate_wraps (F : Forest) {f : FileId} {file : SourceFile} {span : Span} {o : UInt32}
    (hf : F.file? f = some file) (ht : file.lines.Orderly) (ho : span.startOffset? = some o) :
    ∃ l, F.locate f (some o) = some l
      ∧ (1 ≤ l.line ↔ file.lines.line o % 2 ^ 32 < 2 ^ 31 - 1)
      ∧ (1 ≤ l.column ↔ (file.lines.column o).toNat < 2 ^ 31 - 1)
      ∧ (l.isUndefined = true ↔ file.lines.line o % 2 ^ 32 = 2 ^ 32 - 2
        ∨ o.toNat = 2 ^ 32 - 2 ∧ file.lines.start (file.lines.line o) = 0)
      ∧ (file.lines.starts.length ≤ 2 ^ 32 →
        file.lines.start (l.line - 1).toUInt32.toNat + (l.column - 1).toUInt32 = o
          ∧ (1 ≤ l.line → 1 ≤ l.column →
            (file.lines.start (l.line.toInt - 1).toNat).toNat + (l.column.toInt - 1) = o.toNat)) := by
  have hlocate := F.locate_some hf o
  have hsum := ht.start_add_column (o := o)
  have hne := Span.ne_nowhere_of_startOffset? ho
  have hword : (UInt32.ofNat (file.lines.line o)).toNat = file.lines.line o % 2 ^ 32 := UInt32.toNat_ofNat'
  generalize hrow : UInt32.ofNat (file.lines.line o) = row at hlocate hword
  generalize hposition : file.lines.column o = position at hlocate hsum
  have hlast : position.toNat = 2 ^ 32 - 2
      ↔ o.toNat = 2 ^ 32 - 2 ∧ file.lines.start (file.lines.line o) = 0 := by
    have hlt := o.toNat_lt
    have hne' : o.toNat ≠ 2 ^ 32 - 1 := fun e => hne (UInt32.toNat_inj.mp (e.trans rfl))
    rw [← UInt32.toNat_inj, UInt32.toNat_zero]
    omega
  refine ⟨_, hlocate, ?_, one_le_fromOne_iff position, ?_, fun hlength => ?_⟩
  · rw [← hword]
    exact one_le_fromOne_iff row
  · rw [Location.isUndefined, Bool.or_eq_true, beq_iff_eq, beq_iff_eq, ← hword, ← hlast]
    exact or_congr (fromOne_eq_unknownNumber_iff row) (fromOne_eq_unknownNumber_iff position)
  · have hline : row.toNat = file.lines.line o := by
      rw [hword, Nat.mod_eq_of_lt (Nat.lt_of_lt_of_le (ht.line_lt o) hlength)]
    dsimp only
    refine ⟨?_, fun hpositive hpositive' => ?_⟩
    · rw [toUInt32_fromOne_sub_one, toUInt32_fromOne_sub_one, hline]
      rw [← UInt32.toNat_inj, UInt32.toNat_add, hsum, Nat.mod_eq_of_lt o.toNat_lt]
    · rw [toInt_fromOne_of_lt _ ((one_le_fromOne_iff _).mp hpositive),
        toInt_fromOne_of_lt _ ((one_le_fromOne_iff _).mp hpositive'), hline, Int.add_sub_cancel,
        Int.toNat_natCast, Int.add_sub_cancel, ← hsum, Int.natCast_add]

/-- a forest with one file, without a newline -/
def oneLine : Forest := { Forest.named "m" with files := #[⟨"a", .ofText "", "p", []⟩] }

/-- the last offset but the reserved one: the column is taken for an unknown one, and the location names
the file alone -/
theorem locate_lastOffset : (∃ file, oneLine.file? ⟨0⟩ = some file ∧ file.lines.Orderly)
    ∧ (⟨0xFFFFFFFE, 0xFFFFFFFE⟩ : Span).startOffset? = some 0xFFFFFFFE
    ∧ ∃ l, oneLine.locate ⟨0⟩ (some 0xFFFFFFFE) = some l ∧ l.isUndefined = true ∧ ¬ 1 ≤ l.column
      ∧ l.text = "m @ a" := by
  have hf : oneLine.file? ⟨0⟩ = some ⟨"a", .ofText "", "p", []⟩ := rfl
  have ht : (LineTable.ofText "").Orderly := LineTable.orderly_ofText (by decide)
  have ho : (⟨0xFFFFFFFE, 0xFFFFFFFE⟩ : Span).startOffset? = some 0xFFFFFFFE := by decide
  refine ⟨⟨_, hf, ht⟩, ho, ?_⟩
  obtain ⟨l, hl, _, hcolumn, hundefined, _⟩ := oneLine.locate_wraps hf ht ho
  have hlost : l.isUndefined = true := hundefined.mpr (.inr ⟨by decide, by decide⟩)
  refine ⟨l, hl, hlost, fun h => absurd (hcolumn.mp h) (by decide), ?_⟩
  rw [Location.text_of_isUndefined hlost]
  rw [oneLine.locate_some hf] at hl
  rw [← Option.some.inj hl]
  rfl

end Forest

end LinkRepair
