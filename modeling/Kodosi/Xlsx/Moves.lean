import Kodosi.Xlsx.Apply
import Kodosi.Xlsx.Lines

/-! What an accepted move of lines does to the lines of a sheet's grid. -/

namespace Kodosi.Xlsx

namespace Shift

variable {s : Shift} {l first last : UInt32}

/-- What is checked before lines move. -/
def Accepted (s : Shift) : Prop := s.count ≠ 0 ∧ (s.at'.toNat : Int) + s.count.abs.toInt ≤ MOST_LINES

/-- The number of lines is itself without a sign, but for the least of all. -/
theorem toInt_abs (count : Int32) :
    count.abs.toInt = if count.toInt = -2 ^ 31 then -2 ^ 31 else (count.toInt.natAbs : Int) := by
  have hmin : count.toBitVec = BitVec.intMin 32 ↔ count.toInt = -2 ^ 31 := by
    rw [← BitVec.toInt_inj]
    exact Iff.rfl
  have hmsb : count.toBitVec.msb = decide (count.toInt < 0) := BitVec.msb_eq_toInt
  show count.toBitVec.abs.toInt = _
  rw [BitVec.toInt_abs_eq_ite]
  by_cases h : count.toInt = -2 ^ 31
  · rw [if_pos (hmin.mpr h), if_pos h]
    rfl
  · rw [if_neg (fun h' => h (hmin.mp h')), if_neg h, hmsb]
    show (if decide (count.toInt < 0) = true then -count.toInt else count.toInt) = _
    by_cases hneg : count.toInt < 0
    · rw [if_pos (decide_eq_true hneg)]
      omega
    · rw [if_neg (by simpa using hneg)]
      omega

theorem Accepted.cases (h : s.Accepted) : s.at'.toNat + s.size ≤ 1048576 ∨ (s.count < 0 ∧ s.size = 2 ^ 31) := by
  have hle := h.2
  rw [toInt_abs] at hle
  rw [Int32.lt_iff_toInt_lt, size]
  show _ ∨ (s.count.toInt < 0 ∧ _)
  split_ifs at hle with hmin
  · exact .inr (by omega)
  · rw [MOST_LINES] at hle
    exact .inl (by omega)

/-- Deleted lines that end past all numbers are past the grid. -/
theorem Accepted.ends (h : s.Accepted) : s.Ends ∨ (s.count < 0 ∧ 1048576 ≤ s.at'.toNat) := by
  rcases h.cases with h | ⟨hneg, hsize⟩
  · exact .inl fun _ => by omega
  · by_cases hends : s.at'.toNat + s.size < 2 ^ 32
    · exact .inl fun _ => hends
    · exact .inr ⟨hneg, by omega⟩

theorem Accepted.reaches (h : s.Accepted) (hl : l.toNat < 1048576) : s.Reaches l := by
  intro hcount _
  rcases h.cases with h | ⟨hneg, -⟩
  · omega
  · exact absurd hcount (Int32.not_le.mpr hneg)

theorem after_lt (h : s.Accepted) (hlast : last.toNat < 1048576) (hl : l ∈ s.after (between first last)) :
    l.toNat < 2097152 := by
  rcases h.ends with hends | ⟨hcount, hat⟩
  · by_cases hcount : 0 ≤ s.count
    · have hreach := h.reaches hlast
      rw [mem_after_insert hcount hreach] at hl
      rcases h.cases with hsize | ⟨hneg, -⟩
      · rcases hl with ⟨n, -, hn, hl⟩ | ⟨-, hl, -, -⟩
        · split_ifs at hl <;> omega
        · omega
      · exact absurd hcount (Int32.not_le.mpr hneg)
    · rw [mem_after_delete (Int32.not_le.mp hcount) hends] at hl
      omega
  · rw [after_before hcount (UInt32.lt_iff_toNat_lt.mpr (by omega)), mem_between] at hl
    omega

/-- What an accepted move makes of some lines of the grid. -/
theorem span_grid (h : s.Accepted) (hlast : last.toNat < 1048576) (hle : first ≤ last) :
    (s.span first last = none ∧ s.after (between first last) = ∅) ∨
      ∃ a b, s.span first last = some (a, b) ∧ a ≤ b ∧ between a b = s.after (between first last) := by
  rcases h.ends with hends | ⟨hcount, hat⟩
  · have hfirst : s.Reaches first := h.reaches (lt_of_le_of_lt (UInt32.le_iff_toNat_le.mp hle) hlast)
    have hcovers := span_covers hends hfirst (h.reaches hlast)
    cases hspan : s.span first last with
    | none =>
      rw [hspan] at hcovers
      exact .inl ⟨rfl, hcovers.symm⟩
    | some span =>
      obtain ⟨a, b⟩ := span
      rw [hspan] at hcovers
      exact .inr ⟨a, b, rfl, span_ordered hends hfirst (h.reaches hlast) hspan hle, hcovers⟩
  · have hbefore : last < s.at' := UInt32.lt_iff_toNat_lt.mpr (by omega)
    refine .inr ⟨first, last, ?_, hle, (after_before hcount hbefore).symm⟩
    exact span_of_lines (line_before hcount (UInt32.lt_of_le_of_lt hle hbefore)) (line_before hcount hbefore)

/-- What an accepted move makes of one line of the grid. -/
theorem line_grid (h : s.Accepted) (hl : l.toNat < 1048576) :
    (s.line l = none ∧ s.after (between l l) = ∅) ∨ ∃ k, s.line l = some k ∧ between k k = s.after (between l l) := by
  rcases h.ends with hends | ⟨hcount, hat⟩
  · have hcovers := line_covers hends (h.reaches hl)
    cases hline : s.line l with
    | none =>
      rw [hline] at hcovers
      exact .inl ⟨rfl, hcovers.symm⟩
    | some k =>
      rw [hline] at hcovers
      exact .inr ⟨k, rfl, hcovers⟩
  · have hbefore : l < s.at' := UInt32.lt_iff_toNat_lt.mpr (by omega)
    exact .inr ⟨l, line_before hcount hbefore, (after_before hcount hbefore).symm⟩

end Shift

end Kodosi.Xlsx
