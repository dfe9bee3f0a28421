import Kodosi.Lib.Numerals
import Kodosi.Xlsx.Ranges

/-! Names of cells and what they name: each cell has one name, and every text that is read as a cell is its name
    but for the case of the letters and zeros in front of the row. -/

namespace Kodosi.Xlsx

open Lib

/-! ### Letters -/

/-- A letter, in upper case, is told by its number from 1 to 26. -/
theorem upper_letter {c : Char} (h : isAsciiAlphabetic c = true) :
    c.toUpper.toNat = letterNumber c + 64 ∧ 1 ≤ letterNumber c ∧ letterNumber c ≤ 26 := by
  have hascii : ∀ n < 128, isAsciiAlphabetic (.ofNat n) = true → (Char.ofNat n).toUpper.toNat = letterNumber (.ofNat n) + 64 ∧
      1 ≤ letterNumber (.ofNat n) ∧ letterNumber (.ofNat n) ≤ 26 := by decide
  have hlt : c.toNat < 128 := by
    simp only [isAsciiAlphabetic, Char.isLower, Char.isUpper, Bool.or_eq_true, Bool.and_eq_true, decide_eq_true_eq,
      ge_iff_le, UInt32.le_iff_toNat_le] at h
    have hz : 'z'.val.toNat = 122 := rfl
    have hZ : 'Z'.val.toNat = 90 := rfl
    have hc : c.toNat = c.val.toNat := rfl
    omega
  have hletter := hascii c.toNat hlt
  rw [Char.ofNat_toNat] at hletter
  exact hletter h

theorem lettersNumber_bijective (letters : List Char) :
    lettersNumber letters = ofBijective 26 (letters.map letterNumber) := by
  rw [lettersNumber, ofBijective, List.foldl_map]

/-- Letters that stand for one number are the same but for their case. -/
theorem upper_unique {letters others : List Char} (hletters : ∀ c ∈ letters, isAsciiAlphabetic c = true)
    (hothers : ∀ c ∈ others, isAsciiAlphabetic c = true) (h : lettersNumber letters = lettersNumber others) :
    letters.map Char.toUpper = others.map Char.toUpper := by
  have hrange : ∀ {cs : List Char}, (∀ c ∈ cs, isAsciiAlphabetic c = true) → ∀ d ∈ cs.map letterNumber, 1 ≤ d ∧ d ≤ 26 := by
    intro cs hcs d hd
    obtain ⟨c, hc, rfl⟩ := List.mem_map.mp hd
    exact (upper_letter (hcs c hc)).2
  have hback : ∀ {cs : List Char}, (∀ c ∈ cs, isAsciiAlphabetic c = true) →
      cs.map (fun c => c.toUpper.toNat) = (cs.map letterNumber).map (· + 64) := by
    intro cs hcs
    rw [List.map_map]
    exact List.map_congr_left fun c hc => (upper_letter (hcs c hc)).1
  rw [lettersNumber_bijective, lettersNumber_bijective] at h
  have hsame := ofBijective_inj (hrange hletters) (hrange hothers) h
  refine List.map_injective_iff.mpr (fun _ _ => Char.toNat_inj.mp) ?_
  rw [List.map_map, List.map_map]
  exact (hback hletters).trans (hsame ▸ (hback hothers).symm)

theorem columnName_upper (column : UInt32) : (columnName column).toList.map Char.toUpper = (columnName column).toList := by
  obtain ⟨name, hname, -, hupper⟩ := columnLetters_eq column []
  rw [columnName, String.toList_ofList, hname, List.append_nil]
  exact (List.map_congr_left hupper).trans (List.map_id name)

/-! ### What is read -/

theorem checked_some {n : Nat} {k : UInt32} (h : checked n = some k) : n < 2 ^ 32 ∧ k.toNat = n := by
  rw [checked] at h
  split_ifs at h with hlt
  obtain rfl := Option.some.inj h
  exact ⟨hlt, by rw [UInt32.toNat_ofNat', Nat.mod_eq_of_lt hlt]⟩

theorem addLetter_some {column next : UInt32} {c : Char} (h : addLetter column c = some next) :
    isAsciiAlphabetic c = true ∧ next.toNat = column.toNat * 26 + letterNumber c := by
  rw [addLetter] at h
  split_ifs at h with hc
  obtain ⟨more, hmore, hnext⟩ := Option.bind_eq_some_iff.mp h
  rw [(checked_some hnext).2, (checked_some hmore).2, letterNumber]
  exact ⟨hc, by omega⟩

theorem addLetters_some : ∀ {letters : List Char} {column k : UInt32}, letters.foldlM addLetter column = some k →
    (∀ c ∈ letters, isAsciiAlphabetic c = true) ∧
      k.toNat = letters.foldl (fun n c => n * 26 + letterNumber c) column.toNat
  | [], column, k, h => by
    obtain rfl := Option.some.inj h
    exact ⟨nofun, rfl⟩
  | c :: letters, column, k, h => by
    obtain ⟨next, hnext, h⟩ := Option.bind_eq_some_iff.mp h
    obtain ⟨hc, hnumber⟩ := addLetter_some hnext
    obtain ⟨hletters, hk⟩ := addLetters_some h
    exact ⟨List.forall_mem_cons.mpr ⟨hc, hletters⟩, by rw [hk, hnumber, List.foldl_cons]⟩

/-- Letters are read as a column exactly where they stand for it and its number, one more, is a number still. -/
theorem columnNumber_some {letters : List Char} {column : UInt32} :
    columnNumber letters = some column ↔ Spells letters column ∧ column.toNat + 1 < 2 ^ 32 := by
  refine ⟨fun h => ?_, fun ⟨hspells, hlast⟩ => columnNumber_spells hspells hlast⟩
  obtain ⟨k, hk, h⟩ : ∃ k, letters.foldlM addLetter 0 = some k ∧ (if 1 ≤ k then some (k - 1) else none) = some column :=
    Option.bind_eq_some_iff.mp h
  split_ifs at h with hpos
  obtain rfl := Option.some.inj h
  obtain ⟨halpha, hnumber⟩ := addLetters_some hk
  have hlast := sub_one_lt hpos
  have hback : (k - 1).toNat + 1 = k.toNat := by
    have hone : (1 : UInt32).toNat = 1 := rfl
    rw [UInt32.toNat_sub_of_le _ _ hpos]
    rw [UInt32.le_iff_toNat_le] at hpos
    omega
  refine ⟨⟨?_, halpha, hnumber.symm.trans hback.symm⟩, hlast⟩
  rintro rfl
  obtain rfl := Option.some.inj hk
  exact absurd hpos (by decide)

/-- Digits are read as the number that they stand for. -/
theorem parseU32_some {digits : List Char} {n : UInt32} (h : parseU32 digits = some n) :
    (∀ c ∈ digits, c.isDigit = true) ∧ Nat.ofDigitChars 10 digits 0 = n.toNat := by
  rw [parseU32] at h
  split_ifs at h with hdigits
  exact ⟨List.all_eq_true.mp hdigits.2, (checked_some h).2.symm⟩

/-! ### Names and texts -/

/-- A text is a name but for the case of the letters and zeros in front of the row. -/
def LikeName (name text : List Char) : Prop :=
  ∃ letters zeros row, (∀ c ∈ letters, isAsciiAlphabetic c = true) ∧ (∀ c ∈ row, c.isDigit = true) ∧
    text = letters ++ (List.replicate zeros '0' ++ row) ∧ name = letters.map Char.toUpper ++ row

theorem parseCell_like {text : List Char} {row column : UInt32} (h : parseCell text = some (row, column)) :
    LikeName (cellName row column).toList text := by
  rw [parseCell, List.span_eq_takeWhile_dropWhile] at h
  obtain ⟨number, hnumber, h⟩ := Option.bind_eq_some_iff.mp h
  obtain ⟨column', hcolumn, h⟩ := Option.bind_eq_some_iff.mp h
  split_ifs at h with hpos
  obtain ⟨rfl, rfl⟩ := Prod.mk.inj (Option.some.inj h)
  obtain ⟨hspells, -⟩ := columnNumber_some.mp hcolumn
  obtain ⟨hdigits, hvalue⟩ := parseU32_some hnumber
  have hnext : (number - 1 + 1).toNat = number.toNat := by rw [UInt32.sub_add_cancel]
  have hone : 1 ≤ number.toNat := UInt32.le_iff_toNat_le.mp hpos
  obtain ⟨zeros, hrow⟩ := zeros_toDigits hdigits (by rw [hvalue]; exact hone)
  have hname := spells_columnName column'
  have hupper := upper_unique hname.alphabetic hspells.alphabetic (hname.number.trans hspells.number.symm)
  rw [columnName_upper] at hupper
  refine ⟨text.takeWhile (!·.isDigit), zeros, (number - 1 + 1).toNat.repr.toList, hspells.alphabetic, (isDigit_repr _).2, ?_, ?_⟩
  · rw [hnext, Nat.toList_repr, ← hvalue, ← hrow, List.takeWhile_append_dropWhile]
  · rw [cellName, String.toList_append, hupper]

/-- Names of cells and what they name: a column, a cell and a range are read back from their names, and a text that is
    read as a cell is its name but for the case of the letters and zeros in front of the row. -/
theorem cell_names : (∀ column : UInt32, column.toNat < 2 ^ 32 - 1 → columnNumber (columnName column).toList = some column) ∧
    (∀ row column : UInt32, row.toNat < 2 ^ 32 - 1 → column.toNat < 2 ^ 32 - 1 →
      parseCell (cellName row column).toList = some (row, column)) ∧
    (∀ r : Range, r.Named → parseRange (rangeName r).toList = some r) ∧
    ∀ text row column, parseCell text = some (row, column) → LikeName (cellName row column).toList text :=
  ⟨fun column h => columnNumber_spells (spells_columnName column) (by omega),
    fun _ _ hrow hcolumn => parseCell_name (by omega) (by omega), fun _ => parseRange_name,
    fun _ _ _ => parseCell_like⟩

/-- The names at a cell of the column ZZ, which a text names in lower case and with zeros. -/
theorem cell_names_zz : columnNumber (columnName 701).toList = some 701 ∧
    parseCell (cellName 1 701).toList = some (1, 701) ∧
    parseRange (rangeName ⟨0, 25, 1, 701⟩).toList = some ⟨0, 25, 1, 701⟩ ∧
    LikeName (cellName 1 701).toList ['z', 'z', '0', '0', '2'] :=
  ⟨cell_names.1 701 (by decide), cell_names.2.1 1 701 (by decide) (by decide),
    cell_names.2.2.1 ⟨0, 25, 1, 701⟩ ⟨by decide, by decide, by decide, by decide⟩,
    cell_names.2.2.2 ['z', 'z', '0', '0', '2'] 1 701 (by decide)⟩

end Kodosi.Xlsx
