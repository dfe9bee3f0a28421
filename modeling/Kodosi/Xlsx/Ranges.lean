import Kodosi.Xlsx.Names

/-! The names of cells and ranges, and lists of them, read back. -/

namespace Kodosi.Xlsx
open Kodosi.Lib

variable {row column : UInt32}

theorem parseCell_name (hrow : row.toNat + 1 < 2 ^ 32) (hcolumn : column.toNat + 1 < 2 ^ 32) :
    parseCell (cellName row column).toList = some (row, column) := by
  have hspells := spells_columnName column
  obtain ⟨hpos, hback⟩ := next_sub hrow
  have hspan : (cellName row column).toList.span (!·.isDigit) =
      ((columnName column).toList, (row + 1).toNat.repr.toList) := by
    rw [cellName, String.toList_append]
    refine span_word (fun c hc => ?_) (fun c hc => ?_)
    · rw [Bool.not_eq_true']
      by_contra hdigit
      rw [Bool.not_eq_false] at hdigit
      exact absurd (hspells.alphabetic c hc) (by rw [(isDigit_not_letter hdigit).1]; decide)
    · obtain ⟨c', digits, hcons, hdigit⟩ := repr_cons (row + 1).toNat
      rw [hcons] at hc
      obtain rfl := Option.some.inj hc
      rw [hdigit]
      rfl
  rw [parseCell, hspan]
  show (parseU32 _).bind _ = _
  rw [parseU32_repr, Option.bind_some, columnNumber_spells hspells hcolumn]
  show (if 1 ≤ row + 1 then some (row + 1 - 1, column) else none) = _
  rw [if_pos hpos, hback]

theorem cellName_letters (row column : UInt32) :
    ∀ c ∈ (cellName row column).toList, isAsciiAlphabetic c = true ∨ c.isDigit = true := by
  intro c hc
  rw [cellName, String.toList_append] at hc
  rcases List.mem_append.mp hc with hc | hc
  · exact .inl ((spells_columnName column).alphabetic c hc)
  · exact .inr ((isDigit_repr _).2 c hc)

theorem cellName_plain {c : Char} (hc : c ∈ (cellName row column).toList) : c ≠ ':' ∧ isWhitespace c = false := by
  have hletter := cellName_letters row column c hc
  refine ⟨?_, ?_⟩
  · rintro rfl
    exact absurd hletter (by decide)
  · have ha : ('a' : Char).val.toNat = 97 := rfl
    have hA : ('A' : Char).val.toNat = 65 := rfl
    have hz : ('z' : Char).val.toNat = 122 := rfl
    have hZ : ('Z' : Char).val.toNat = 90 := rfl
    have h0 : ('0' : Char).val.toNat = 48 := rfl
    have h9 : ('9' : Char).val.toNat = 57 := rfl
    have hn : c.toNat = c.val.toNat := rfl
    simp only [isAsciiAlphabetic, Char.isLower, Char.isUpper, Char.isDigit, Bool.or_eq_true, Bool.and_eq_true, decide_eq_true_eq,
      ge_iff_le, UInt32.le_iff_toNat_le, ha, hA, hz, hZ, h0, h9] at hletter
    simp only [isWhitespace, hn, Bool.or_eq_false_iff, Bool.and_eq_false_iff, decide_eq_false_iff_not, beq_eq_false_iff_ne]
    omega

theorem cellName_some (row column : UInt32) : (cellName row column).toList ≠ [] := by
  rw [cellName, String.toList_append]
  exact List.append_ne_nil_of_left_ne_nil (spells_columnName column).some _

theorem rangeName_eq (r : Range) : (rangeName r).toList =
    if r.top = r.bottom ∧ r.left = r.right then (cellName r.top r.left).toList
    else (cellName r.top r.left).toList ++ ':' :: (cellName r.bottom r.right).toList := by
  rw [rangeName]
  split_ifs
  · rfl
  · simp [toString]

theorem rangeName_plain (r : Range) : (rangeName r).toList ≠ [] ∧ ∀ c ∈ (rangeName r).toList, isWhitespace c = false := by
  rw [rangeName_eq]
  split_ifs
  · exact ⟨cellName_some _ _, fun c hc => (cellName_plain hc).2⟩
  · refine ⟨List.append_ne_nil_of_left_ne_nil (cellName_some _ _) _, fun c hc => ?_⟩
    rcases List.mem_append.mp hc with hc | hc
    · exact (cellName_plain hc).2
    rcases List.mem_cons.mp hc with rfl | hc
    · rfl
    · exact (cellName_plain hc).2

/-- The lines of a range can be named. -/
structure Range.Named (r : Range) : Prop where
  top : r.top.toNat + 1 < 2 ^ 32
  left : r.left.toNat + 1 < 2 ^ 32
  bottom : r.bottom.toNat + 1 < 2 ^ 32
  right : r.right.toNat + 1 < 2 ^ 32

theorem parseRange_name {r : Range} (h : r.Named) : parseRange (rangeName r).toList = some r := by
  have hplain : ∀ {row column : UInt32}, ∀ c ∈ (cellName row column).toList, decide (c ≠ ':') = true :=
    fun c hc => decide_eq_true (cellName_plain hc).1
  obtain ⟨top, left, bottom, right⟩ := r
  rw [rangeName_eq]
  split_ifs with hsingle
  · obtain ⟨rfl, rfl⟩ : top = bottom ∧ left = right := hsingle
    have hspan : (cellName top left).toList.span (· ≠ ':') = ((cellName top left).toList, []) := by
      have := @span_word (· ≠ ':') (cellName top left).toList [] hplain (by simp)
      rwa [List.append_nil] at this
    rw [parseRange, hspan]
    dsimp only
    rw [parseCell_name h.top h.left]
    rfl
  · have hspan : ((cellName top left).toList ++ ':' :: (cellName bottom right).toList).span (· ≠ ':') =
        ((cellName top left).toList, ':' :: (cellName bottom right).toList) :=
      span_word hplain (by simp)
    dsimp only
    rw [parseRange, hspan]
    dsimp only
    rw [parseCell_name h.top h.left, parseCell_name h.bottom h.right]
    rfl

theorem sub_one_lt {n : UInt32} (h : 1 ≤ n) : (n - 1).toNat + 1 < 2 ^ 32 := by
  have hlt := n.toNat_lt
  rw [UInt32.toNat_sub_of_le _ _ h]
  rw [UInt32.le_iff_toNat_le] at h
  have hone : (1 : UInt32).toNat = 1 := rfl
  omega

theorem parseCell_lt {name : List Char} (h : parseCell name = some (row, column)) :
    row.toNat + 1 < 2 ^ 32 ∧ column.toNat + 1 < 2 ^ 32 := by
  rw [parseCell] at h
  generalize name.span (!·.isDigit) = parts at h
  obtain ⟨letters, digits⟩ := parts
  obtain ⟨row', -, h⟩ := Option.bind_eq_some_iff.mp h
  obtain ⟨column', hcolumn, h⟩ := Option.bind_eq_some_iff.mp h
  split_ifs at h with hpos
  obtain ⟨rfl, rfl⟩ := Prod.mk.inj (Option.some.inj h)
  refine ⟨sub_one_lt hpos, ?_⟩
  obtain ⟨number, -, hnumber⟩ := Option.bind_eq_some_iff.mp hcolumn
  split_ifs at hnumber with hpos'
  exact Option.some.inj hnumber ▸ sub_one_lt hpos'

/-- A range that was read can be named. -/
theorem named_of_parse {word : List Char} {r : Range} (h : parseRange word = some r) : r.Named := by
  rw [parseRange] at h
  obtain ⟨⟨top, left⟩, hfirst, h⟩ := Option.bind_eq_some_iff.mp h
  obtain ⟨⟨bottom, right⟩, hlast, h⟩ := Option.bind_eq_some_iff.mp h
  obtain rfl := Option.some.inj h
  exact ⟨(parseCell_lt hfirst).1, (parseCell_lt hfirst).2, (parseCell_lt hlast).1, (parseCell_lt hlast).2⟩

/-- The ranges of a list, as they are written. -/
def rangeWords (ranges : String) : List (List Char) := (ranges.toList.splitOnP isWhitespace).filter (· ≠ [])

theorem rangeWords_intercalate {names : List String} (h : ∀ name ∈ names, name.toList ≠ [] ∧ ∀ c ∈ name.toList, isWhitespace c = false) :
    rangeWords (" ".intercalate names) = names.map String.toList := by
  rw [rangeWords, String.toList_intercalate]
  induction names with
  | nil => rfl
  | cons name names ih =>
    obtain ⟨hname, hnames⟩ := List.forall_mem_cons.mp h
    cases names with
    | nil =>
      rw [List.map_singleton, List.intercalate_singleton, List.splitOnP_eq_singleton hname.2]
      simp [hname.1]
    | cons name' names =>
      have ih := ih hnames
      rw [List.map_cons, List.map_cons, List.intercalate_cons_cons, List.append_assoc]
      show ((_ ++ ' ' :: _).splitOnP isWhitespace).filter _ = _
      rw [List.splitOnP_append_cons_of_forall_mem hname.2 ' ' (by decide), List.filter_cons_of_pos (by simpa using hname.1)]
      rw [List.map_cons] at ih
      exact congrArg (name.toList :: ·) ih

end Kodosi.Xlsx
