import Kodosi.Xlsx.Lines

/-! The names of columns, cells and ranges read back as what they name, in either case of the letters. -/

namespace Kodosi.Xlsx

/-! ### Columns -/

/-- The number of a letter, from 1. -/
def letterNumber (c : Char) : Nat := c.toUpper.toNat - 'A'.toNat + 1

/-- The number that letters stand for, from 1. -/
def lettersNumber (letters : List Char) : Nat := letters.foldl (fun n c => n * 26 + letterNumber c) 0

theorem lettersNumber_append (letters more : List Char) :
    lettersNumber (letters ++ more) = more.foldl (fun n c => n * 26 + letterNumber c) (lettersNumber letters) :=
  List.foldl_append

/-- The letters of a column are letters, and stand for it. -/
structure Spells (letters : List Char) (column : UInt32) : Prop where
  some : letters ≠ []
  alphabetic : ∀ c ∈ letters, isAsciiAlphabetic c = true
  number : lettersNumber letters = column.toNat + 1

theorem letter_lt {n : UInt32} (h : n < 26) : isAsciiAlphabetic (letter n) = true ∧ (letter n).toUpper = letter n ∧
    letterNumber (letter n) = n.toNat + 1 := by
  have hall : ∀ k : Fin 26, isAsciiAlphabetic (letter (.ofNat k)) = true ∧ (letter (.ofNat k)).toUpper = letter (.ofNat k) ∧
      letterNumber (letter (.ofNat k)) = k.val + 1 := by decide
  have hlt : n.toNat < 26 := by simpa [UInt32.lt_iff_toNat_lt] using h
  have hn : UInt32.ofNat n.toNat = n := by simp
  simpa [hn] using hall ⟨n.toNat, hlt⟩

/-- The letters of a column, one round for each. -/
theorem columnLetters_eq (column : UInt32) : ∀ letters, ∃ name, columnLetters column letters = name ++ letters ∧
    Spells name column ∧ ∀ c ∈ name, c.toUpper = c := by
  induction hn : column.toNat using Nat.strong_induction_on generalizing column with
  | _ n ih =>
    intro letters
    rw [columnLetters]
    by_cases hsmall : column < 26
    · obtain ⟨halpha, hupper, hnumber⟩ := letter_lt hsmall
      refine ⟨[letter column], by rw [if_pos hsmall]; rfl, ⟨List.cons_ne_nil _ _, by simpa using halpha, ?_⟩, by simpa using hupper⟩
      simp [lettersNumber, hnumber]
    · have hbig : 26 ≤ column.toNat := by simpa [UInt32.lt_iff_toNat_lt] using hsmall
      have hdiv : (column / 26).toNat = column.toNat / 26 := by simp
      have hmod : (column % 26).toNat = column.toNat % 26 := by simp
      have hpos : 1 ≤ column / 26 := by
        rw [UInt32.le_iff_toNat_le, hdiv]
        show 1 ≤ _
        omega
      have hnext : (column / 26 - 1).toNat = column.toNat / 26 - 1 := by
        rw [UInt32.toNat_sub_of_le _ _ hpos, hdiv]
        rfl
      have hlast : column % 26 < 26 := by
        rw [UInt32.lt_iff_toNat_lt, hmod]
        exact Nat.mod_lt _ (by decide)
      obtain ⟨halpha, hupper, hnumber⟩ := letter_lt hlast
      obtain ⟨name, hname, hspells, huppers⟩ := ih (column / 26 - 1).toNat (by omega) (column / 26 - 1) rfl
        (letter (column % 26) :: letters)
      refine ⟨name ++ [letter (column % 26)], by rw [if_neg hsmall, hname, List.append_assoc]; rfl,
        ⟨by simp, fun c hc => ?_, ?_⟩, fun c hc => ?_⟩
      · rcases List.mem_append.mp hc with hc | hc
        · exact hspells.alphabetic c hc
        · rw [List.mem_singleton.mp hc]
          exact halpha
      · rw [lettersNumber_append, hspells.number, List.foldl_cons, List.foldl_nil, hnumber, hnext, hmod]
        omega
      · rcases List.mem_append.mp hc with hc | hc
        · exact huppers c hc
        · rw [List.mem_singleton.mp hc]
          exact hupper

theorem spells_columnName (column : UInt32) : Spells (columnName column).toList column := by
  obtain ⟨name, hname, hspells, -⟩ := columnLetters_eq column []
  rw [columnName, String.toList_ofList, hname, List.append_nil]
  exact hspells

theorem lettersNumber_mono : ∀ (letters : List Char) (n : Nat), n ≤ letters.foldl (fun n c => n * 26 + letterNumber c) n
  | [], n => le_rfl
  | c :: letters, n => by
    rw [List.foldl_cons]
    have := lettersNumber_mono letters (n * 26 + letterNumber c)
    omega

/-- One letter more of a column's number. -/
def addLetter (column : UInt32) (c : Char) : Option UInt32 :=
  if isAsciiAlphabetic c then do
    let column ← checked (column.toNat * 26)
    checked (column.toNat + (c.toUpper.toNat - 'A'.toNat) + 1)
  else none

theorem checked_lt {n : Nat} (h : n < 2 ^ 32) : ∃ k : UInt32, checked n = some k ∧ k.toNat = n :=
  ⟨.ofNat n, if_pos h, by rw [UInt32.toNat_ofNat', Nat.mod_eq_of_lt h]⟩

theorem addLetters : ∀ {letters : List Char} {column : UInt32}, (∀ c ∈ letters, isAsciiAlphabetic c = true) →
    letters.foldl (fun n c => n * 26 + letterNumber c) column.toNat < 2 ^ 32 →
    ∃ k : UInt32, letters.foldlM addLetter column = some k ∧
      k.toNat = letters.foldl (fun n c => n * 26 + letterNumber c) column.toNat
  | [], column, _, _ => ⟨column, rfl, rfl⟩
  | c :: letters, column, halpha, hlt => by
    rw [List.foldl_cons] at hlt ⊢
    obtain ⟨hc, hletters⟩ := List.forall_mem_cons.mp halpha
    have hmono := lettersNumber_mono letters (column.toNat * 26 + letterNumber c)
    obtain ⟨more, hmore, hmoreNat⟩ := checked_lt (show column.toNat * 26 < 2 ^ 32 by omega)
    obtain ⟨next, hnext, hnextNat⟩ := checked_lt (show more.toNat + (c.toUpper.toNat - 'A'.toNat) + 1 < 2 ^ 32 by
      rw [hmoreNat]
      exact lt_of_le_of_lt hmono hlt)
    have hstep : addLetter column c = some next := by
      rw [addLetter, if_pos hc, hmore]
      exact hnext
    have hnumber : next.toNat = column.toNat * 26 + letterNumber c := by
      rw [hnextNat, hmoreNat]
      rfl
    rw [← hnumber] at hlt ⊢
    obtain ⟨k, hk, hkNat⟩ := addLetters hletters hlt
    exact ⟨k, by rw [List.foldlM_cons, hstep]; exact hk, hkNat⟩

variable {letters : List Char}

/-- The letters of a column, in either case, read back as the column. -/
theorem columnNumber_spells {column : UInt32} (h : Spells letters column) (hlast : column.toNat + 1 < 2 ^ 32) :
    columnNumber letters = some column := by
  have hnumber : letters.foldl (fun n c => n * 26 + letterNumber c) (0 : UInt32).toNat = column.toNat + 1 := h.number
  obtain ⟨k, hk, hkNat⟩ := @addLetters letters 0 h.alphabetic (by rw [hnumber]; exact hlast)
  rw [hnumber] at hkNat
  have hpos : 1 ≤ k := by
    rw [UInt32.le_iff_toNat_le, hkNat]
    exact Nat.le_add_left 1 _
  have hcolumn : k - 1 = column := by
    rw [← UInt32.toNat_inj, UInt32.toNat_sub_of_le _ _ hpos, hkNat]
    rfl
  show (letters.foldlM addLetter 0).bind (fun column => if 1 ≤ column then some (column - 1) else none) = _
  rw [hk, Option.bind_some, if_pos hpos, hcolumn]

/-! ### Rows -/

theorem isDigit_repr (n : Nat) : n.repr.toList ≠ [] ∧ ∀ c ∈ n.repr.toList, c.isDigit = true := by
  rw [Nat.toList_repr]
  exact ⟨Nat.toDigits_ne_nil, fun c hc => Nat.isDigit_of_mem_toDigits (by decide) (by decide) hc⟩

theorem parseU32_repr (n : UInt32) : parseU32 n.toNat.repr.toList = some n := by
  obtain ⟨hsome, hdigits⟩ := isDigit_repr n.toNat
  obtain ⟨k, hk, hkNat⟩ := checked_lt n.toNat_lt
  rw [parseU32, if_pos ⟨hsome, List.all_eq_true.mpr hdigits⟩, Nat.toList_repr, Nat.ofDigitChars_ten_toDigits, hk,
    UInt32.toNat_inj.mp hkNat]

/-- The row after a row. -/
theorem toNat_next {row : UInt32} (h : row.toNat + 1 < 2 ^ 32) : (row + 1).toNat = row.toNat + 1 := by
  rw [UInt32.toNat_add]
  exact Nat.mod_eq_of_lt h

theorem next_sub {row : UInt32} (h : row.toNat + 1 < 2 ^ 32) : 1 ≤ row + 1 ∧ row + 1 - 1 = row := by
  have hpos : 1 ≤ row + 1 := by
    rw [UInt32.le_iff_toNat_le, toNat_next h]
    exact Nat.le_add_left 1 _
  refine ⟨hpos, ?_⟩
  rw [← UInt32.toNat_inj, UInt32.toNat_sub_of_le _ _ hpos, toNat_next h]
  rfl

/-! ### References -/

/-- A sign, if there is one. -/
def sign (fixed : Bool) : List Char := if fixed then ['$'] else []

/-- How the column of a reference is written: letters in either case, behind a sign when it is fixed. -/
inductive ColumnText : Option UInt32 → Bool → List Char → Prop
  | column {letters : List Char} {column : UInt32} (fixed : Bool) (hspells : Spells letters column) :
      ColumnText (some column) fixed (sign fixed ++ letters)
  | whole : ColumnText none false []

/-- How the row of a reference is written: its number from 1, behind a sign when it is fixed. -/
inductive RowText : Option UInt32 → Bool → List Char → Prop
  | row {row : UInt32} (fixed : Bool) (hlast : row.toNat + 1 < 2 ^ 32) :
      RowText (some row) fixed (sign fixed ++ (row + 1).toNat.repr.toList)
  | whole : RowText none false []

/-- How one end of a reference is written. It has a column or a row. -/
structure Reference.Text (r : Reference) (text : List Char) : Prop where
  split : ∃ column row, ColumnText r.column r.columnFixed column ∧ RowText r.row r.rowFixed row ∧ text = column ++ row
  some : r.column.isSome ∨ r.row.isSome

/-- An end that is a whole row is not fixed. -/
def Reference.Free (r : Reference) : Prop := r.column = none → r.rowFixed = false

variable {text : List Char}

theorem dropSign_sign {fixed : Bool} (h : ∀ c ∈ text.head?, c ≠ '$') :
    dropSign (sign fixed ++ text) = (fixed, text) := by
  cases fixed with
  | true => rfl
  | false =>
    cases text with
    | nil => rfl
    | cons c text =>
      have hc : c ≠ '$' := h c rfl
      show dropSign (c :: text) = _
      unfold dropSign
      split
      · rename_i heq
        exact absurd (List.cons.inj heq).1 hc
      · rfl

/-- A word ends where a letter of another kind stands. -/
theorem span_word {p : Char → Bool} {word rest : List Char} (hword : ∀ c ∈ word, p c = true)
    (hrest : ∀ c ∈ rest.head?, p c = false) : (word ++ rest).span p = (word, rest) := by
  rw [List.span_eq_takeWhile_dropWhile, List.takeWhile_append_of_pos hword, List.dropWhile_append_of_pos hword]
  cases rest with
  | nil => simp
  | cons c rest =>
    have hc : ¬p c = true := by
      rw [hrest c rfl]
      exact Bool.false_ne_true
    rw [List.takeWhile_cons_of_neg hc, List.dropWhile_cons_of_neg hc, List.append_nil]

variable {c : Char}

theorem isDigit_not_letter (h : c.isDigit = true) : isAsciiAlphabetic c = false ∧ c ≠ '$' := by
  refine ⟨?_, ?_⟩
  · simp only [Char.isDigit, isAsciiAlphabetic, Char.isLower, Char.isUpper, Bool.and_eq_true, decide_eq_true_eq, ge_iff_le,
      UInt32.le_iff_toNat_le, Bool.or_eq_false_iff, Bool.and_eq_false_iff, decide_eq_false_iff_not] at h ⊢
    have h9 : ('9' : Char).val.toNat = 57 := rfl
    have ha : ('a' : Char).val.toNat = 97 := rfl
    have hA : ('A' : Char).val.toNat = 65 := rfl
    omega
  · rintro rfl
    exact absurd h (by decide)

theorem isAsciiAlphabetic_not_sign (h : isAsciiAlphabetic c = true) : c ≠ '$' := by
  rintro rfl
  exact absurd h (by decide)

/-- The number of a row starts with a digit. -/
theorem repr_cons (n : Nat) : ∃ c digits, n.repr.toList = c :: digits ∧ c.isDigit = true := by
  obtain ⟨hsome, hdigits⟩ := isDigit_repr n
  obtain ⟨c, digits, hcons⟩ := List.exists_cons_of_ne_nil hsome
  exact ⟨c, digits, hcons, hdigits c (hcons ▸ List.mem_cons_self ..)⟩

/-- The row of a reference is no letter, and reads back. -/
theorem RowText.reads {row : Option UInt32} {fixed : Bool} (h : RowText row fixed text) :
    (∀ c ∈ text.head?, isAsciiAlphabetic c = false) ∧ ∃ digits, dropSign text = (fixed, digits) ∧
      ((digits = [] ∧ row = none) ∨ (digits ≠ [] ∧ ∃ k, parseU32 digits = some k ∧ 1 ≤ k ∧ row = some (k - 1))) := by
  cases h with
  | row fixed hlast =>
    rename_i row
    obtain ⟨c, digits, hcons, hdigit⟩ := repr_cons (row + 1).toNat
    obtain ⟨hletter, hsign⟩ := isDigit_not_letter hdigit
    obtain ⟨hpos, hback⟩ := next_sub hlast
    refine ⟨?_, (row + 1).toNat.repr.toList, dropSign_sign ?_, ?_⟩
    · cases fixed with
      | true => simp [sign, isAsciiAlphabetic]
      | false =>
        show ∀ c' ∈ (row + 1).toNat.repr.toList.head?, _
        rw [hcons]
        rintro c' ⟨⟩
        exact hletter
    · rw [hcons]
      rintro c' ⟨⟩
      exact hsign
    · exact .inr ⟨(isDigit_repr _).1, row + 1, parseU32_repr _, hpos, by rw [hback]⟩
  | whole => exact ⟨by simp, [], rfl, .inl ⟨rfl, rfl⟩⟩

theorem dropSign_false {digits : List Char} (h : dropSign text = (false, digits)) : text = digits := by
  unfold dropSign at h
  split at h
  · exact absurd (congrArg Prod.fst h) (by simp)
  · exact congrArg Prod.snd h

variable {r : Reference}

/-- An end of a reference reads back, but for a fixed whole row. -/
theorem parseReference_text (h : r.Text text) (hfree : r.Free) (hlast : ∀ column ∈ r.column, column < 18278) :
    parseReference text = some r := by
  obtain ⟨⟨column, row, hcolumn, hrow, rfl⟩, hsome⟩ := h
  obtain ⟨rowValue, columnValue, rowFixed, columnFixed⟩ := r
  dsimp only at hcolumn hrow hsome
  obtain ⟨hhead, digits, hdigits, hvalue⟩ := hrow.reads
  cases hcolumn with
  | column fixed hspells =>
    rename_i letters columnValue
    have hlast := hlast columnValue rfl
    obtain ⟨c, letters', hcons⟩ := List.exists_cons_of_ne_nil hspells.some
    have hsign : dropSign ((sign columnFixed ++ letters) ++ row) = (columnFixed, letters ++ row) := by
      rw [List.append_assoc]
      refine dropSign_sign ?_
      rw [hcons]
      rintro c' ⟨⟩
      exact isAsciiAlphabetic_not_sign (hspells.alphabetic c (hcons ▸ List.mem_cons_self ..))
    have hsmall : columnValue.toNat + 1 < 2 ^ 32 := by
      have := UInt32.lt_iff_toNat_lt.mp hlast
      have h18278 : (18278 : UInt32).toNat = 18278 := rfl
      omega
    rw [parseReference, hsign]
    dsimp only
    rw [span_word hspells.alphabetic hhead]
    dsimp only
    rw [if_neg hspells.some, columnNumber_spells hspells hsmall, hdigits]
    rcases hvalue with ⟨hnone, rfl⟩ | ⟨hdigit, k, hk, hpos, rfl⟩
    · simp [hnone, hlast]
    · simp [hdigit, hk, hpos, hlast]
  | whole =>
    obtain rfl : rowFixed = false := hfree rfl
    obtain rfl := dropSign_false hdigits
    rw [List.nil_append, parseReference, hdigits]
    dsimp only
    have hspan : row.span isAsciiAlphabetic = ([], row) := @span_word isAsciiAlphabetic [] row (by simp) hhead
    rw [hspan]
    dsimp only
    rw [if_pos rfl, hdigits]
    rcases hvalue with ⟨hnone, rfl⟩ | ⟨hdigit, k, hk, hpos, rfl⟩
    · simp at hsome
    · simp [hdigit, hk, hpos]

/-- What `write` gives is how the end is written. -/
theorem Reference.text_write (hsome : r.column.isSome ∨ r.row.isSome)
    (hrow : ∀ row, r.row = some row → row.toNat + 1 < 2 ^ 32)
    (hfixed : (r.column = none → r.columnFixed = false) ∧ (r.row = none → r.rowFixed = false)) : r.Text r.write := by
  obtain ⟨row, column, rowFixed, columnFixed⟩ := r
  refine ⟨⟨_, _, ?_, ?_, rfl⟩, hsome⟩
  · cases column with
    | none =>
      obtain rfl : columnFixed = false := hfixed.1 rfl
      exact .whole
    | some column => exact .column columnFixed (spells_columnName column)
  · cases row with
    | none =>
      obtain rfl : rowFixed = false := hfixed.2 rfl
      exact .whole
    | some row => exact .row rowFixed (hrow row rfl)

/-! ### Case -/

theorem toUpper_toNat (h : isAsciiAlphabetic c = true) : 65 ≤ c.toUpper.toNat ∧ c.toUpper.toNat ≤ 90 := by
  have ha : ('a' : Char).val.toNat = 97 := rfl
  have hA : ('A' : Char).val.toNat = 65 := rfl
  have hz : ('z' : Char).val.toNat = 122 := rfl
  have hZ : ('Z' : Char).val.toNat = 90 := rfl
  simp only [isAsciiAlphabetic, Char.isLower, Char.isUpper, Bool.or_eq_true, Bool.and_eq_true, decide_eq_true_eq, ge_iff_le,
    UInt32.le_iff_toNat_le, ha, hA, hz, hZ] at h
  unfold Char.toUpper
  split_ifs with hlower
  · rw [UInt32.le_iff_toNat_le, UInt32.le_iff_toNat_le, ha, hz] at hlower
    show 65 ≤ (c.val + ('A'.val - 'a'.val)).toNat ∧ (c.val + ('A'.val - 'a'.val)).toNat ≤ 90
    have hsum : (c.val + ('A'.val - 'a'.val)).toNat = (c.val.toNat + 4294967264) % 2 ^ 32 := UInt32.toNat_add ..
    omega
  · rw [UInt32.le_iff_toNat_le, UInt32.le_iff_toNat_le, ha, hz] at hlower
    show 65 ≤ c.val.toNat ∧ c.val.toNat ≤ 90
    omega

theorem lettersNumber_concat (letters : List Char) (c : Char) :
    lettersNumber (letters ++ [c]) = lettersNumber letters * 26 + letterNumber c := by
  rw [lettersNumber_append]
  rfl

theorem lettersNumber_pos {letters : List Char} {c : Char} : 1 ≤ lettersNumber (letters ++ [c]) := by
  rw [lettersNumber_concat, letterNumber]
  omega

/-- Letters that stand for one number are the same but for their case. -/
theorem toUpper_of_number {letters' : List Char} (h : ∀ c ∈ letters, isAsciiAlphabetic c = true)
    (h' : ∀ c ∈ letters', isAsciiAlphabetic c = true) (hnumber : lettersNumber letters = lettersNumber letters') :
    letters.map Char.toUpper = letters'.map Char.toUpper := by
  induction letters using List.reverseRecOn generalizing letters' with
  | nil =>
    rcases List.eq_nil_or_concat letters' with rfl | ⟨more', c', rfl⟩
    · rfl
    · have := @lettersNumber_pos more' c'
      rw [← List.concat_eq_append, ← hnumber] at this
      exact absurd this (by decide)
  | append_singleton more c ih =>
    rcases List.eq_nil_or_concat letters' with rfl | ⟨more', c', rfl⟩
    · have := @lettersNumber_pos more c
      rw [hnumber] at this
      exact absurd this (by decide)
    rw [List.concat_eq_append] at h' hnumber ⊢
    obtain ⟨hmore, hc⟩ := List.forall_mem_append.mp h
    obtain ⟨hmore', hc'⟩ := List.forall_mem_append.mp h'
    obtain ⟨hle, hge⟩ := toUpper_toNat (hc c (List.mem_singleton_self c))
    obtain ⟨hle', hge'⟩ := toUpper_toNat (hc' c' (List.mem_singleton_self c'))
    have hA : 'A'.toNat = 65 := rfl
    rw [lettersNumber_concat, lettersNumber_concat, letterNumber, letterNumber, hA] at hnumber
    have hsame : c.toUpper = c'.toUpper := Char.toNat_inj.mp (by omega)
    rw [List.map_append, List.map_append, ih hmore hmore' (by omega), List.map_singleton, List.map_singleton, hsame]

/-- An end of a reference is written with the letters it had, but for their case. -/
theorem Reference.Text.upper (h : r.Text text) : r.write.map Char.toUpper = text.map Char.toUpper := by
  obtain ⟨⟨column, row, hcolumn, hrow, rfl⟩, -⟩ := h
  obtain ⟨rowValue, columnValue, rowFixed, columnFixed⟩ := r
  rw [Reference.write, List.map_append, List.map_append]
  congr 1
  · cases hcolumn with
    | column fixed hspells =>
      have hname := spells_columnName ‹UInt32›
      rw [List.map_append, List.map_append,
        toUpper_of_number hname.alphabetic hspells.alphabetic (hname.number.trans hspells.number.symm)]
      rfl
    | whole => rfl
  · cases hrow with
    | row fixed hlast => rfl
    | whole => rfl

end Kodosi.Xlsx
