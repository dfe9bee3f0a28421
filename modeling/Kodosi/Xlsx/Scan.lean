import Kodosi.Xlsx.Names
import Kodosi.Xlsx.References

/-! How the scan of a formula goes: one step for each kind of text that it meets. -/

namespace Kodosi.Xlsx

variable {isAlphanumeric : Char → Bool} {change : MapReference} {rest : List Char}

/-! ### Rounds -/

theorem quoted_length (quote : Char) : ∀ letters, (quoted quote letters).2.length ≤ letters.length
  | [] => le_rfl
  | c :: rest => by
    rw [quoted.eq_def]
    dsimp only
    split_ifs with hquote
    · cases rest with
      | nil => exact Nat.zero_le _
      | cons c' rest' =>
        dsimp only
        have := quoted_length quote rest'
        split_ifs <;> simp only [List.length_cons] <;> omega
    · exact le_trans (quoted_length quote rest) (by simp)
termination_by letters => letters.length

theorem span_length (p : Char → Bool) (letters : List Char) : (letters.span p).2.length ≤ letters.length := by
  rw [List.span_eq_takeWhile_dropWhile]
  exact (List.dropWhile_suffix p).length_le

theorem copyReference_length (sheet : Option (List Char)) (before letters : List Char) :
    (copyReference isAlphanumeric change sheet before letters).2.length ≤
      (letters.span (isNameLetter isAlphanumeric)).2.length := by
  have hsecond : ∀ rest : List Char, (secondEnd isAlphanumeric rest).2.length ≤ rest.length := by
    intro rest
    rw [secondEnd.eq_def]
    split
    · split
      · exact le_trans (span_length _ _) (by simp)
      · exact le_rfl
    · exact le_rfl
  cases hword : parseReference (letters.span (isNameLetter isAlphanumeric)).1 with
  | none => rw [copyReference_none hword]
  | some first =>
    rw [copyReference_some hword]
    dsimp only
    split_ifs
    · exact le_rfl
    · split <;> exact hsecond _

/-- More rounds than letters make no difference. -/
theorem mapReferencesFrom_rounds : ∀ {n m : Nat} {letters : List Char}, letters.length ≤ n → letters.length ≤ m →
    mapReferencesFrom isAlphanumeric change n letters = mapReferencesFrom isAlphanumeric change m letters
  | 0, 0, _, _, _ => rfl
  | 0, m + 1, letters, hn, _ => by
    obtain rfl := List.eq_nil_of_length_eq_zero (Nat.le_zero.mp hn)
    rfl
  | n + 1, 0, letters, _, hm => by
    obtain rfl := List.eq_nil_of_length_eq_zero (Nat.le_zero.mp hm)
    rfl
  | n + 1, m + 1, [], _, _ => rfl
  | n + 1, m + 1, c :: rest, hn, hm => by
    rw [List.length_cons] at hn hm
    have hround : ∀ {left : List Char}, left.length ≤ rest.length →
        mapReferencesFrom isAlphanumeric change n left = mapReferencesFrom isAlphanumeric change m left :=
      fun h => mapReferencesFrom_rounds (by omega) (by omega)
    rw [mapReferencesFrom, mapReferencesFrom]
    split_ifs with hquote hname hletter
    · dsimp only
      rw [hround (quoted_length _ _)]
    · have hleft := quoted_length '\'' rest
      generalize quoted '\'' rest = parts at hleft
      obtain ⟨text, left⟩ := parts
      dsimp only at hleft ⊢
      split
      · rename_i more
        have hcopy := @copyReference_length isAlphanumeric change (some (unquoted text.dropLast)) (c :: text ++ ['!']) more
        have hspan := span_length (isNameLetter isAlphanumeric) more
        rw [List.length_cons] at hleft
        rw [hround (by omega)]
      · rw [hround hleft]
    · have hspan : ((c :: rest).span (isNameLetter isAlphanumeric)).2.length ≤ rest.length := by
        rw [List.span_eq_takeWhile_dropWhile, List.dropWhile_cons_of_pos hletter]
        exact (List.dropWhile_suffix _).length_le
      have hcopy := @copyReference_length isAlphanumeric change none [] (c :: rest)
      generalize (c :: rest).span (isNameLetter isAlphanumeric) = parts at hspan hcopy
      obtain ⟨word, after⟩ := parts
      dsimp only at hspan hcopy ⊢
      split
      · rename_i more
        have hcopy := @copyReference_length isAlphanumeric change (some word) (word ++ ['!']) more
        have hmore := span_length (isNameLetter isAlphanumeric) more
        rw [List.length_cons] at hspan
        rw [hround (by omega)]
      · rw [hround hspan]
      · rw [hround (by omega)]
    · rw [hround le_rfl]

/-- A formula with each reference rewritten. -/
def rewritten (isAlphanumeric : Char → Bool) (change : MapReference) (letters : List Char) : List Char :=
  mapReferencesFrom isAlphanumeric change letters.length letters

theorem rewritten_eq {n : Nat} {letters : List Char} (h : letters.length ≤ n) :
    mapReferencesFrom isAlphanumeric change n letters = rewritten isAlphanumeric change letters :=
  mapReferencesFrom_rounds h le_rfl

/-! ### Steps -/

/-- A letter that is none of a name, and no quote, stays. -/
theorem rewritten_symbol {c : Char} (hletter : isNameLetter isAlphanumeric c = false) (hquote : c ≠ '"') (hname : c ≠ '\'') :
    rewritten isAlphanumeric change (c :: rest) = c :: rewritten isAlphanumeric change rest := by
  rw [rewritten, List.length_cons, mapReferencesFrom, if_neg hquote, if_neg hname, if_neg (by simp [hletter]), rewritten_eq le_rfl]

/-- Text in quotes stays. -/
theorem rewritten_literal {text left : List Char} (h : quoted '"' rest = (text, left)) :
    rewritten isAlphanumeric change ('"' :: rest) = '"' :: text ++ rewritten isAlphanumeric change left := by
  have hlength : left.length ≤ rest.length := by
    rw [show left = (quoted '"' rest).2 by rw [h]]
    exact quoted_length _ _
  rw [rewritten, List.length_cons, mapReferencesFrom, if_pos rfl, h]
  dsimp only
  rw [rewritten_eq hlength]

/-- Behind a quoted sheet's name stands a reference. -/
theorem rewritten_quoted {text more out left : List Char} (h : quoted '\'' rest = (text, '!' :: more))
    (hcopy : copyReference isAlphanumeric change (some (unquoted text.dropLast)) ('\'' :: text ++ ['!']) more = (out, left)) :
    rewritten isAlphanumeric change ('\'' :: rest) = out ++ rewritten isAlphanumeric change left := by
  have hmore : more.length < rest.length := by
    have := quoted_length '\'' rest
    rw [h, List.length_cons] at this
    exact this
  have hleft : left.length ≤ more.length := by
    have hlength := @copyReference_length isAlphanumeric change (some (unquoted text.dropLast)) ('\'' :: text ++ ['!']) more
    rw [hcopy] at hlength
    exact hlength.trans (span_length _ _)
  rw [rewritten, List.length_cons, mapReferencesFrom, if_neg (by decide), if_pos rfl, h]
  simp only [hcopy]
  rw [rewritten_eq (by omega)]

/-- Text in single quotes stays when no sheet's sign stands behind it. -/
theorem rewritten_alone {text left : List Char} (h : quoted '\'' rest = (text, left)) (hnot : left.head? ≠ some '!') :
    rewritten isAlphanumeric change ('\'' :: rest) = '\'' :: text ++ rewritten isAlphanumeric change left := by
  have hlength : left.length ≤ rest.length := by
    rw [show left = (quoted '\'' rest).2 by rw [h]]
    exact quoted_length _ _
  rw [rewritten, List.length_cons, mapReferencesFrom, if_neg (by decide), if_pos rfl, h]
  dsimp only
  split
  · exact absurd rfl hnot
  · rw [rewritten_eq hlength]

/-- A word of name letters, up to the first letter of another kind. -/
structure IsWord (isAlphanumeric : Char → Bool) (word rest : List Char) : Prop where
  some : word ≠ []
  letters : ∀ c ∈ word, isNameLetter isAlphanumeric c = true
  ends : ∀ c ∈ rest.head?, isNameLetter isAlphanumeric c = false

theorem IsWord.span {word : List Char} (h : IsWord isAlphanumeric word rest) :
    (word ++ rest).span (isNameLetter isAlphanumeric) = (word, rest) := span_word h.letters h.ends

theorem not_quote {c : Char} (hascii : isAlphanumeric '"' = false ∧ isAlphanumeric '\'' = false)
    (h : isNameLetter isAlphanumeric c = true) : c ≠ '"' ∧ c ≠ '\'' := by
  refine ⟨?_, ?_⟩
  · rintro rfl
    simp [isNameLetter, hascii.1] at h
  · rintro rfl
    simp [isNameLetter, hascii.2] at h

/-- What the scan makes of a word: the name of a sheet, of a function, or what may be a reference. -/
theorem rewritten_word {word : List Char} (hascii : isAlphanumeric '"' = false ∧ isAlphanumeric '\'' = false) :
    IsWord isAlphanumeric word rest → rewritten isAlphanumeric change (word ++ rest) = match rest with
      | '!' :: more =>
        (copyReference isAlphanumeric change (some word) (word ++ ['!']) more).1 ++
          rewritten isAlphanumeric change (copyReference isAlphanumeric change (some word) (word ++ ['!']) more).2
      | '(' :: _ => word ++ rewritten isAlphanumeric change rest
      | _ =>
        (copyReference isAlphanumeric change none [] (word ++ rest)).1 ++
          rewritten isAlphanumeric change (copyReference isAlphanumeric change none [] (word ++ rest)).2 := by
  intro h
  obtain ⟨c, word', rfl⟩ := List.exists_cons_of_ne_nil h.some
  have hc := h.letters c (List.mem_cons_self ..)
  obtain ⟨hquote, hname⟩ := not_quote hascii hc
  have hspan := h.span
  rw [List.cons_append] at hspan ⊢
  have hcopy := @copyReference_length isAlphanumeric change none [] (c :: (word' ++ rest))
  rw [hspan] at hcopy
  dsimp only at hcopy
  have hrest : rest.length ≤ (word' ++ rest).length := by simp
  rw [rewritten, List.length_cons, mapReferencesFrom, if_neg hquote, if_neg hname, if_pos hc, hspan]
  dsimp only
  split
  · rename_i more
    have hcopy := @copyReference_length isAlphanumeric change (some (c :: word')) (c :: word' ++ ['!']) more
    have hmore := span_length (isNameLetter isAlphanumeric) more
    rw [List.length_cons] at hrest
    rewrite [rewritten_eq (by omega)]
    rfl
  · rewrite [rewritten_eq hrest]
    rfl
  · rename_i hexcl hpar
    rewrite [rewritten_eq (hcopy.trans hrest)]
    -- the match of the statement may be the one that is already split
    first
      | rfl
      | split
        · exact (hexcl _ rfl).elim
        · exact (hpar _ rfl).elim
        · rfl

/-! ### References -/

/-- What the Unicode tables say of ASCII. -/
def KnowsAscii (isAlphanumeric : Char → Bool) : Prop :=
  ∀ c : Char, c.toNat < 128 → isAlphanumeric c = (isAsciiAlphabetic c || c.isDigit)

/-- An end names a row and a column that a sheet has. -/
structure Reference.InGrid (r : Reference) : Prop where
  row : ∀ row ∈ r.row, row < 1048576
  column : ∀ column ∈ r.column, column < 16384

theorem Reference.InGrid.reads {r : Reference} (h : r.InGrid) : ∀ column ∈ r.column, column < 18278 :=
  fun column hcolumn => UInt32.lt_trans (h.column column hcolumn) (by decide)

/-- Both ends of a reference, with what is written for them. -/
structure Ends where
  first : Reference
  firstText : List Char
  second : Option (Reference × List Char)

namespace Ends

def text (ends : Ends) : List Char := ends.firstText ++ ends.second.elim [] fun second => ':' :: second.2

/-- A cell, or a range of cells, whole rows or whole columns. -/
structure Formed (ends : Ends) : Prop where
  first : ends.first.Text ends.firstText
  second : ∀ second ∈ ends.second, second.1.Text second.2 ∧ second.1.row.isSome = ends.first.row.isSome ∧
    second.1.column.isSome = ends.first.column.isSome
  single : ends.second = none → ends.first.row.isSome = true ∧ ends.first.column.isSome = true

/-- No end is a fixed whole row. -/
def Free (ends : Ends) : Prop := ends.first.Free ∧ ∀ second ∈ ends.second, second.1.Free

/-- Both ends are in the grid of a sheet. -/
def InGrid (ends : Ends) : Prop := ends.first.InGrid ∧ ∀ second ∈ ends.second, second.1.InGrid

end Ends

/-- What stands behind a colon is no end of a reference. -/
def NoEnd (isAlphanumeric : Char → Bool) (rest : List Char) : Prop :=
  ∀ more, rest = ':' :: more → parseReference (more.span (isNameLetter isAlphanumeric)).1 = none

theorem isNameLetter_ascii (hascii : KnowsAscii isAlphanumeric) {c : Char}
    (h : isAsciiAlphabetic c = true ∨ c.isDigit = true ∨ c = '$') : isNameLetter isAlphanumeric c = true := by
  rcases h with h | h | rfl
  · have hlt : c.toNat < 128 := by
      simp only [isAsciiAlphabetic, Char.isLower, Char.isUpper, Bool.or_eq_true, Bool.and_eq_true, decide_eq_true_eq, ge_iff_le,
        UInt32.le_iff_toNat_le] at h
      have hz : ('z' : Char).val.toNat = 122 := rfl
      have hZ : ('Z' : Char).val.toNat = 90 := rfl
      have hc : c.toNat = c.val.toNat := rfl
      omega
    simp [isNameLetter, hascii c hlt, h]
  · have hlt : c.toNat < 128 := by
      simp only [Char.isDigit, Bool.and_eq_true, decide_eq_true_eq, ge_iff_le, UInt32.le_iff_toNat_le] at h
      have h9 : ('9' : Char).val.toNat = 57 := rfl
      have hc : c.toNat = c.val.toNat := rfl
      omega
    simp [isNameLetter, hascii c hlt, h]
  · simp [isNameLetter]

theorem ColumnText.letters {column : Option UInt32} {fixed : Bool} {text : List Char} (h : ColumnText column fixed text) :
    ∀ c ∈ text, isAsciiAlphabetic c = true ∨ c.isDigit = true ∨ c = '$' := by
  cases h with
  | column fixed hspells =>
    intro c hc
    rcases List.mem_append.mp hc with hc | hc
    · cases fixed with
      | true => exact .inr (.inr (List.mem_singleton.mp hc))
      | false => exact absurd hc List.not_mem_nil
    · exact .inl (hspells.alphabetic c hc)
  | whole => exact nofun

theorem RowText.letters {row : Option UInt32} {fixed : Bool} {text : List Char} (h : RowText row fixed text) :
    ∀ c ∈ text, isAsciiAlphabetic c = true ∨ c.isDigit = true ∨ c = '$' := by
  cases h with
  | row fixed hlast =>
    intro c hc
    rcases List.mem_append.mp hc with hc | hc
    · cases fixed with
      | true => exact .inr (.inr (List.mem_singleton.mp hc))
      | false => exact absurd hc List.not_mem_nil
    · exact .inr (.inl ((isDigit_repr _).2 c hc))
  | whole => exact nofun

theorem ColumnText.of_nil {column : Option UInt32} {fixed : Bool} (h : ColumnText column fixed []) : column = none := by
  generalize htext : ([] : List Char) = text at h
  cases h with
  | column fixed hspells => exact absurd (List.append_eq_nil_iff.mp htext.symm).2 hspells.some
  | whole => rfl

theorem RowText.of_nil {row : Option UInt32} {fixed : Bool} (h : RowText row fixed []) : row = none := by
  generalize htext : ([] : List Char) = text at h
  cases h with
  | row fixed hlast => exact absurd (List.append_eq_nil_iff.mp htext.symm).2 (isDigit_repr _).1
  | whole => rfl

theorem Reference.Text.isWord (hascii : KnowsAscii isAlphanumeric) {r : Reference} {text : List Char} (h : r.Text text)
    (hrest : ∀ c ∈ rest.head?, isNameLetter isAlphanumeric c = false) : IsWord isAlphanumeric text rest := by
  obtain ⟨⟨column, row, hcolumn, hrow, rfl⟩, hsome⟩ := h
  refine ⟨?_, fun c hc => ?_, hrest⟩
  · intro hnil
    obtain ⟨rfl, rfl⟩ := List.append_eq_nil_iff.mp hnil
    rw [hcolumn.of_nil, hrow.of_nil] at hsome
    simp at hsome
  · rcases List.mem_append.mp hc with hc | hc
    · exact isNameLetter_ascii hascii (hcolumn.letters c hc)
    · exact isNameLetter_ascii hascii (hrow.letters c hc)

theorem secondEnd_none (h : NoEnd isAlphanumeric rest) : secondEnd isAlphanumeric rest = (none, rest) := by
  rw [secondEnd.eq_def]
  split
  · rename_i more
    rw [h more rfl]
  · rfl

/-- A reference as it is written after its change. -/
def written (before : List Char) : Option (Reference × Option Reference) → List Char
  | some (first, second) => before ++ first.write ++ second.elim [] fun second => ':' :: second.write
  | none => before ++ "#REF!".toList

/-- A reference is read with both of its ends, and written as it is changed. -/
theorem copyReference_ends (hascii : KnowsAscii isAlphanumeric) {ends : Ends} (h : ends.Formed) (hgrid : ends.InGrid)
    (hfree : ends.Free) (hrest : ∀ c ∈ rest.head?, isNameLetter isAlphanumeric c = false) (hend : ends.second = none → NoEnd isAlphanumeric rest)
    (sheet : Option (List Char)) (before : List Char) :
    copyReference isAlphanumeric change sheet before (ends.text ++ rest) =
      (written before (change sheet ends.first (ends.second.map Prod.fst)), rest) := by
  have hcolon : isNameLetter isAlphanumeric ':' = false := by
    have h := hascii ':' (by decide)
    simp only [isNameLetter, h]
    decide
  have hfirst : parseReference ends.firstText = some ends.first := parseReference_text h.first hfree.1 hgrid.1.reads
  cases hsecond : ends.second with
  | none =>
    have hspan := (h.first.isWord hascii hrest).span
    obtain ⟨hrow, hcolumn⟩ := h.single hsecond
    have hcell : ¬((ends.first.row.isNone = true ∨ ends.first.column.isNone = true) ∧ (none : Option Reference).isNone = true) := by
      rw [← Option.not_isSome, ← Option.not_isSome, hrow, hcolumn]
      decide
    have htext : ends.text ++ rest = ends.firstText ++ rest := by simp [Ends.text, hsecond]
    rw [htext, copyReference_some (by rw [hspan]; exact hfirst), hspan]
    dsimp only
    rw [secondEnd_none (hend hsecond), if_neg hcell, Option.map_none]
    cases change sheet ends.first none with
    | none => rfl
    | some both =>
      obtain ⟨first, second⟩ := both
      cases second with
      | none => simp [written]
      | some second => simp [written]
  | some second =>
    obtain ⟨second, secondText⟩ := second
    obtain ⟨htext2, -, -⟩ := h.second _ hsecond
    dsimp only at htext2
    have hword2 : parseReference secondText = some second := parseReference_text htext2 (hfree.2 _ hsecond)
      (hgrid.2 _ hsecond).reads
    have hspan2 := (htext2.isWord hascii hrest).span
    have hword : IsWord isAlphanumeric ends.firstText (':' :: (secondText ++ rest)) :=
      h.first.isWord hascii (by rintro c ⟨⟩; exact hcolon)
    have hspan := hword.span
    have htext : ends.text ++ rest = ends.firstText ++ ':' :: (secondText ++ rest) := by simp [Ends.text, hsecond]
    have hends : secondEnd isAlphanumeric (':' :: (secondText ++ rest)) = (some second, rest) := by
      rw [secondEnd.eq_def]
      simp only [hspan2, hword2]
    rw [htext, copyReference_some (by rw [hspan]; exact hfirst), hspan]
    dsimp only
    rw [hends, if_neg (by simp), Option.map_some]
    cases change sheet ends.first (some second) with
    | none => rfl
    | some both =>
      obtain ⟨first, second⟩ := both
      cases second with
      | none => simp [written]
      | some second => simp [written]

/-- A word that is no reference stays. -/
theorem copyReference_word {word : List Char} (h : IsWord isAlphanumeric word rest)
    (hword : parseReference word = none ∨
      ∃ r, parseReference word = some r ∧ (r.row.isNone = true ∨ r.column.isNone = true) ∧ NoEnd isAlphanumeric rest)
    (sheet : Option (List Char)) (before : List Char) :
    copyReference isAlphanumeric change sheet before (word ++ rest) = (before ++ word, rest) := by
  rcases hword with hword | ⟨r, hword, hwhole, hend⟩
  · rw [copyReference_none (by rw [h.span]; exact hword), h.span]
  · rw [copyReference_some (by rw [h.span]; exact hword), h.span]
    dsimp only
    rw [secondEnd_none hend, if_pos ⟨hwhole, rfl⟩]

end Kodosi.Xlsx
