import Kodosi.Xlsx.Scan

/-! The pieces of a formula, and how the scan goes over each of them. -/

namespace Kodosi.Xlsx

variable {isAlphanumeric : Char → Bool} {change : MapReference} {rest : List Char}

/-! ### Quotes -/

/-- Text as it stands between quotes: a quote in it stands twice. -/
def doubled (quote : Char) (text : List Char) : List Char := text.flatMap fun c => if c = quote then [c, c] else [c]

variable {quote : Char}

theorem quoted_doubled (h : rest.head? ≠ some quote) :
    ∀ text, quoted quote (doubled quote text ++ quote :: rest) = (doubled quote text ++ [quote], rest)
  | [] => by
    show quoted quote (quote :: rest) = _
    rw [quoted.eq_def]
    dsimp only
    rw [if_pos rfl]
    cases rest with
    | nil => rfl
    | cons c rest =>
      have hc : c ≠ quote := fun hc => h (by rw [hc]; rfl)
      dsimp only
      rw [if_neg hc]
      rfl
  | c :: text => by
    have ih := quoted_doubled h text
    by_cases hc : c = quote
    · have hcons : doubled quote (c :: text) = c :: c :: doubled quote text := by simp [doubled, hc]
      rw [hcons, List.cons_append, List.cons_append, quoted.eq_def]
      dsimp only
      rw [if_pos hc, if_pos hc, ih]
      rfl
    · have hcons : doubled quote (c :: text) = c :: doubled quote text := by simp [doubled, hc]
      rw [hcons, List.cons_append, quoted.eq_def]
      dsimp only
      rw [if_neg hc, ih]
      rfl

theorem unquoted_doubled : ∀ name, unquoted (doubled '\'' name) = name
  | [] => rfl
  | c :: name => by
    have ih := unquoted_doubled name
    by_cases hc : c = '\''
    · have hcons : doubled '\'' (c :: name) = '\'' :: '\'' :: doubled '\'' name := by simp [doubled, hc]
      rw [hcons, unquoted, ih, hc]
    · have hcons : doubled '\'' (c :: name) = c :: doubled '\'' name := by simp [doubled, hc]
      rw [hcons, unquoted, ih]
      rintro rest rfl
      exact absurd rfl hc

/-! ### The grammar -/

/-- What stands before a reference or a name: a sheet of this workbook, or a workbook and its sheet, in quotes or not. -/
inductive Place where
  | sheet (name : List Char)
  | quotedSheet (name : List Char)
  | book (file name : List Char)
  | quotedBook (file name : List Char)

namespace Place

def text : Place → List Char
  | sheet name => name ++ ['!']
  | quotedSheet name => '\'' :: (doubled '\'' name ++ ['\'']) ++ ['!']
  | book file name => '[' :: (file ++ ']' :: (name ++ ['!']))
  | quotedBook file name => '\'' :: (doubled '\'' (file ++ name) ++ ['\'']) ++ ['!']

/-- The sheet of this workbook that is named. -/
def sheet? : Place → Option (List Char)
  | sheet name | quotedSheet name => some name
  | book _ _ | quotedBook _ _ => none

/-- A name that is not in quotes is a word. -/
def Formed (isAlphanumeric : Char → Bool) : Place → Prop
  | sheet name | book _ name => IsWord isAlphanumeric name ['!']
  | quotedSheet _ | quotedBook _ _ => True

end Place

/-- A part of a formula: a reference, a name, a number or a function, a text literal, what stands in brackets behind a table,
    or one letter of an operator. -/
inductive Piece where
  | reference (place : Option Place) (ends : Ends)
  | name (place : Option Place) (word : List Char)
  | literal (text : List Char)
  | bracket (text : List Char)
  | symbol (c : Char)

def placeText (place : Option Place) : List Char := place.elim [] Place.text

namespace Piece

def text : Piece → List Char
  | reference place ends => placeText place ++ ends.text
  | name place word => placeText place ++ word
  | literal text => '"' :: (doubled '"' text ++ ['"'])
  | bracket text => '[' :: (text ++ [']'])
  | symbol c => [c]

/-- The cell or the range of a reference goes from its first line to its last. -/
structure Ordered (ends : Ends) : Prop where
  rows : ∀ second ∈ ends.second, ∀ first ∈ ends.first.row, ∀ last ∈ second.1.row, first ≤ last
  columns : ∀ second ∈ ends.second, ∀ first ∈ ends.first.column, ∀ last ∈ second.1.column, first ≤ last

/-- A word ends where no letter of a name follows, and no sign of a sheet. -/
def WordEnds (isAlphanumeric : Char → Bool) (rest : List Char) : Prop :=
  ∀ c ∈ rest.head?, isNameLetter isAlphanumeric c = false ∧ c ≠ '!'

/-- A piece is one of a formula that goes on with the rest. A name is not written as a cell of the grid, but a function's
    may be. -/
def Formed (isAlphanumeric : Char → Bool) (rest : List Char) : Piece → Prop
  | reference place ends => (∀ before ∈ place, Place.Formed isAlphanumeric before) ∧ ends.Formed ∧ ends.InGrid ∧ Ordered ends ∧
    WordEnds isAlphanumeric rest ∧ rest.head? ≠ some '('
  | name place word => (∀ before ∈ place, Place.Formed isAlphanumeric before) ∧ IsWord isAlphanumeric word rest ∧
    WordEnds isAlphanumeric rest ∧
    ((place = none ∧ rest.head? = some '(') ∨
      ∀ r : Reference, r.Text word → r.InGrid → r.row.isNone = true ∨ r.column.isNone = true)
  | literal _ => rest.head? ≠ some '"'
  | bracket _ => WordEnds isAlphanumeric rest
  | symbol c => isNameLetter isAlphanumeric c = false ∧ c ∉ ['"', '\'', '[', ']', '!']

end Piece

/-- The text of a formula. -/
def formulaText (pieces : List Piece) : List Char := pieces.flatMap Piece.text

/-- Each piece is one, with all that follows it. -/
def FormedAll (isAlphanumeric : Char → Bool) : List Piece → Prop
  | [] => True
  | piece :: pieces => piece.Formed isAlphanumeric (formulaText pieces) ∧ FormedAll isAlphanumeric pieces

/-! ### What the scan takes as it is meant -/

/-- Each quote of a text closes in it. -/
inductive Closes : List Char → Prop
  | nil : Closes []
  | quotes {quote : Char} (text : List Char) {left : List Char} (hquote : quote = '"' ∨ quote = '\'')
      (hleft : left.head? ≠ some quote) (h : Closes left) : Closes (quote :: (doubled quote text ++ quote :: left))
  | letter {c : Char} {left : List Char} (hquote : c ≠ '"') (hname : c ≠ '\'') (h : Closes left) : Closes (c :: left)

/-- In what stands in brackets each quote closes, and nothing looks like a reference. -/
structure Inert (isAlphanumeric : Char → Bool) (text : List Char) : Prop where
  closes : Closes text
  named : namedFrom isAlphanumeric text.length text = []

/-- A word is no reference, or just one line that is no end of a range. -/
def NoReference (isAlphanumeric : Char → Bool) (word rest : List Char) : Prop :=
  parseReference word = none ∨
    ∃ r, parseReference word = some r ∧ (r.row.isNone = true ∨ r.column.isNone = true) ∧ NoEnd isAlphanumeric rest

/-- What stands before a reference passes, and it does not name a sheet of another workbook by the name of this one. -/
def Place.Reads (isAlphanumeric : Char → Bool) (sheet : String) : Place → Prop
  | .sheet _ | .quotedSheet _ => True
  | .book file name => Inert isAlphanumeric file ∧ String.ofList name ≠ sheet
  | .quotedBook file name => String.ofList (file ++ name) ≠ sheet

/-- What stands before a name passes. -/
def Place.Passes (isAlphanumeric : Char → Bool) : Place → Prop
  | .sheet _ | .quotedSheet _ | .quotedBook _ _ => True
  | .book file _ => Inert isAlphanumeric file

/-- The scan takes a piece for what it is: no end of a reference is a fixed whole row, and no other end seems to follow it;
    a name or what stands in brackets does not look like a reference; another workbook's sheet has another name. -/
def Piece.Reads (isAlphanumeric : Char → Bool) (sheet : String) (rest : List Char) : Piece → Prop
  | .reference place ends => (∀ before ∈ place, Place.Reads isAlphanumeric sheet before) ∧ ends.Free ∧
    (ends.second = none → NoEnd isAlphanumeric rest)
  | .name place word => (∀ before ∈ place, Place.Passes isAlphanumeric before) ∧
    ((place = none ∧ rest.head? = some '(') ∨ NoReference isAlphanumeric word rest)
  | .bracket text => Inert isAlphanumeric text
  | .literal _ | .symbol _ => True

def ReadsAll (isAlphanumeric : Char → Bool) (sheet : String) : List Piece → Prop
  | [] => True
  | piece :: pieces => piece.Reads isAlphanumeric sheet (formulaText pieces) ∧ ReadsAll isAlphanumeric sheet pieces

/-! ### Words -/

theorem KnowsAscii.quotes (hascii : KnowsAscii isAlphanumeric) : isAlphanumeric '"' = false ∧ isAlphanumeric '\'' = false := by
  rw [hascii '"' (by decide), hascii '\'' (by decide)]
  decide

theorem KnowsAscii.sign (hascii : KnowsAscii isAlphanumeric) {c : Char} (hlt : c.toNat < 128)
    (hsign : (isAsciiAlphabetic c || c.isDigit || c == '_' || c == '.' || c == '$') = false) :
    isNameLetter isAlphanumeric c = false := by
  simp only [isNameLetter, hascii c hlt]
  exact hsign

variable {word left : List Char}

variable {out : List Char}

/-- A word that is no sheet's and no function's is copied. -/
theorem rewritten_copy (hascii : KnowsAscii isAlphanumeric) (h : IsWord isAlphanumeric word rest)
    (hsheet : rest.head? ≠ some '!') (hcall : rest.head? ≠ some '(')
    (hcopy : copyReference isAlphanumeric change none [] (word ++ rest) = (out, left)) :
    rewritten isAlphanumeric change (word ++ rest) = out ++ rewritten isAlphanumeric change left := by
  rw [rewritten_word hascii.quotes h]
  split
  · exact absurd rfl hsheet
  · exact absurd rfl hcall
  · rw [hcopy]

theorem rewritten_call (hascii : KnowsAscii isAlphanumeric) (h : IsWord isAlphanumeric word rest)
    (hcall : rest.head? = some '(') :
    rewritten isAlphanumeric change (word ++ rest) = word ++ rewritten isAlphanumeric change rest := by
  obtain ⟨rest', rfl⟩ : ∃ rest', rest = '(' :: rest' := by
    cases rest with
    | nil => exact absurd hcall nofun
    | cons c rest' => exact ⟨rest', by rw [Option.some.inj hcall]⟩
  rw [rewritten_word hascii.quotes h]
  rfl

theorem rewritten_sheet (hascii : KnowsAscii isAlphanumeric) (h : IsWord isAlphanumeric word ('!' :: rest))
    (hcopy : copyReference isAlphanumeric change (some word) (word ++ ['!']) rest = (out, left)) :
    rewritten isAlphanumeric change (word ++ '!' :: rest) = out ++ rewritten isAlphanumeric change left := by
  rw [rewritten_word hascii.quotes h]
  show (copyReference isAlphanumeric change (some word) (word ++ ['!']) rest).1 ++ _ = _
  rw [hcopy]

theorem IsWord.of_head {rest' : List Char} (h : IsWord isAlphanumeric word rest) (hhead : rest'.head? = rest.head?) :
    IsWord isAlphanumeric word rest' := ⟨h.some, h.letters, by rw [hhead]; exact h.ends⟩

/-! ### What stands in brackets -/

theorem span_split (p : Char → Bool) (letters : List Char) : ∃ word left, letters.span p = (word, left) ∧
    letters = word ++ left ∧ (∀ c ∈ word, p c = true) ∧ ∀ c ∈ left.head?, p c = false := by
  refine ⟨letters.takeWhile p, letters.dropWhile p, List.span_eq_takeWhile_dropWhile .., List.takeWhile_append_dropWhile.symm,
    fun c hc => List.mem_takeWhile_imp hc, fun c hc => ?_⟩
  have hnot := List.head?_dropWhile_not p letters
  rw [hc] at hnot
  simpa using hnot

/-- The letters of a word stay together when a bracket closes behind them. -/
theorem span_closed (hascii : KnowsAscii isAlphanumeric) {letters word left : List Char}
    (h : letters.span (isNameLetter isAlphanumeric) = (word, left)) :
    (letters ++ ']' :: rest).span (isNameLetter isAlphanumeric) = (word, left ++ ']' :: rest) := by
  obtain ⟨word', left', hspan, hletters, hword, hleft⟩ := span_split (isNameLetter isAlphanumeric) letters
  obtain ⟨rfl, rfl⟩ := Prod.mk.inj (h.symm.trans hspan)
  rw [hletters, List.append_assoc]
  refine span_word hword ?_
  cases left with
  | nil =>
    rintro c ⟨⟩
    exact hascii.sign (by decide) (by decide)
  | cons c left => exact hleft

theorem secondEnd_closed (hascii : KnowsAscii isAlphanumeric) (h : (secondEnd isAlphanumeric left).1.isNone = true) :
    secondEnd isAlphanumeric (left ++ ']' :: rest) = (none, left ++ ']' :: rest) := by
  refine secondEnd_none ?_
  intro more hmore
  cases left with
  | nil => exact absurd hmore (by simp)
  | cons c left =>
    obtain ⟨rfl, rfl⟩ := List.cons.inj hmore
    rw [secondEnd.eq_def] at h
    obtain ⟨word, left', hspan, -⟩ := span_split (isNameLetter isAlphanumeric) left
    show parseReference ((left ++ ']' :: rest).span (isNameLetter isAlphanumeric)).1 = none
    rw [span_closed hascii hspan]
    simp only [hspan] at h
    cases hword : parseReference word with
    | none => rfl
    | some r => simp [hword] at h

/-- Text that names nothing is copied as it is, when a bracket closes behind it. -/
theorem copyReference_inert (hascii : KnowsAscii isAlphanumeric) {sheet : Option (List Char)} {letters left : List Char}
    (h : namedBy isAlphanumeric sheet letters = ([], left)) (before : List Char) :
    ∃ word, letters.span (isNameLetter isAlphanumeric) = (word, left) ∧
      copyReference isAlphanumeric change sheet before (letters ++ ']' :: rest) = (before ++ word, left ++ ']' :: rest) := by
  obtain ⟨word, left', hspan, -⟩ := span_split (isNameLetter isAlphanumeric) letters
  have hclosed := @span_closed isAlphanumeric rest hascii _ _ _ hspan
  cases hword : parseReference word with
  | none =>
    simp only [namedBy, hspan, hword, Prod.mk.injEq, true_and] at h
    subst h
    refine ⟨word, hspan, ?_⟩
    rw [copyReference_none (by rw [hclosed]; exact hword), hclosed]
  | some first =>
    simp only [namedBy, hspan, hword] at h
    split_ifs at h with hwhole
    · obtain rfl : left' = left := congrArg Prod.snd h
      refine ⟨word, hspan, ?_⟩
      rw [copyReference_some (by rw [hclosed]; exact hword), hclosed]
      dsimp only
      rw [secondEnd_closed hascii hwhole.2, if_pos ⟨hwhole.1, rfl⟩]
    · exact absurd (congrArg Prod.fst h) (List.cons_ne_nil _ _)

theorem Closes.behind (hascii : KnowsAscii isAlphanumeric) (hword : ∀ c ∈ word, isNameLetter isAlphanumeric c = true)
    (h : Closes (word ++ left)) : Closes left := by
  induction word with
  | nil => exact h
  | cons c word ih =>
    obtain ⟨hc, hword⟩ := List.forall_mem_cons.mp hword
    obtain ⟨hquote, hname⟩ := not_quote hascii.quotes hc
    generalize htext : c :: word ++ left = text at h
    cases h with
    | nil => exact absurd htext (by simp)
    | quotes text hq hleft h =>
      obtain ⟨rfl, -⟩ := List.cons.inj htext
      exact absurd hq (by simp [hquote, hname])
    | letter hq hn h =>
      obtain ⟨-, rfl⟩ := List.cons.inj htext
      exact ih hword h

theorem Closes.behind_letter {c : Char} (hquote : c ≠ '"') (hname : c ≠ '\'') (h : Closes (c :: left)) :
    Closes left := by
  generalize htext : c :: left = text at h
  cases h with
  | nil => exact absurd htext nofun
  | quotes text hq hleft h =>
    obtain ⟨rfl, -⟩ := List.cons.inj htext
    exact absurd hq (by simp [hquote, hname])
  | letter hq hn h =>
    obtain ⟨-, rfl⟩ := List.cons.inj htext
    exact h

theorem Closes.quoted {text : List Char} (hquote : quote = '"' ∨ quote = '\'') (h : Closes (quote :: text)) :
    ∃ inside left, text = doubled quote inside ++ quote :: left ∧ left.head? ≠ some quote ∧ Closes left := by
  generalize hall : quote :: text = all at h
  cases h with
  | nil => exact absurd hall nofun
  | quotes inside hq hleft h =>
    obtain ⟨rfl, rfl⟩ := List.cons.inj hall
    exact ⟨inside, _, rfl, hleft, h⟩
  | letter hq hn h =>
    obtain ⟨rfl, -⟩ := List.cons.inj hall
    exact absurd hquote (by simp [hq, hn])

theorem closed_head (hquote : quote ≠ ']') (h : left.head? ≠ some quote) :
    (left ++ ']' :: rest).head? ≠ some quote := by
  cases left with
  | nil => simpa using hquote.symm
  | cons c left => exact h

/-- Text that names nothing stays, when a bracket closes behind it. -/
theorem rewritten_inert (hascii : KnowsAscii isAlphanumeric) : ∀ {n : Nat} {text : List Char}, text.length ≤ n →
    Closes text → namedFrom isAlphanumeric n text = [] →
    rewritten isAlphanumeric change (text ++ ']' :: rest) = text ++ ']' :: rewritten isAlphanumeric change rest
  | _, [], _, _, _ => rewritten_symbol (hascii.sign (by decide) (by decide)) (by decide) (by decide)
  | 0, c :: text, hlength, _, _ => absurd hlength (Nat.not_succ_le_zero _)
  | n + 1, c :: text, hlength, hcloses, hnamed => by
    rw [List.length_cons] at hlength
    -- behind the sign of a sheet nothing is named
    have hsheet : ∀ {sheet : Option (List Char)} {more : List Char}, more.length ≤ n → Closes more →
        (namedBy isAlphanumeric sheet more).1 ++ namedFrom isAlphanumeric n (namedBy isAlphanumeric sheet more).2 = [] →
        ∀ before, ∃ word left, copyReference isAlphanumeric change sheet before (more ++ ']' :: rest) =
          (before ++ word, left ++ ']' :: rest) ∧ more = word ++ left ∧
          rewritten isAlphanumeric change (left ++ ']' :: rest) = left ++ ']' :: rewritten isAlphanumeric change rest := by
      intro sheet more hmore hcloses hnamed before
      obtain ⟨hnone, hnamed⟩ := List.append_eq_nil_iff.mp hnamed
      obtain ⟨word, hspan, hcopy⟩ := @copyReference_inert isAlphanumeric change rest hascii sheet more
        (namedBy isAlphanumeric sheet more).2 (Prod.ext hnone rfl) before
      obtain ⟨word', left', hspan', hsplit, hword, -⟩ := span_split (isNameLetter isAlphanumeric) more
      obtain ⟨rfl, hleft⟩ := Prod.mk.inj (hspan'.symm.trans hspan)
      rw [← hleft] at hcopy hnamed
      have hshort : left'.length ≤ n := by
        rw [hsplit, List.length_append] at hmore
        omega
      exact ⟨_, _, hcopy, hsplit, rewritten_inert hascii hshort ((hsplit ▸ hcloses).behind hascii hword) hnamed⟩
    by_cases hquote : c = '"'
    · subst hquote
      obtain ⟨inside, left, rfl, hleft, hcloses⟩ := hcloses.quoted (.inl rfl)
      rw [namedFrom, if_pos rfl, quoted_doubled hleft] at hnamed
      rw [List.length_append, List.length_cons] at hlength
      rw [List.cons_append, List.append_assoc, List.cons_append, rewritten_literal (quoted_doubled (closed_head (by decide) hleft) _),
        rewritten_inert hascii (by omega) hcloses hnamed]
      simp
    by_cases hname : c = '\''
    · subst hname
      obtain ⟨inside, left, rfl, hleft, hcloses⟩ := hcloses.quoted (.inr rfl)
      rw [namedFrom, if_neg (by decide), if_pos rfl, quoted_doubled hleft] at hnamed
      rw [List.length_append, List.length_cons] at hlength
      rw [List.cons_append, List.append_assoc, List.cons_append]
      dsimp only at hnamed
      split at hnamed
      · rename_i more
        rw [List.length_cons] at hlength
        obtain ⟨word, left, hcopy, rfl, hrest⟩ := hsheet (by omega) (hcloses.behind_letter (by decide) (by decide)) hnamed
          ('\'' :: (doubled '\'' inside ++ ['\'']) ++ ['!'])
        rw [rewritten_quoted (quoted_doubled (closed_head (by decide) hleft) _) hcopy, hrest]
        simp
      · rename_i hnot
        have hnot : (left ++ ']' :: rest).head? ≠ some '!' := by
          refine closed_head (by decide) fun h => ?_
          cases left with
          | nil => exact absurd h nofun
          | cons c left => exact hnot left (by rw [Option.some.inj h])
        rw [rewritten_alone (quoted_doubled (closed_head (by decide) hleft) _) hnot,
          rewritten_inert hascii (by omega) hcloses hnamed]
        simp
    rw [namedFrom, if_neg hquote, if_neg hname] at hnamed
    by_cases hletter : isNameLetter isAlphanumeric c = true
    · rw [if_pos hletter] at hnamed
      obtain ⟨word, left, hspan, hletters, hword, hleft⟩ := span_split (isNameLetter isAlphanumeric) (c :: text)
      have hsome : word ≠ [] := by
        rintro rfl
        rw [show left = c :: text from hletters.symm] at hleft
        exact absurd (hleft c rfl) (by rw [hletter]; decide)
      have hshort : left.length ≤ n := by
        have hsum := congrArg List.length hletters
        rw [List.length_append, List.length_cons] at hsum
        have := List.length_pos_iff.mpr hsome
        omega
      have hbehind : Closes left := (hletters ▸ hcloses).behind hascii hword
      have hisWord : IsWord isAlphanumeric word (left ++ ']' :: rest) := by
        refine ⟨hsome, hword, ?_⟩
        cases left with
        | nil =>
          rintro c ⟨⟩
          exact hascii.sign (by decide) (by decide)
        | cons c left => exact hleft
      rw [hspan] at hnamed
      have hall : c :: text ++ ']' :: rest = word ++ (left ++ ']' :: rest) := by rw [hletters, List.append_assoc]
      -- a sheet's name, a function's, or another word
      dsimp only at hnamed
      split at hnamed
      · rename_i more
        rw [List.length_cons] at hshort
        obtain ⟨word', left, hcopy, rfl, hrest⟩ := hsheet (by omega) (hbehind.behind_letter (by decide) (by decide)) hnamed
          (word ++ ['!'])
        have hisWord : IsWord isAlphanumeric word ('!' :: (word' ++ left ++ ']' :: rest)) := hisWord
        rw [hall]
        show rewritten isAlphanumeric change (word ++ '!' :: (word' ++ left ++ ']' :: rest)) = _
        rw [rewritten_sheet hascii hisWord hcopy, hrest, hletters]
        simp
      · rw [hall, rewritten_call hascii hisWord rfl, rewritten_inert hascii hshort hbehind hnamed, hletters]
        simp
      · rename_i hnot hcall
        obtain ⟨hnone, hnamed⟩ := List.append_eq_nil_iff.mp hnamed
        obtain ⟨word', hspan', hcopy⟩ := @copyReference_inert isAlphanumeric change rest hascii none (c :: text)
          (namedBy isAlphanumeric none (c :: text)).2 (Prod.ext hnone rfl) []
        obtain ⟨rfl, hleft'⟩ := Prod.mk.inj (hspan.symm.trans hspan')
        rw [← hleft'] at hcopy hnamed
        have hhead : ∀ {c}, (∀ left', left ≠ c :: left') → left.head? ≠ some c := by
          intro c hne h
          cases left with
          | nil => exact absurd h nofun
          | cons c left => exact hne left (by rw [Option.some.inj h])
        rw [hall] at hcopy ⊢
        rw [rewritten_copy hascii hisWord (closed_head (by decide) (hhead hnot)) (closed_head (by decide) (hhead hcall)) hcopy,
          rewritten_inert hascii hshort hbehind hnamed, hletters]
        simp
    · rw [if_neg hletter] at hnamed
      rw [List.cons_append, rewritten_symbol (by simpa using hletter) hquote hname,
        rewritten_inert hascii (by omega) (hcloses.behind_letter hquote hname) hnamed]
      rfl

/-! ### Places -/

/-- The sheet's name that the scan sees. -/
def Place.seen : Place → List Char
  | .sheet name | .quotedSheet name | .book _ name => name
  | .quotedBook file name => file ++ name

theorem rewritten_quotes {name more : List Char}
    (hcopy : ∀ before, copyReference isAlphanumeric change (some name) before more = (before ++ out, left)) :
    rewritten isAlphanumeric change ('\'' :: (doubled '\'' name ++ ['\'']) ++ ['!'] ++ more) =
      '\'' :: (doubled '\'' name ++ ['\'']) ++ ['!'] ++ out ++ rewritten isAlphanumeric change left := by
  have hquoted : quoted '\'' (doubled '\'' name ++ '\'' :: '!' :: more) = (doubled '\'' name ++ ['\''], '!' :: more) :=
    quoted_doubled (by simp) name
  have hname : unquoted (doubled '\'' name ++ ['\'']).dropLast = name := by rw [List.dropLast_concat, unquoted_doubled]
  have htext : '\'' :: (doubled '\'' name ++ ['\'']) ++ ['!'] ++ more = '\'' :: (doubled '\'' name ++ '\'' :: '!' :: more) := by
    simp
  have hcopy : copyReference isAlphanumeric change (some (unquoted (doubled '\'' name ++ ['\'']).dropLast))
      ('\'' :: (doubled '\'' name ++ ['\'']) ++ ['!']) more =
      ('\'' :: (doubled '\'' name ++ ['\'']) ++ ['!'] ++ out, left) := by
    rw [hname]
    exact hcopy _
  rw [htext, rewritten_quoted hquoted hcopy]

/-- What stands before a reference or a name stays, and the scan goes on behind it. -/
theorem rewritten_place (hascii : KnowsAscii isAlphanumeric) {place : Place} (hformed : place.Formed isAlphanumeric)
    (hpasses : place.Passes isAlphanumeric) {more : List Char}
    (hcopy : ∀ before, copyReference isAlphanumeric change (some place.seen) before more = (before ++ out, left)) :
    rewritten isAlphanumeric change (place.text ++ more) = place.text ++ out ++ rewritten isAlphanumeric change left := by
  have hword : ∀ {name : List Char}, IsWord isAlphanumeric name ['!'] →
      (∀ before, copyReference isAlphanumeric change (some name) before more = (before ++ out, left)) →
      rewritten isAlphanumeric change (name ++ ['!'] ++ more) = name ++ ['!'] ++ out ++ rewritten isAlphanumeric change left := by
    intro name hname hcopy
    have hname : IsWord isAlphanumeric name ('!' :: more) := hname.of_head rfl
    rw [List.append_assoc, List.singleton_append, rewritten_sheet hascii hname (hcopy _)]
  cases place with
  | sheet name => exact hword hformed hcopy
  | quotedSheet name => exact rewritten_quotes hcopy
  | quotedBook file name => exact rewritten_quotes hcopy
  | book file name =>
    have htext : (Place.book file name).text ++ more = '[' :: (file ++ ']' :: (name ++ ['!'] ++ more)) := by simp [Place.text]
    rw [htext, rewritten_symbol (hascii.sign (by decide) (by decide)) (by decide) (by decide),
      rewritten_inert hascii le_rfl hpasses.closes hpasses.named, hword hformed hcopy]
    simp [Place.text]

/-! ### Pieces -/

theorem Place.Reads.passes {place : Place} {sheet : String} (h : place.Reads isAlphanumeric sheet) :
    place.Passes isAlphanumeric := by
  cases place with
  | book file name => exact h.1
  | _ => trivial

theorem written_append (before : List Char) (both : Option (Reference × Option Reference)) :
    written before both = before ++ written [] both := by
  rcases both with _ | ⟨first, _ | second⟩ <;> simp [written]

/-- A reference that is read as it is meant is written as it is changed. -/
theorem rewritten_reference (hascii : KnowsAscii isAlphanumeric) {sheet : String} {place : Option Place} {ends : Ends}
    (hformed : (Piece.reference place ends).Formed isAlphanumeric rest)
    (hreads : (Piece.reference place ends).Reads isAlphanumeric sheet rest) :
    rewritten isAlphanumeric change ((Piece.reference place ends).text ++ rest) = placeText place ++
      written [] (change (place.map Place.seen) ends.first (ends.second.map Prod.fst)) ++ rewritten isAlphanumeric change rest := by
  obtain ⟨hplace, hends, hgrid, -, hend, hcall⟩ := hformed
  obtain ⟨hpasses, hfree, hnoEnd⟩ := hreads
  have hrest : ∀ c ∈ rest.head?, isNameLetter isAlphanumeric c = false := fun c hc => (hend c hc).1
  have hcopy := @copyReference_ends isAlphanumeric change rest hascii ends hends hgrid hfree hrest hnoEnd
  rw [Piece.text, List.append_assoc]
  cases place with
  | some place =>
    exact rewritten_place hascii (hplace place rfl) (hpasses place rfl).passes fun before => by
      rw [hcopy, written_append, Option.map_some]
  | none =>
    -- the word that is read first is the first end
    obtain ⟨after, htext, hafter⟩ : ∃ after, ends.text ++ rest = ends.firstText ++ after ∧
        ∀ c ∈ after.head?, isNameLetter isAlphanumeric c = false ∧ c ≠ '!' ∧ c ≠ '(' := by
      cases hsecond : ends.second with
      | none =>
        refine ⟨rest, by simp [Ends.text, hsecond], fun c hc => ⟨(hend c hc).1, (hend c hc).2, ?_⟩⟩
        rintro rfl
        exact hcall hc
      | some second =>
        refine ⟨':' :: (second.2 ++ rest), by simp [Ends.text, hsecond], ?_⟩
        rintro c ⟨⟩
        exact ⟨hascii.sign (by decide) (by decide), by decide, by decide⟩
    have hword := hends.first.isWord hascii fun c hc => (hafter c hc).1
    have hcopy := hcopy none []
    show rewritten isAlphanumeric change ([] ++ (ends.text ++ rest)) = [] ++ _ ++ _
    rw [List.nil_append, htext] at *
    exact rewritten_copy hascii hword (fun h => (hafter _ h).2.1 rfl) (fun h => (hafter _ h).2.2 rfl) hcopy

/-- A piece that is no reference stays, when it is read as it is meant. -/
theorem rewritten_other (hascii : KnowsAscii isAlphanumeric) {sheet : String} {piece : Piece}
    (hformed : piece.Formed isAlphanumeric rest) (hreads : piece.Reads isAlphanumeric sheet rest)
    (hother : ∀ place ends, piece ≠ .reference place ends) :
    rewritten isAlphanumeric change (piece.text ++ rest) = piece.text ++ rewritten isAlphanumeric change rest := by
  cases piece with
  | reference place ends => exact absurd rfl (hother place ends)
  | name place word =>
    obtain ⟨hplace, hword, hend, -⟩ := hformed
    obtain ⟨hpasses, hnone⟩ := hreads
    rw [Piece.text, List.append_assoc]
    cases place with
    | some place =>
      have hnone := hnone.resolve_left (by simp)
      exact rewritten_place hascii (hplace place rfl) (hpasses place rfl) (copyReference_word hword hnone _)
    | none =>
      show rewritten isAlphanumeric change ([] ++ (word ++ rest)) = [] ++ word ++ _
      rw [List.nil_append, List.nil_append]
      by_cases hcall : rest.head? = some '('
      · exact rewritten_call hascii hword hcall
      · have hnone := hnone.resolve_left (fun h => hcall h.2)
        exact rewritten_copy hascii hword (fun h => (hend _ h).2 rfl) hcall (copyReference_word hword hnone none [])
  | literal text =>
    have htext : (Piece.literal text).text ++ rest = '"' :: (doubled '"' text ++ '"' :: rest) := by simp [Piece.text]
    rw [htext, rewritten_literal (quoted_doubled hformed text)]
    rfl
  | bracket text =>
    have htext : (Piece.bracket text).text ++ rest = '[' :: (text ++ ']' :: rest) := by simp [Piece.text]
    rw [htext, rewritten_symbol (hascii.sign (by decide) (by decide)) (by decide) (by decide),
      rewritten_inert hascii le_rfl hreads.closes hreads.named]
    simp [Piece.text]
  | symbol c =>
    obtain ⟨hletter, hsign⟩ := hformed
    exact rewritten_symbol hletter (fun h => hsign (by simp [h])) (fun h => hsign (by simp [h]))

end Kodosi.Xlsx
