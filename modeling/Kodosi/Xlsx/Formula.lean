import Kodosi.Lib.Bytes

/-! Names of cells and ranges, and what becomes of them where rows or columns are inserted or deleted. -/

namespace Kodosi.Xlsx
open Kodosi.Lib

/-! ### Names -/

def letter (n : UInt32) : Char := Char.ofNat ('A'.toNat + n.toNat)

/-- The letters of a column, from 0, before those that stand already: A, B, ... Z, AA. -/
def columnLetters (column : UInt32) (letters : List Char) : List Char :=
  if column < 26 then letter column :: letters
  else columnLetters (column / 26 - 1) (letter (column % 26) :: letters)
termination_by column.toNat
decreasing_by
  have hcolumn : 26 ≤ column.toNat := by simpa [UInt32.lt_iff_toNat_lt] using ‹¬column < 26›
  have hdiv : (column / 26).toNat = column.toNat / 26 := by simp
  have hpos : 1 ≤ column / 26 := by
    rw [UInt32.le_iff_toNat_le, hdiv]
    simp
    omega
  rw [UInt32.toNat_sub_of_le _ _ hpos, hdiv]
  simp
  omega

def columnName (column : UInt32) : String := String.ofList (columnLetters column [])

def isAsciiAlphabetic (c : Char) : Bool := c.isLower || c.isUpper

/-- An operation on `u32` that gives nothing when the result does not fit. -/
def checked (n : Nat) : Option UInt32 := if n < 2 ^ 32 then some (.ofNat n) else none

def columnNumber (letters : List Char) : Option UInt32 := do
  let column ← letters.foldlM (fun (column : UInt32) c =>
    if isAsciiAlphabetic c then do
      let column ← checked (column.toNat * 26)
      checked (column.toNat + (c.toUpper.toNat - 'A'.toNat) + 1)
    else none) 0
  if 1 ≤ column then some (column - 1) else none

def cellName (row column : UInt32) : String := columnName column ++ (row + 1).toNat.repr

/-- A `u32` as text: digits only, and no more than fit. -/
def parseU32 (digits : List Char) : Option UInt32 :=
  if digits ≠ [] ∧ digits.all Char.isDigit then checked (Nat.ofDigitChars 10 digits 0) else none

/-- A `u32` as text, which a plus may lead. -/
def parseNumber (text : String) : Option UInt32 :=
  match text.toList with
  | '+' :: digits => parseU32 digits
  | digits => parseU32 digits

/-- `B2` as a row and a column, from 0. -/
def parseCell (name : List Char) : Option (UInt32 × UInt32) := do
  let (letters, digits) := name.span (!·.isDigit)
  let row ← parseU32 digits
  let column ← columnNumber letters
  if 1 ≤ row then some (row - 1, column) else none

/-- The first and the last line of rows and columns: top, left, bottom, right. -/
structure Range where
  top : UInt32
  left : UInt32
  bottom : UInt32
  right : UInt32
  deriving DecidableEq

/-- `A1:C9` as its first and last cell. -/
def parseRange (name : List Char) : Option Range := do
  let (first, last) := match name.span (· ≠ ':') with
    | (first, _ :: last) => (first, last)
    | (first, []) => (first, first)
  let (top, left) ← parseCell first
  let (bottom, right) ← parseCell last
  return ⟨top, left, bottom, right⟩

/-- `A1` for one cell, or `A1:C9`. -/
def rangeName (r : Range) : String :=
  if r.top = r.bottom ∧ r.left = r.right then cellName r.top r.left
  else s!"{cellName r.top r.left}:{cellName r.bottom r.right}"

/-! ### Lines that move -/

/-- A line of rows or columns that was inserted or deleted. -/
structure Shift where
  at' : UInt32
  count : Int32

def unsignedAbs (count : Int32) : UInt32 := .ofNat count.toInt.natAbs

/-- Where a line goes, or nothing when it was deleted. -/
def Shift.line (s : Shift) (line : UInt32) : Option UInt32 :=
  if 0 ≤ s.count then some (if s.at' ≤ line then line + unsignedAbs s.count else line)
  else
    let removed := unsignedAbs s.count
    if line < s.at' then some line
    else if line < s.at' + removed then none
    else some (line - removed)

/-- Where a range goes: it shrinks when part of it was deleted. -/
def Shift.span (s : Shift) (first last : UInt32) : Option (UInt32 × UInt32) :=
  if 0 ≤ s.count then do return (← s.line first, ← s.line last)
  else do
    let removed := unsignedAbs s.count
    let start ← (s.line first).or (if s.at' + removed ≤ last then some s.at' else none)
    let stop ← (s.line last).or
      (if first < s.at' then some (if s.at' = 0 then 0 else s.at' - 1) else none)
    return (start, stop)

/-! ### References of a formula -/

/-- One end of a reference in a formula. -/
structure Reference where
  row : Option UInt32
  column : Option UInt32
  rowFixed : Bool
  columnFixed : Bool

def Reference.write (r : Reference) : List Char :=
  (match r.column with
    | some column => (if r.columnFixed then ['$'] else []) ++ (columnName column).toList
    | none => []) ++
  match r.row with
    | some row => (if r.rowFixed then ['$'] else []) ++ (row + 1).toNat.repr.toList
    | none => []

/-- The text after a sign, and whether it was there. -/
def dropSign (text : List Char) : Bool × List Char :=
  match text with
  | '$' :: rest => (true, rest)
  | _ => (false, text)

def parseReference (text : List Char) : Option Reference := do
  let (columnFixed, text) := dropSign text
  let (letters, text) := text.span isAsciiAlphabetic
  let column ← if letters = [] then some none
    else do
      let column ← columnNumber letters
      if column < 18278 then some (some column) else none
  let (rowFixed, digits) := dropSign text
  let row ← if digits = [] then some none
    else do
      let row ← parseU32 digits
      if 1 ≤ row then some (some (row - 1)) else none
  if column.isSome ∨ row.isSome then some ⟨row, column, rowFixed, columnFixed⟩ else none

/-- What becomes of both ends of a reference: nothing makes it `#REF!`. -/
abbrev MapReference := Option (List Char) → Reference → Option Reference →
  Option (Reference × Option Reference)

section

-- whether Unicode counts a character among its letters and digits
variable (isAlphanumeric : Char → Bool)

def isNameLetter (c : Char) : Bool := isAlphanumeric c || c == '_' || c == '.' || c == '$'

/-- Text up to its closing quote, which is not one that stands twice, and what is left. -/
def quoted (quote : Char) : List Char → List Char × List Char
  | [] => ([], [])
  | c :: rest =>
    if c = quote then
      match rest with
      | c' :: rest' =>
        if c' = quote then let (text, left) := quoted quote rest'; (c :: c' :: text, left)
        else ([c], rest)
      | [] => ([c], [])
    else let (text, left) := quoted quote rest; (c :: text, left)

/-- A sheet's name without the second of two quotes. -/
def unquoted : List Char → List Char
  | '\'' :: '\'' :: rest => '\'' :: unquoted rest
  | c :: rest => c :: unquoted rest
  | [] => []

/-- Copies one reference, and gives what is left after it. -/
def copyReference (change : MapReference) (sheet : Option (List Char)) (before : List Char)
    (letters : List Char) : List Char × List Char :=
  let (word, rest) := letters.span (isNameLetter isAlphanumeric)
  match parseReference word with
  | none => (before ++ word, rest)
  | some first =>
    let (second, left) := match rest with
      | ':' :: more =>
        let (next, after) := more.span (isNameLetter isAlphanumeric)
        match parseReference next with
        | some reference => (some reference, after)
        | none => (none, rest)
      | _ => (none, rest)
    if (first.row.isNone ∨ first.column.isNone) ∧ second.isNone then (before ++ word, rest)
    else match change sheet first second with
      | some (first, some second) => (before ++ first.write ++ ':' :: second.write, left)
      | some (first, none) => (before ++ first.write, left)
      | none => (before ++ "#REF!".toList, left)

/-- Rewrites each reference of a formula, and leaves text, names and functions alone. Each round takes at
    least one letter, so the first number is enough when it is the number of letters. -/
def mapReferencesFrom (change : MapReference) : Nat → List Char → List Char
  | 0, letters => letters
  | _, [] => []
  | n + 1, c :: rest =>
    if c = '"' then
      let (text, left) := quoted '"' rest
      c :: text ++ mapReferencesFrom change n left
    else if c = '\'' then
      let (text, left) := quoted '\'' rest
      match left with
      | '!' :: more =>
        let (out, left) := copyReference isAlphanumeric change (some (unquoted text.dropLast))
          (c :: text ++ ['!']) more
        out ++ mapReferencesFrom change n left
      | _ => c :: text ++ mapReferencesFrom change n left
    else if isNameLetter isAlphanumeric c then
      let (word, after) := (c :: rest).span (isNameLetter isAlphanumeric)
      match after with
      | '!' :: more =>
        let (out, left) := copyReference isAlphanumeric change (some word) (word ++ ['!']) more
        out ++ mapReferencesFrom change n left
      | '(' :: _ => word ++ mapReferencesFrom change n after
      | _ =>
        let (out, left) := copyReference isAlphanumeric change none [] (c :: rest)
        out ++ mapReferencesFrom change n left
    else c :: mapReferencesFrom change n rest

def mapReferences (change : MapReference) (formula : String) : String :=
  String.ofList (mapReferencesFrom isAlphanumeric change formula.length formula.toList)

end

/-- Moves both ends of a reference along one of its axes. -/
def moveAxis (shift : Shift) (get : Reference → Option UInt32)
    (set : Reference → Option UInt32 → Reference) (first : Reference) (second : Option Reference) :
    Option (Reference × Option Reference) :=
  match get first, second with
  | none, _ => some (first, second)
  | some start, some stop => do
    let last ← get stop
    let (start, last) ← shift.span start last
    return (set first (some start), some (set stop (some last)))
  | some start, none => do return (set first (some (← shift.line start)), none)

/-- Moves the references of a formula across inserted or deleted rows or columns of one sheet. -/
def shiftFormula (isAlphanumeric : Char → Bool) (formula : String) (ownSheet : Bool) (sheet : String)
    (rows columns : Option Shift) : String :=
  mapReferences isAlphanumeric (fun named first second =>
    if named.elim ownSheet (String.ofList · == sheet) then do
      let (first, second) ← match rows with
        | some shift => moveAxis shift (·.row) (fun r row => { r with row }) first second
        | none => some (first, second)
      match columns with
      | some shift => moveAxis shift (·.column) (fun r column => { r with column }) first second
      | none => some (first, second)
    else some (first, second)) formula

/-- Moves a list of ranges across inserted or deleted rows or columns. A deleted range goes. -/
def shiftRanges (ranges : String) (shift : Shift) (rows : Bool) : String :=
  let words := (ranges.toList.splitOnP isWhitespace).filter (· ≠ [])
  " ".intercalate (words.filterMap fun word => do
    let r ← parseRange word
    if rows then
      let (top, bottom) ← shift.span r.top r.bottom
      return rangeName { r with top, bottom }
    else
      let (left, right) ← shift.span r.left r.right
      return rangeName { r with left, right })

example : (parseCell "AA10".toList, cellName 9 26, parseCell "A0".toList) = (some (9, 26), "AA10", none) := by
  decide +kernel

end Kodosi.Xlsx
