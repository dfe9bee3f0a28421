import Kodosi.Xlsx.Apply

/-! The sheets that a formula names, and the formulas of a workbook. -/

namespace Kodosi.Xlsx

section

variable (isAlphanumeric : Char → Bool)

/-- The second end of a reference, if there is one, and what is left after it. -/
def secondEnd (rest : List Char) : Option Reference × List Char :=
  match rest with
  | ':' :: more =>
    match parseReference (more.span (isNameLetter isAlphanumeric)).1 with
    | some reference => (some reference, (more.span (isNameLetter isAlphanumeric)).2)
    | none => (none, rest)
  | _ => (none, rest)

/-- The sheet that one reference names, if there is a reference, and what is left after it. -/
def namedBy (sheet : Option (List Char)) (letters : List Char) : List (Option (List Char)) × List Char :=
  let (word, rest) := letters.span (isNameLetter isAlphanumeric)
  match parseReference word with
  | none => ([], rest)
  | some first =>
    let (second, left) := secondEnd isAlphanumeric rest
    if (first.row.isNone ∨ first.column.isNone) ∧ second.isNone then ([], rest) else ([sheet], left)

/-- What each reference of a formula names, in order: the rounds are those that rewrite it. -/
def namedFrom : Nat → List Char → List (Option (List Char))
  | 0, _ => []
  | _, [] => []
  | n + 1, c :: rest =>
    if c = '"' then namedFrom n (quoted '"' rest).2
    else if c = '\'' then
      let (text, left) := quoted '\'' rest
      match left with
      | '!' :: more =>
        let (named, left) := namedBy isAlphanumeric (some (unquoted text.dropLast)) more
        named ++ namedFrom n left
      | _ => namedFrom n left
    else if isNameLetter isAlphanumeric c then
      let (word, after) := (c :: rest).span (isNameLetter isAlphanumeric)
      match after with
      | '!' :: more =>
        let (named, left) := namedBy isAlphanumeric (some word) more
        named ++ namedFrom n left
      | '(' :: _ => namedFrom n after
      | _ =>
        let (named, left) := namedBy isAlphanumeric none (c :: rest)
        named ++ namedFrom n left
    else namedFrom n rest

/-- The sheets that a formula names. -/
def sheetsNamed (formula : String) : List String :=
  (namedFrom isAlphanumeric formula.length formula.toList).filterMap (·.map String.ofList)

/-- One reference of a formula: what it names, and its ends. -/
abbrev ReadReference := Option (List Char) × Reference × Option Reference

/-- One reference, if there is one, and what is left after it. -/
def readBy (sheet : Option (List Char)) (letters : List Char) : List ReadReference × List Char :=
  let (word, rest) := letters.span (isNameLetter isAlphanumeric)
  match parseReference word with
  | none => ([], rest)
  | some first =>
    let (second, left) := secondEnd isAlphanumeric rest
    if (first.row.isNone ∨ first.column.isNone) ∧ second.isNone then ([], rest) else ([(sheet, first, second)], left)

/-- Each reference of a formula, in order. -/
def readsFrom : Nat → List Char → List ReadReference
  | 0, _ => []
  | _, [] => []
  | n + 1, c :: rest =>
    if c = '"' then readsFrom n (quoted '"' rest).2
    else if c = '\'' then
      let (text, left) := quoted '\'' rest
      match left with
      | '!' :: more =>
        let (reads, left) := readBy isAlphanumeric (some (unquoted text.dropLast)) more
        reads ++ readsFrom n left
      | _ => readsFrom n left
    else if isNameLetter isAlphanumeric c then
      let (word, after) := (c :: rest).span (isNameLetter isAlphanumeric)
      match after with
      | '!' :: more =>
        let (reads, left) := readBy isAlphanumeric (some word) more
        reads ++ readsFrom n left
      | '(' :: _ => readsFrom n after
      | _ =>
        let (reads, left) := readBy isAlphanumeric none (c :: rest)
        reads ++ readsFrom n left
    else readsFrom n rest

/-! ### The references are those that are rewritten -/

variable {isAlphanumeric}

variable {change : MapReference} {sheet : Option (List Char)} {before letters : List Char}

theorem copyReference_none (h : parseReference (letters.span (isNameLetter isAlphanumeric)).1 = none) :
    copyReference isAlphanumeric change sheet before letters =
      (before ++ (letters.span (isNameLetter isAlphanumeric)).1, (letters.span (isNameLetter isAlphanumeric)).2) := by
  simp only [copyReference, h]

theorem copyReference_some {first : Reference}
    (h : parseReference (letters.span (isNameLetter isAlphanumeric)).1 = some first) :
    copyReference isAlphanumeric change sheet before letters =
      let word := (letters.span (isNameLetter isAlphanumeric)).1
      let rest := (letters.span (isNameLetter isAlphanumeric)).2
      let ends := secondEnd isAlphanumeric rest
      if (first.row.isNone ∨ first.column.isNone) ∧ ends.1.isNone then (before ++ word, rest)
      else match change sheet first ends.1 with
        | some (first, some second) => (before ++ first.write ++ ':' :: second.write, ends.2)
        | some (first, none) => (before ++ first.write, ends.2)
        | none => (before ++ "#REF!".toList, ends.2) := by
  simp only [copyReference, h]
  rfl

end

variable {R : Type}

/-- The formulas of the cells, and what the defined names stand for. -/
def Model.formulas (m : Model R) : List String :=
  m.sheets.flatMap (fun sheet => sheet.cells.toList.filterMap (·.2.formula)) ++ m.names.map (·.text)

end Kodosi.Xlsx
