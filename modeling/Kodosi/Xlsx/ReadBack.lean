import Kodosi.Xlsx.Codec

/-! Which changes come back from their JSON as they were: those that empty no part of a cell, and whose
    numbers and sizes JSON can carry. -/

namespace Kodosi.Xlsx
open Kodosi.Lib
open Kodosi.Derive

variable {R : Type} {S : Serde R}

/-! ### What JSON carries -/

/-- A number that has a numeral from which it comes back. -/
def Carried (S : Serde R) (r : R) : Prop :=
  ∃ digits, S.number r = some digits ∧ S.toNumber digits = some r

def Value.Keeps (S : Serde R) : Value R → Prop
  | .number r => Carried S r
  | _ => True

def Look.Keeps (S : Serde R) (l : Look R) : Prop := ∀ r ∈ l.size, Carried S r

/-- A cell change that empties nothing. -/
structure CellChange.Keeps (S : Serde R) (c : CellChange R) : Prop where
  value : ∀ v ∈ c.value, ∃ v', v = some v' ∧ v'.Keeps S
  formula : c.formula ≠ some none
  style : c.style ≠ some none
  look : ∀ l ∈ c.look, l.Keeps S

def Op.Keeps (S : Serde R) : Op R → Prop
  | .setCell _ _ value _ => ∀ v ∈ value, v.Keeps S
  | .setRange _ _ rows => ∀ row ∈ rows, ∀ value ∈ row, ∀ v ∈ value, v.Keeps S
  | .formatRange _ _ look => look.Keeps S
  | _ => True

/-- Sizes whose lines are read as numbers, when there are any. -/
def SizesKeep (S : Serde R) (sizes : Lines R) : Prop :=
  ∀ (line : UInt32) (size : R), sizes[line]? = some size → S.readsKeys = true ∧ Carried S size

mutual

def Change.Keeps (S : Serde R) : Change R → Prop
  | .cells _ cells => ∀ cell ∈ cells, cell.Keeps S
  | .size _ widths heights => SizesKeep S widths ∧ SizesKeep S heights
  | .ops ops => ∀ op ∈ ops, op.Keeps S
  | .group changes => AllKeep S changes
  | _ => True

def AllKeep (S : Serde R) : List (Change R) → Prop
  | [] => True
  | change :: changes => change.Keeps S ∧ AllKeep S changes

end

/-! ### Cells -/

theorem readF64_write {r : R} : readF64 S (writeF64 S r) = some r ↔ Carried S r := by
  unfold writeF64 Carried
  cases S.number r with
  | none => simp [readF64]
  | some digits => simp [readF64]

theorem readF64_null : readF64 S .null = none := rfl

theorem Look.ofFields_iff {fields : Fields} {l : Look R} : Look.ofFields S fields = some l ↔
    readFlag fields "bold" = some l.bold ∧ readFlag fields "italic" = some l.italic ∧
    readFlag fields "underline" = some l.underline ∧ readFlag fields "strike" = some l.strike ∧
    readText fields "color" = some l.color ∧
    defaulted fields "size" none (readOption (readF64 S)) = some l.size ∧
    readText fields "font" = some l.font ∧ readText fields "fill" = some l.fill ∧
    readText fields "numberFormat" = some l.numberFormat ∧ readText fields "align" = some l.align ∧
    readText fields "vertical" = some l.vertical ∧ readFlag fields "wrap" = some l.wrap := by
  unfold Look.ofFields
  simp only [Option.bind_eq_bind, Option.bind_eq_some_iff, Option.pure_def, Option.some.injEq]
  constructor
  · rintro ⟨_, h₁, _, h₂, _, h₃, _, h₄, _, h₅, _, h₆, _, h₇, _, h₈, _, h₉, _, h₁₀, _, h₁₁, _, h₁₂, rfl⟩
    exact ⟨h₁, h₂, h₃, h₄, h₅, h₆, h₇, h₈, h₉, h₁₀, h₁₁, h₁₂⟩
  · rintro ⟨h₁, h₂, h₃, h₄, h₅, h₆, h₇, h₈, h₉, h₁₀, h₁₁, h₁₂⟩
    exact ⟨_, h₁, _, h₂, _, h₃, _, h₄, _, h₅, _, h₆, _, h₇, _, h₈, _, h₉, _, h₁₀, _, h₁₁, _, h₁₂, rfl⟩

theorem Look.fromValue_null : Look.fromValue S .null = none := rfl

theorem Look.fromValue_toValue {l : Look R} : Look.fromValue S (l.toValue S) = some l ↔ l.Keeps S := by
  rw [Look.fromValue, Look.toValue, fieldsOf, Option.bind_some, Look.ofFields_iff]
  simp only [readFlag, readText, defaulted, List.lookup_append, lookup_skipped, lookup_skippedFalse,
    String.reduceEq, if_true, if_false, Option.or_none, Option.none_or, elim_skipped,
    elim_skippedFalse, true_and, readOption_some readF64_null,
    readOption_some readString_null, readString_string, readF64_write]
  simp [Look.Keeps]

theorem Value.fromValue_null : Value.fromValue S .null = none := rfl

theorem Value.fromValue_toValue {v : Value R} : Value.fromValue S (v.toValue S) = some v ↔ v.Keeps S := by
  cases v with
  | number r =>
    unfold Value.toValue Value.Keeps writeF64 Carried
    cases hr : S.number r with
    | none => simp [Value.fromValue, hr]
    | some digits => simp [Value.fromValue, hr]
  | bool b => simp [Value.toValue, Value.fromValue, Value.Keeps]
  | text s => simp [Value.toValue, Value.fromValue, Value.Keeps]
  | error s => simp [Value.toValue, Value.fromValue, Value.Keeps, required]

theorem CellChange.ofFields_iff {fields : Fields} {c : CellChange R} :
    CellChange.ofFields S fields = some c ↔
      required fields "row" readU32 = some c.row ∧ required fields "column" readU32 = some c.column ∧
      defaulted fields "value" none (readOption (readOption (Value.fromValue S))) = some c.value ∧
      defaulted fields "formula" none (readOption (readOption readString)) = some c.formula ∧
      defaulted fields "style" none (readOption (readOption readU32)) = some c.style ∧
      defaulted fields "look" none (readOption (Look.fromValue S)) = some c.look := by
  unfold CellChange.ofFields
  simp only [Option.bind_eq_bind, Option.bind_eq_some_iff, Option.pure_def, Option.some.injEq]
  constructor
  · rintro ⟨_, h₁, _, h₂, _, h₃, _, h₄, _, h₅, _, h₆, rfl⟩
    exact ⟨h₁, h₂, h₃, h₄, h₅, h₆⟩
  · rintro ⟨h₁, h₂, h₃, h₄, h₅, h₆⟩
    exact ⟨_, h₁, _, h₂, _, h₃, _, h₄, _, h₅, _, h₆, rfl⟩

theorem CellChange.fromValue_toValue {c : CellChange R} :
    CellChange.fromValue S (c.toValue S) = some c ↔ c.Keeps S := by
  rw [CellChange.fromValue, CellChange.toValue, fieldsOf, Option.bind_some, CellChange.ofFields_iff]
  simp only [required, defaulted, List.lookup_append, lookup_skipped, lookup_field, List.lookup_nil,
    String.reduceEq, if_true, if_false, Option.or_none, Option.none_or, elim_skipped, Option.bind_some,
    readU32_write, true_and, readOption_readOption_write Value.fromValue_null,
    readOption_readOption_write readString_null,
    readOption_readOption_write readU32_null, readOption_some Look.fromValue_null,
    Value.fromValue_toValue, Look.fromValue_toValue, readString_string, and_true]
  refine ⟨fun ⟨hvalue, hformula, hstyle, hlook⟩ => ⟨hvalue, ?_, ?_, hlook⟩, fun h =>
    ⟨h.value, fun a ha => ?_, fun a ha => ?_, h.look⟩⟩
  · rintro hnone
    obtain ⟨_, ha⟩ := hformula none hnone
    cases ha
  · rintro hnone
    obtain ⟨_, ha⟩ := hstyle none hnone
    cases ha
  · exact Option.ne_none_iff_exists'.mp fun hnone => h.formula (hnone ▸ ha)
  · exact Option.ne_none_iff_exists'.mp fun hnone => h.style (hnone ▸ ha)

/-! ### Lists and ops -/

theorem Op.fromValue_toValue {op : Op R} : Op.fromValue S (op.toValue S) = some op ↔ op.Keeps S := by
  cases op with
  | setCell | setRange | clearRange | formatRange | addSheet | renameSheet | removeSheet =>
    simp [Op.fromValue, Op.toValue, Op.Keeps, tagged, fieldsOf, textOf, required, Op.ofFields, defaulted,
      lookup_field, Option.bind_eq_some_iff, readOption_write Value.fromValue_null,
      readOption_write readString_null, Value.fromValue_toValue, Look.fromValue_toValue, readArray_write]
  | insertRows | deleteRows | insertColumns | deleteColumns =>
    simp [Op.fromValue, Op.toValue, Op.Keeps, tagged, fieldsOf, textOf, numberOf, required, Op.ofFields,
      linesOf, writeLines, lookup_field]

/-! ### Changes -/

theorem readKey_repr {key : UInt32} : readKey S key.toNat.repr = if S.readsKeys then some key else none := by
  have hlt : key.toNat < 4294967296 := key.toNat_lt
  simp [readKey, checked, Nat.toNat?_repr, hlt]

theorem readSize_write {line : UInt32} {size : R} {entry : UInt32 × R} :
    readSize S (line.toNat.repr, writeF64 S size) = some entry ↔
      S.readsKeys = true ∧ entry.1 = line ∧ readF64 S (writeF64 S size) = some entry.2 := by
  obtain ⟨line', size'⟩ := entry
  simp only [readSize, readKey_repr]
  by_cases hkeys : S.readsKeys = true
  · simp [hkeys, Option.bind_eq_some_iff, eq_comm (a := line), and_comm]
  · simp [hkeys]

/-- Lines of a list that has each of them once. -/
theorem getElem?_ofList_iff {V : Type} {entries : List (UInt32 × V)}
    (hdistinct : entries.Pairwise fun a b => ¬compare a.1 b.1 = .eq) {line : UInt32} {v : V} :
    (Std.ExtTreeMap.ofList entries)[line]? = some v ↔ (line, v) ∈ entries := by
  have hmem : ∀ {v'}, (line, v') ∈ entries → (Std.ExtTreeMap.ofList entries)[line]? = some v' :=
    fun h => Std.ExtTreeMap.getElem?_ofList_of_mem Std.ReflCmp.compare_self hdistinct h
  refine ⟨fun h => ?_, hmem⟩
  by_cases hline : line ∈ entries.map Prod.fst
  · obtain ⟨⟨_, v'⟩, hv', rfl⟩ := List.mem_map.mp hline
    have hsame := (hmem hv').symm.trans h
    rwa [Option.some.inj hsame] at hv'
  · have hnone : (Std.ExtTreeMap.ofList entries)[line]? = none :=
      Std.ExtTreeMap.getElem?_ofList_of_contains_eq_false (by simpa using hline)
    rw [hnone] at h
    cases h

theorem Lines.ofList_toList {V : Type} (lines : Lines V) : Std.ExtTreeMap.ofList lines.toList = lines := by
  refine Std.ExtTreeMap.ext_getElem? fun line => Option.ext fun v => ?_
  rw [getElem?_ofList_iff Std.ExtTreeMap.distinct_keys_toList,
    Std.ExtTreeMap.mem_toList_iff_getElem?_eq_some]

/-- Sizes for the lines of others are the same as those only if each of them is. -/
theorem sizes_agree {sizes : Lines R} {out : List (UInt32 × R)}
    (hlines : List.Forall₂ (fun e o => o.1 = e.1) sizes.toList out)
    (hout : Std.ExtTreeMap.ofList out = sizes) : out = sizes.toList := by
  have hfst : sizes.toList.map Prod.fst = out.map Prod.fst := by
    rw [← List.forall₂_eq_eq_eq, List.forall₂_map_left_iff, List.forall₂_map_right_iff]
    exact hlines.imp fun _ _ h => h.symm
  have hdistinct : out.Pairwise fun a b => ¬compare a.1 b.1 = .eq := by
    have hsizes : (sizes.toList.map Prod.fst).Pairwise fun a b => ¬compare a b = .eq :=
      List.pairwise_map.mpr Std.ExtTreeMap.distinct_keys_toList
    rw [hfst] at hsizes
    exact List.pairwise_map.mp hsizes
  obtain ⟨hlength, hzip⟩ := List.forall₂_iff_zip.mp hlines
  rw [eq_comm, ← List.forall₂_eq_eq_eq, List.forall₂_iff_zip]
  refine ⟨hlength, fun {e o} h => ?_⟩
  obtain ⟨he, ho⟩ := List.of_mem_zip h
  have hline : o.1 = e.1 := hzip h
  have hsize := (getElem?_ofList_iff hdistinct).mpr ho
  rw [hout, hline, Std.ExtTreeMap.mem_toList_iff_getElem?_eq_some.mp he] at hsize
  exact Prod.ext hline.symm (Option.some.inj hsize)

theorem readSizes_write {sizes : Lines R} : readSizes S (writeSizes S sizes) = some sizes ↔ SizesKeep S sizes := by
  have hread : ∀ out, (sizes.toList.map fun e => (e.1.toNat.repr, writeF64 S e.2)).mapM
      (readSize S) = some out ↔ List.Forall₂ (fun e o => S.readsKeys = true ∧ o.1 = e.1 ∧
        readF64 S (writeF64 S e.2) = some o.2) sizes.toList out := by
    intro out
    rw [mapM_eq_some_iff, List.forall₂_map_left_iff]
    simp only [readSize_write]
  simp only [readSizes, writeSizes, fieldsOf, Option.bind_eq_bind, Option.bind_some,
    Option.bind_eq_some_iff, Option.pure_def, Option.some.injEq, hread]
  constructor
  · rintro ⟨out, hout, heq⟩ line size hsize
    obtain rfl := sizes_agree (hout.imp fun _ _ h => h.2.1) heq
    rw [List.forall₂_same] at hout
    obtain ⟨hkeys, -, hnumber⟩ := hout _ (Std.ExtTreeMap.mem_toList_iff_getElem?_eq_some.mpr hsize)
    exact ⟨hkeys, readF64_write.mp hnumber⟩
  · intro h
    refine ⟨sizes.toList, List.forall₂_same.mpr fun e he => ?_, sizes.ofList_toList⟩
    obtain ⟨hkeys, hnumber⟩ := h _ _ (Std.ExtTreeMap.mem_toList_iff_getElem?_eq_some.mp he)
    exact ⟨hkeys, rfl, readF64_write.mpr hnumber⟩

theorem readRange_write (r : Range) : readRange (writeRange r) = some r := by
  simp [readRange, writeRange]

mutual

theorem Change.fromValue_toValue : ∀ {c : Change R}, Change.fromValue S (c.toValue S) = some c ↔ c.Keeps S
  | .cells .. => by
    simp [Change.fromValue, Change.toValue, Change.Keeps, tagged, textOf, required, readPlain, lookup_field,
      Option.bind_eq_some_iff, readArray_write, CellChange.fromValue_toValue]
  | .rows .. | .columns .. | .addSheet .. | .renameSheet .. | .removeSheet .. => by
    simp [Change.fromValue, Change.toValue, Change.Keeps, tagged, textOf, numberOf, required, readPlain,
      lookup_field]
  | .size .. => by
    simp [Change.fromValue, Change.toValue, Change.Keeps, tagged, textOf, required, defaulted, readPlain,
      lookup_field, Option.bind_eq_some_iff, readSizes_write]
  | .merges .. => by
    simp [Change.fromValue, Change.toValue, Change.Keeps, tagged, textOf, required, defaulted, readPlain,
      lookup_field, Option.bind_eq_some_iff, readArray_write, readRange_write]
  | .ops .. => by
    simp [Change.fromValue, Change.toValue, Change.Keeps, tagged, textOf, required, readPlain,
      lookup_field, Option.bind_eq_some_iff, readArray_write, Op.fromValue_toValue]
  | .group changes => by
    have hin : changesOf S (.array (toValues S changes)) = some changes ↔ AllKeep S changes := by
      rw [changesOf]
      exact readAll_toValues
    simp [Change.fromValue, Change.toValue, Change.Keeps, tagged, textOf, required,
      changesIn, hin]

theorem readAll_toValues : ∀ {cs : List (Change R)}, readAll S (toValues S cs) = some cs ↔ AllKeep S cs
  | [] => by simp [readAll, toValues, AllKeep]
  | c :: cs => by
    simp only [readAll, toValues, AllKeep, Option.bind_eq_some_iff, Option.map_eq_some_iff,
      List.cons.injEq]
    constructor
    · rintro ⟨_, hc, _, hcs, rfl, rfl⟩
      exact ⟨Change.fromValue_toValue.mp hc, readAll_toValues.mp hcs⟩
    · rintro ⟨hc, hcs⟩
      exact ⟨c, Change.fromValue_toValue.mpr hc, cs, readAll_toValues.mpr hcs, rfl, rfl⟩

end

/-- Every change comes back from its JSON as it was exactly when it empties no part of a cell, its numbers
    have numerals that give them back, and its lines are read as numbers. -/
theorem reads_back_iff (S : Serde R) (c : Change R) :
    Change.fromValue S (c.toValue S) = some c ↔ c.Keeps S := Change.fromValue_toValue

/-! ### A cell that is emptied -/

/-- A cell change that empties its value and its formula is read back as one that leaves them. -/
theorem CellChange.fromValue_cleared (row column : UInt32) :
    CellChange.fromValue S
        (({ cellChange row column with value := some none, formula := some none } : CellChange R).toValue S) =
      some (cellChange row column) := by
  rw [CellChange.fromValue, CellChange.toValue, fieldsOf, Option.bind_some, CellChange.ofFields_iff]
  simp [required, defaulted, List.lookup_append, lookup_skipped, lookup_field, cellChange, writeOption,
    readOption]

/-- JSON for workbooks without numbers. -/
def noNumbers : Serde Unit := ⟨fun _ => none, fun _ => none, true⟩

/-- A workbook with one cell. -/
def oneCell : Model Unit :=
  ⟨[{ Sheet.blank with
      id := "1", number := 1, name := "Sheet1"
      cells := (∅ : Cells Unit).insert (0, 0) ⟨some (.text "paid"), none, none⟩ }],
    [], [], 1⟩

/-- An op that clears the cell clears it where it is applied, but not where its change is read back. -/
theorem clear_lost : ∃ c c' : Change Unit,
    (apply Char.isAlphanum oneCell (.ops [.clearRange "Sheet1" "A1"]) []).1 = .ok c ∧
      Change.fromValue noNumbers (c.toValue noNumbers) = some c' ∧ c' ≠ c ∧
      ((apply Char.isAlphanum oneCell (.ops [.clearRange "Sheet1" "A1"]) []).2.sheets.map fun sheet =>
        sheet.cells[((0 : UInt32), (0 : UInt32))]?.isSome) = [false] ∧
      ((apply Char.isAlphanum oneCell c' []).2.sheets.map fun sheet =>
        sheet.cells[((0 : UInt32), (0 : UInt32))]?.isSome) = [true] := by
  refine ⟨.group [.cells "1" [{ cellChange 0 0 with value := some none, formula := some none }]],
    .group [.cells "1" [cellChange 0 0]], ?_, ?_, ?_, ?_, ?_⟩
  · rfl
  · simp [Change.fromValue, Change.toValue, toValues, tagged, textOf, required, changesIn, changesOf,
      readAll, readPlain, lookup_field, readArray, writeArray, CellChange.fromValue_cleared]
  · simp [cellChange]
  · decide
  · decide

end Kodosi.Xlsx
