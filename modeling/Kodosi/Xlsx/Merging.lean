import Kodosi.Xlsx.Compare

/-! What the live copy is after another program's changes, and when that is what it should be. -/

namespace Kodosi.Xlsx
open Kodosi.Lib

variable {R : Type} [BEq R] {isAlphanumeric : Char → Bool} {m from' to' live : Model R}

/-! ### Cells -/

variable {x : Sheet R}

omit [BEq R] in
theorem cell_setCell {key : UInt32 × UInt32} {c after : Cell R} (hc : c = after) (k : UInt32 × UInt32) :
    (setCell x ⟨key.1, key.2, some c.value, some c.formula, some c.style, none⟩).cell k = if k = key then after else x.cell k := by
  subst hc
  have hcell : (setCell x ⟨key.1, key.2, some c.value, some c.formula, some c.style, none⟩).cells =
      if c.isEmpty then x.cells.erase key else x.cells.insert key c := rfl
  have hcmp : cellOrder key k = .eq ↔ k = key :=
    ⟨fun h => (Std.LawfulEqCmp.eq_of_compare h).symm, fun h => h ▸ Std.ReflCmp.compare_self⟩
  rw [Sheet.cell, hcell]
  split_ifs with hempty hkey hkey
  · rw [Std.ExtTreeMap.getElem?_erase, if_pos (hcmp.mpr hkey)]
    obtain ⟨value, formula, style⟩ := c
    simp only [Cell.isEmpty, Bool.and_eq_true, Option.isNone_iff_eq_none] at hempty
    obtain ⟨⟨rfl, rfl⟩, rfl⟩ := hempty
    rfl
  · rw [Std.ExtTreeMap.getElem?_erase, if_neg fun h => hkey (hcmp.mp h)]
    rfl
  · rw [Std.ExtTreeMap.getElem?_insert, if_pos (hcmp.mpr hkey)]
    rfl
  · rw [Std.ExtTreeMap.getElem?_insert, if_neg fun h => hkey (hcmp.mp h)]
    rfl

/-- A cell that is another one in the second state is that one, and each other cell stays. -/
theorem cell_withCells (old new x : Sheet R) (key : UInt32 × UInt32) :
    (withCells old new x).cell key = if old.cells[key]? == new.cells[key]? then x.cell key else new.cell key := by
  have hrun : ∀ (keys : List (UInt32 × UInt32)) (x : Sheet R), ((keys.filterMap (cellDiff old new)).foldl setCell x).cell key =
      if key ∈ keys ∧ ¬(old.cells[key]? == new.cells[key]?) = true then new.cell key else x.cell key := by
    intro keys
    induction keys with
    | nil => exact fun x => by simp
    | cons k keys ih =>
      intro x
      by_cases hsame : (old.cells[k]? == new.cells[k]?) = true
      · rw [List.filterMap_cons_none (by rw [cellDiff, if_pos hsame]), ih]
        refine if_congr ⟨fun h => ⟨List.mem_cons_of_mem _ h.1, h.2⟩, fun h => ⟨?_, h.2⟩⟩ rfl rfl
        rcases List.mem_cons.mp h.1 with rfl | hmem
        · exact absurd hsame h.2
        · exact hmem
      · rw [List.filterMap_cons_some (by rw [cellDiff, if_neg hsame]), List.foldl_cons, ih, cell_setCell rfl]
        by_cases hkey : key = k
        · subst hkey
          rw [if_pos rfl, if_pos (c := key ∈ key :: keys ∧ _) ⟨List.mem_cons_self .., hsame⟩]
          exact ite_self _
        · rw [if_neg hkey]
          refine if_congr ⟨fun h => ⟨List.mem_cons_of_mem _ h.1, h.2⟩, fun h => ⟨?_, h.2⟩⟩ rfl rfl
          exact (List.mem_cons.mp h.1).resolve_left hkey
  rw [withCells, hrun]
  by_cases hsame : (old.cells[key]? == new.cells[key]?) = true
  · rw [if_neg fun h => h.2 hsame, if_pos hsame]
  · have hmem : key ∈ bothKeys old new := by
      rw [bothKeys, Std.ExtTreeSet.mem_toList, Std.ExtTreeSet.mem_ofList, List.contains_iff_mem, List.mem_append,
        Std.ExtTreeMap.mem_keys, Std.ExtTreeMap.mem_keys]
      by_contra hnone
      rw [not_or] at hnone
      rw [Std.ExtTreeMap.getElem?_eq_none hnone.1, Std.ExtTreeMap.getElem?_eq_none hnone.2] at hsame
      exact hsame rfl
    rw [if_pos ⟨hmem, hsame⟩, if_neg hsame]

theorem cell_turned (old new x : Sheet R) (key : UInt32 × UInt32) :
    (turned old new x).cell key = if old.cells[key]? == new.cells[key]? then x.cell key else new.cell key := by
  show (withCells old new _).cell key = _
  rw [cell_withCells]
  have hname : (if old.name ≠ new.name then { x with name := new.name } else x).cell key = x.cell key := by
    split_ifs <;> rfl
  rw [hname]

theorem name_turned (old new x : Sheet R) : (turned old new x).name = if old.name ≠ new.name then new.name else x.name := by
  show (withCells old new _).name = _
  rw [withCells_fields]
  split_ifs <;> rfl

/-! ### Sizes and merges -/

omit [BEq R] in
theorem getElem?_insertMany (sizes more : Lines R) (line : UInt32) :
    (sizes.insertMany more.toList)[line]? = more[line]?.or sizes[line]? := by
  cases h : more[line]? with
  | some size =>
    exact Std.ExtTreeMap.getElem?_insertMany_list_of_mem Std.ReflCmp.compare_self Std.ExtTreeMap.distinct_keys_toList
      (Std.ExtTreeMap.mem_toList_iff_getElem?_eq_some.mpr h)
  | none =>
    refine Std.ExtTreeMap.getElem?_insertMany_list_of_contains_eq_false ?_
    rw [List.contains_eq_mem, decide_eq_false_iff_not]
    intro hmem
    obtain ⟨⟨k, size⟩, hentry, rfl⟩ := List.mem_map.mp hmem
    rw [Std.ExtTreeMap.mem_toList_iff_getElem?_eq_some.mp hentry] at h
    exact absurd h nofun

/-- Sizes go over to those of the second state, but for those that it does not have. -/
theorem sizes_turned {old new : Lines R} (hkept : ∀ line ∈ old, line ∈ new) (line : UInt32) :
    (old.insertMany (sizesChange old new).toList)[line]? = new[line]? ∨
      ((old.insertMany (sizesChange old new).toList)[line]? == new[line]?) = true := by
  rw [getElem?_insertMany, sizesChange, Std.ExtTreeMap.getElem?_filter']
  cases hnew : new[line]? with
  | some size =>
    by_cases hsame : (old[line]? != some size) = true
    · exact .inl (by rw [Option.filter_some, if_pos hsame]; rfl)
    · refine .inr ?_
      rw [Option.filter_some, if_neg hsame, Option.none_or]
      simpa [bne] using hsame
  | none =>
    have hnone : old[line]? = none := by
      by_contra hsome
      have hmem := hkept line (Std.ExtTreeMap.mem_iff_isSome_getElem?.mpr (Option.isSome_iff_ne_none.mpr hsome))
      rw [Std.ExtTreeMap.mem_iff_isSome_getElem?, hnew] at hmem
      exact absurd hmem Bool.false_ne_true
    exact .inl (by rw [Option.filter_none, Option.none_or, hnone])

omit [BEq R] in
theorem mem_withMerges {add remove : List Range} {r : Range} :
    r ∈ (withMerges add remove x).merges ↔ r ∈ add ∨ (r ∈ x.merges ∧ r ∉ remove) := by
  have hrun : ∀ (add merges : List Range), r ∈ add.foldl (fun merges merge => if merge ∈ merges then merges else merges ++ [merge]) merges ↔
      r ∈ add ∨ r ∈ merges := by
    intro add
    induction add with
    | nil => exact fun merges => by simp
    | cons a add ih =>
      intro merges
      rw [List.foldl_cons, ih, List.mem_cons]
      split_ifs with hin
      · refine ⟨fun h => h.imp_left .inr, fun h => ?_⟩
        rcases h with (rfl | h) | h
        · exact .inr hin
        · exact .inl h
        · exact .inr h
      · rw [List.mem_append, List.mem_singleton]
        tauto
  rw [withMerges]
  show r ∈ add.foldl _ _ ↔ _
  rw [hrun, List.mem_filter, decide_eq_true_iff]

theorem merges_turned (old new : Sheet R) (x : Sheet R) (hx : x.merges = old.merges) (r : Range) :
    r ∈ (turned old new x).merges ↔ r ∈ new.merges := by
  have hmerges : (withSizes (sizesChange old.widths new.widths) (sizesChange old.heights new.heights)
      (withCells old new (if old.name ≠ new.name then { x with name := new.name } else x))).merges = old.merges := by
    show (withCells old new _).merges = _
    rw [withCells_fields, ← hx]
    split_ifs <;> rfl
  rw [turned, withLayout, mem_withMerges, hmerges, List.mem_filter, List.mem_filter, decide_eq_true_iff, decide_eq_true_iff]
  tauto

theorem sizes_of_turned (old new x : Sheet R) :
    (turned old new x).widths = x.widths.insertMany (sizesChange old.widths new.widths).toList ∧
      (turned old new x).heights = x.heights.insertMany (sizesChange old.heights new.heights).toList := by
  have hcells : ∀ x : Sheet R, (withCells old new x).widths = x.widths ∧ (withCells old new x).heights = x.heights := by
    intro x
    rw [withCells_fields]
    exact ⟨rfl, rfl⟩
  refine ⟨?_, ?_⟩
  · show (withCells old new _).widths.insertMany _ = _
    rw [(hcells _).1]
    split_ifs <;> rfl
  · show (withCells old new _).heights.insertMany _ = _
    rw [(hcells _).2]
    split_ifs <;> rfl

/-! ### All sheets -/

/-- A sheet of the live copy takes the changes of the sheet of its id. -/
def turnedBy (from' : Model R) (sheets : List (Sheet R)) (x : Sheet R) : Sheet R :=
  match sheets.find? (·.id == x.id) with
  | some new => turned ((from'.sheet new.id).getD .blank) new x
  | none => x

/-- At its turn each new sheet finds its id and its name free, where the sheets that were there are renamed before. -/
def FindsFree (from' : Model R) : List (Sheet R) → List (String × String) → Prop
  | [], _ => True
  | new :: rest, there =>
    match from'.sheet new.id with
    | some old => FindsFree from' rest (there.map fun x => if x.1 = new.id ∧ old.name ≠ new.name then (x.1, new.name) else x)
    | none => (∀ x ∈ there, x.1 ≠ new.id ∧ x.2 ≠ new.name) ∧ FindsFree from' rest (there ++ [(new.id, new.name)])

/-- A sheet of the second state that is added, with its number. -/
def Adds (new x : Sheet R) : Prop := ∃ number, x = turned .blank new (added new.id new.name number)

theorem turnedBy_id (sheets : List (Sheet R)) (x : Sheet R) : (turnedBy from' sheets x).id = x.id := by
  rw [turnedBy]
  split
  · exact turned_id _ _ _
  · rfl

variable {sheets : List (Sheet R)}

theorem turnedBy_cons_other {new : Sheet R} (h : x.id ≠ new.id) :
    turnedBy from' (new :: sheets) x = turnedBy from' sheets x := by
  rw [turnedBy, turnedBy, List.find?_cons_of_neg (by simpa using Ne.symm h)]

theorem turnedBy_absent (h : ∀ new ∈ sheets, new.id ≠ x.id) : turnedBy from' sheets x = x := by
  have hnone : sheets.find? (·.id == x.id) = none := List.find?_eq_none.mpr fun new hnew => by simpa using h new hnew
  rw [turnedBy, hnone]

/-- The changes of the sheets of the second state, one sheet after the other. -/
theorem takeAll_sheets (sheets : List (Sheet R)) (hsheets : (sheets.map (·.id)).Nodup) (hids : (m.sheets.map (·.id)).Nodup)
    (hfree : FindsFree from' sheets (m.sheets.map fun x => (x.id, x.name))) :
    ∃ news, (takeAll isAlphanumeric m (sheets.flatMap (sheetChanges from'))).sheets = m.sheets.map (turnedBy from' sheets) ++ news ∧
      (takeAll isAlphanumeric m (sheets.flatMap (sheetChanges from'))).looks = m.looks ∧
      List.Forall₂ Adds (sheets.filter fun new => (from'.sheet new.id).isNone) news := by
  induction sheets generalizing m with
  | nil => exact ⟨[], by rw [List.append_nil]; exact (List.map_id' _).symm, rfl, .nil⟩
  | cons new sheets ih =>
    rw [List.map_cons, List.nodup_cons] at hsheets
    have hother : ∀ x ∈ sheets, x.id ≠ new.id := fun x hx h => hsheets.1 (List.mem_map.mpr ⟨x, hx, h⟩)
    rw [List.flatMap_cons, takeAll_append]
    cases hold : from'.sheet new.id with
    | some old =>
      rw [FindsFree, hold] at hfree
      rw [takeAll_known hids hold]
      have hnames : (m.mapSheet new.id (turned old new)).sheets.map (fun x => (x.id, x.name)) =
          (m.sheets.map fun x => (x.id, x.name)).map fun x => if x.1 = new.id ∧ old.name ≠ new.name then (x.1, new.name) else x := by
        rw [Model.mapSheet, List.map_map, List.map_map]
        refine List.map_congr_left fun x _ => ?_
        show ((if x.id = new.id then turned old new x else x).id, (if x.id = new.id then turned old new x else x).name) =
          if x.id = new.id ∧ old.name ≠ new.name then (x.id, new.name) else (x.id, x.name)
        by_cases hid : x.id = new.id
        · rw [if_pos hid, turned_id, name_turned]
          by_cases hname : old.name ≠ new.name
          · rw [if_pos hname, if_pos ⟨hid, hname⟩]
          · rw [if_neg hname, if_neg fun h => hname h.2]
        · rw [if_neg hid, if_neg fun h => hid h.1]
      obtain ⟨news, hresult, hlooks, hnews⟩ := @ih (m.mapSheet new.id (turned old new)) hsheets.2
        (by rw [mapSheet_ids (turned_id old new)]; exact hids) (by rw [hnames]; exact hfree)
      refine ⟨news, ?_, hlooks, ?_⟩
      · rw [hresult]
        congr 1
        rw [Model.mapSheet, List.map_map]
        refine List.map_congr_left fun x _ => ?_
        show turnedBy from' sheets (if x.id = new.id then turned old new x else x) = _
        by_cases hid : x.id = new.id
        · have hself : turnedBy from' (new :: sheets) x = turned old new x := by
            rw [turnedBy, List.find?_cons_of_pos (by simpa using hid.symm)]
            dsimp only
            rw [hold]
            rfl
          rw [if_pos hid, hself]
          exact turnedBy_absent fun y hy => by rw [turned_id, hid]; exact hother y hy
        · rw [if_neg hid, turnedBy_cons_other hid]
      · rw [List.filter_cons_of_neg (by rw [hold]; exact Bool.false_ne_true)]
        exact hnews
    | none =>
      rw [FindsFree, hold] at hfree
      obtain ⟨hfresh, hfree⟩ := hfree
      have hid : ∀ x ∈ m.sheets, x.id ≠ new.id := fun x hx => (hfresh _ (List.mem_map.mpr ⟨x, hx, rfl⟩)).1
      have hname : ∀ x ∈ m.sheets, x.name ≠ new.name := fun x hx => (hfresh _ (List.mem_map.mpr ⟨x, hx, rfl⟩)).2
      rw [takeAll_new hids hold hid hname]
      set fresh : Sheet R := turned .blank new (added new.id new.name (m.lastNumber + 1)) with hfreshSheet
      have hfreshId : fresh.id = new.id := turned_id _ _ _
      have hfreshName : fresh.name = new.name := by
        rw [hfreshSheet, name_turned]
        split_ifs <;> rfl
      obtain ⟨news, hresult, hlooks, hnews⟩ := @ih { m with lastNumber := m.lastNumber + 1, sheets := m.sheets ++ [fresh] } hsheets.2
        (by
          rw [List.map_append, List.nodup_append]
          refine ⟨hids, List.nodup_singleton _, fun a ha b hb => ?_⟩
          obtain ⟨x, hx, rfl⟩ := List.mem_map.mp ha
          obtain rfl := List.mem_singleton.mp hb
          show x.id ≠ fresh.id
          rw [hfreshId]
          exact hid x hx)
        (by
          rw [List.map_append, List.map_singleton, hfreshId, hfreshName]
          exact hfree)
      refine ⟨fresh :: news, ?_, hlooks, ?_⟩
      · rw [hresult, List.map_append, List.append_assoc]
        congr 1
        · exact List.map_congr_left fun x hx => (turnedBy_cons_other (hid x hx)).symm
        · rw [List.map_singleton, turnedBy_absent fun y hy => by rw [hfreshId]; exact hother y hy]
          rfl
      · rw [List.filter_cons_of_pos (by rw [hold]; rfl)]
        exact .cons ⟨_, rfl⟩ hnews

/-- The sheets that are gone are removed, as long as another one is left. -/
theorem takeAll_removals {removed : List String} (hleft : ∃ x ∈ m.sheets, x.id ∉ removed) :
    (takeAll isAlphanumeric m (removed.map .removeSheet)).sheets = m.sheets.filter (fun x => decide (x.id ∉ removed)) ∧
      (takeAll isAlphanumeric m (removed.map .removeSheet)).looks = m.looks := by
  induction removed generalizing m with
  | nil => simp [takeAll]
  | cons id removed ih =>
    obtain ⟨x, hx, hnot⟩ := hleft
    obtain ⟨hne, hnot⟩ := List.ne_and_not_mem_of_not_mem_cons hnot
    have hremove : (apply isAlphanumeric m (.removeSheet id) []).2 = { m with sheets := m.sheets.filter (·.id != id) } := by
      by_cases hlast : m.sheets.length = 1
      · -- the one sheet that is left stays, and it is not the one that goes
        have hrefused : (apply isAlphanumeric m (.removeSheet id) []).2 = m := by
          rw [apply_plain rfl rfl, applyOne, reject, if_pos hlast]
          rfl
        obtain ⟨y, hy⟩ := List.length_eq_one_iff.mp hlast
        obtain rfl : x = y := by simpa [hy] using hx
        rw [hrefused]
        obtain ⟨sheets, looks, names, lastNumber⟩ := m
        obtain rfl : sheets = [x] := hy
        congr 1
        rw [List.filter_cons_of_pos (by simpa using hne)]
        rfl
      · rw [apply_plain rfl rfl, applyOne, ok_bind (reject_ok.mpr hlast)]
        rfl
    show (takeAll isAlphanumeric (apply isAlphanumeric m (.removeSheet id) []).2 _).sheets = _ ∧
      (takeAll isAlphanumeric (apply isAlphanumeric m (.removeSheet id) []).2 _).looks = _
    rw [hremove]
    obtain ⟨hsheets, hlooks⟩ := @ih { m with sheets := m.sheets.filter (·.id != id) }
      ⟨x, List.mem_filter.mpr ⟨hx, by simpa using hne⟩, hnot⟩
    refine ⟨?_, hlooks⟩
    rw [hsheets, List.filter_filter]
    refine List.filter_congr fun y _ => ?_
    simp [bne, Bool.and_comm, beq_eq_decide]

end Kodosi.Xlsx
