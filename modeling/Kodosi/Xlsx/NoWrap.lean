import Kodosi.Xlsx.Fits
import Kodosi.Xlsx.Merging

/-! No sum wraps in a run of changes whose lines have numbers. -/

namespace Kodosi.Xlsx
open Kodosi.Lib
open Kodosi.Documents (Ordered Refused Unreadable)

section

variable {R : Type} {isAlphanumeric : Char → Bool} {s : Shift} {rows : Bool} {sheet : Sheet R} {m m' : Model R}

/-! ### Lines keep their numbers -/

variable {key : UInt32 × UInt32}

theorem keyOf_hasNumber (hs : s.OnGrid) {key' : UInt32 × UInt32} (hholds : s.Holds 1 (axis key rows))
    (hnumber : ∀ rows, HasNumber (axis key rows)) (h : s.keyOf key rows = some key') (rows' : Bool) :
    HasNumber (axis key' rows') := by
  cases rows with
  | true =>
    obtain ⟨k, hk, rfl⟩ := Option.map_eq_some_iff.mp h
    cases rows' with
    | true => exact Shift.line_hasNumber hs hholds (hnumber true) hk
    | false => exact hnumber false
  | false =>
    obtain ⟨k, hk, rfl⟩ := Option.map_eq_some_iff.mp h
    cases rows' with
    | true => exact hnumber true
    | false => exact Shift.line_hasNumber hs hholds (hnumber false) hk

theorem movedMerge_numbered (hs : s.OnGrid) {r r' : Range} (hfirst : s.Holds 1 (r.span rows).1) (hlast : s.Holds 1 (r.span rows).2)
    (hr : r.Numbered) (h : movedMerge s rows r = some r') : r'.Numbered := by
  rw [movedMerge_eq] at h
  obtain ⟨first, hline, h⟩ := Option.bind_eq_some_iff.mp h
  obtain ⟨last, hline', rfl⟩ := Option.map_eq_some_iff.mp h
  have hends : HasNumber first ∧ HasNumber last :=
    ⟨Shift.line_hasNumber hs hfirst (hr rows).1 hline, Shift.line_hasNumber hs hlast (hr rows).2 hline'⟩
  intro rows'
  cases rows <;> cases rows'
  · exact hends
  · exact hr true
  · exact hr false
  · exact hends

theorem numbered_moveLines (hs : s.OnGrid) (hholds : SheetHolds s rows sheet) (h : sheet.Numbered) : (sheet.moveLines s rows).Numbered := by
  have hlines : ∀ {V : Type} {lines : Lines V}, (∀ l ∈ lines, s.Holds 1 l) → (∀ l ∈ lines, HasNumber l) →
      ∀ l ∈ movedKeys lines s, HasNumber l := by
    intro V lines hholds hnumber l hl
    obtain ⟨k, hk, hmove⟩ := mem_moveKeys (show l ∈ moveKeys lines s.line from hl)
    exact Shift.line_hasNumber hs (hholds k hk) (hnumber k hk) hmove
  have hcells : ∀ key ∈ moveKeys sheet.cells (s.keyOf · rows), ∀ rows, HasNumber (axis key rows) := by
    intro key hkey
    obtain ⟨k, hk, hmove⟩ := mem_moveKeys hkey
    exact keyOf_hasNumber hs (hholds.cells k hk) (h.cells k hk) hmove
  have hmerges : ∀ r ∈ sheet.merges.filterMap (movedMerge s rows), r.Numbered := by
    intro r hr
    obtain ⟨r₀, hin, hmoved⟩ := List.mem_filterMap.mp hr
    exact movedMerge_numbered hs (hholds.merges r₀ hin).1 (hholds.merges r₀ hin).2 (h.merges r₀ hin) hmoved
  rw [moveLines_sheet]
  cases rows with
  | true =>
    refine ⟨hcells, hmerges, fun rows => ?_, fun rows => ?_⟩ <;> cases rows
    · exact h.sizes false
    · exact hlines hholds.sizes (h.sizes true)
    · exact h.looks false
    · exact hlines hholds.looks (h.looks true)
  | false =>
    refine ⟨hcells, hmerges, fun rows => ?_, fun rows => ?_⟩ <;> cases rows
    · exact hlines hholds.sizes (h.sizes false)
    · exact h.sizes true
    · exact hlines hholds.looks (h.looks false)
    · exact h.looks true

variable {id : String} {f : Sheet R → Sheet R}

/-- What becomes of one sheet leaves the others as they are. -/
theorem numbered_update (h : m.updateSheet id f = some m') (hm : m.Numbered)
    (hf : ∀ x, m.sheet id = some x → (f x).Numbered) : m'.Numbered := by
  obtain ⟨i, hi, rfl⟩ := Option.map_eq_some_iff.mp h
  obtain ⟨hlt, hid, hbefore⟩ := List.findIdx?_eq_some_iff_getElem.mp hi
  intro x hx
  have hx : x ∈ m.sheets.modify i f := hx
  rw [List.modify_eq_take_cons_drop hlt] at hx
  rcases List.mem_append.mp hx with hx | hx
  · exact hm x (List.mem_of_mem_take hx)
  · rcases List.mem_cons.mp hx with rfl | hx
    · refine hf _ ?_
      rw [Model.sheet, List.find?_eq_some_iff_getElem]
      exact ⟨hid, i, hlt, rfl, fun j hj => by simpa using hbefore j hj⟩
    · exact hm x (List.mem_of_mem_drop hx)

theorem numbered_move {at' : UInt32} {count : Int32} (hm : m.Numbered)
    (hholds : MoveHolds isAlphanumeric m id ⟨at', count⟩ rows)
    (h : moveLines isAlphanumeric m id at' count rows = .ok m') :
    m'.Numbered ∧ ∀ x ∈ moveLinesSums isAlphanumeric m id at' count rows, x.Fits := by
  obtain ⟨⟨⟩, haccepted, h⟩ := bind_ok h
  obtain ⟨known, hknown, h⟩ := bind_ok h
  have haccepted : Shift.Accepted ⟨at', count⟩ := by
    have hnot := reject_ok.mp haccepted
    rw [not_or, not_lt] at hnot
    exact hnot
  refine ⟨?_, moveLinesSums_fit haccepted hholds⟩
  have hknown := require_ok.mp hknown
  have hupdate := require_ok.mp h
  have hmap : ∀ {x : Sheet R} {f : UInt32 × UInt32 → Cell R → Cell R}, x.Numbered → ({ x with cells := x.cells.map f } : Sheet R).Numbered :=
    fun hx => ⟨fun key hkey => hx.cells key (Std.ExtTreeMap.mem_map.mp hkey), hx.merges, hx.sizes, hx.looks⟩
  refine numbered_update hupdate ?_ fun x hx => ?_
  · intro x hx
    obtain ⟨y, hy, rfl⟩ := List.mem_map.mp hx
    exact hmap (hm y hy)
  · rw [Model.sheet, List.find?_map, Option.map_eq_some_iff] at hx
    obtain ⟨y, hy, rfl⟩ := hx
    have hy : m.sheet id = some y := hy
    have hholds := hholds.sheet y hy
    refine numbered_moveLines ⟨haccepted, ‹MoveHolds _ _ _ _ _›.count⟩ ?_ (hmap (hm y (List.mem_of_find?_eq_some hy)))
    exact ⟨fun key hkey => hholds.cells key (Std.ExtTreeMap.mem_map.mp hkey), hholds.merges, hholds.sizes, hholds.looks,
      hholds.anchors⟩

/-! ### One change -/

variable (isAlphanumeric) in
mutual

/-- A change within the numbers: cells, merges and sizes name lines that have numbers, what goes up with a move still has one,
    and so has a new sheet. -/
def Within [BEq R] (m : Model R) : Change R → Prop
  | .cells _ cells => ∀ c ∈ cells, ∀ rows, HasNumber (axis (c.row, c.column) rows)
  | .rows sheet at' count => MoveHolds isAlphanumeric m sheet ⟨at', count⟩ true
  | .columns sheet at' count => MoveHolds isAlphanumeric m sheet ⟨at', count⟩ false
  | .addSheet _ _ => m.lastNumber.toNat + 1 < 2 ^ 32
  | .size _ widths heights => (∀ l ∈ widths, HasNumber l) ∧ ∀ l ∈ heights, HasNumber l
  | .merges _ add _ => ∀ r ∈ add, r.Numbered
  | .group changes => WithinAll m changes
  | _ => True

def WithinAll [BEq R] (m : Model R) : List (Change R) → Prop
  | [] => True
  | change :: changes => Within m change ∧
      ∀ change' m', applyOne isAlphanumeric m change = .ok (change', m') → WithinAll m' changes

end

theorem styleCells_sheets [BEq R] (cells : List (CellChange R)) (m : Model R) : (styleCells cells m).2.sheets = m.sheets := by
  induction cells generalizing m with
  | nil => rfl
  | cons c cells ih =>
    rw [styleCells]
    cases c.look with
    | none => exact ih m
    | some look =>
      refine (ih (lookIndex m look).2).trans ?_
      rw [lookIndex]
      split <;> rfl

variable {cells : List (CellChange R)}

theorem styleCells_keys [BEq R] {c' : CellChange R} (h : c' ∈ (styleCells cells m).1) :
    ∃ c ∈ cells, (c'.row, c'.column) = (c.row, c.column) := by
  induction cells generalizing m with
  | nil => exact absurd h List.not_mem_nil
  | cons c cells ih =>
    have hrest : ∀ {m : Model R}, c' ∈ (styleCells cells m).1 → ∃ c₀ ∈ c :: cells, (c'.row, c'.column) = (c₀.row, c₀.column) := by
      intro m h
      obtain ⟨c₀, hc₀, hkey⟩ := ih h
      exact ⟨c₀, List.mem_cons_of_mem _ hc₀, hkey⟩
    rw [styleCells] at h
    cases hlook : c.look with
    | none =>
      rw [hlook] at h
      rcases List.mem_cons.mp h with rfl | h
      · exact ⟨c', List.mem_cons_self .., rfl⟩
      · exact hrest h
    | some look =>
      rw [hlook] at h
      rcases List.mem_cons.mp h with rfl | h
      · exact ⟨c, List.mem_cons_self .., rfl⟩
      · exact hrest h

theorem numbered_setCell {c : CellChange R} (hsheet : sheet.Numbered) (hc : ∀ rows, HasNumber (axis (c.row, c.column) rows)) :
    (setCell sheet c).Numbered := by
  refine ⟨fun key hkey => ?_, hsheet.merges, hsheet.sizes, hsheet.looks⟩
  rw [setCell] at hkey
  dsimp only at hkey
  split_ifs at hkey
  · exact hsheet.cells key (Std.ExtTreeMap.mem_of_mem_erase hkey)
  · rcases Std.ExtTreeMap.mem_insert.mp hkey with hsame | hkey
    · exact Std.LawfulEqCmp.eq_of_compare hsame ▸ hc
    · exact hsheet.cells key hkey

theorem numbered_setCells (hsheet : sheet.Numbered)
    (hcells : ∀ c ∈ cells, ∀ rows, HasNumber (axis (c.row, c.column) rows)) : (cells.foldl setCell sheet).Numbered :=
  List.foldlRecOn cells setCell hsheet fun _ hx c hc => numbered_setCell hx (hcells c hc)

theorem numbered_withMerges {add remove : List Range} (hsheet : sheet.Numbered) (hadd : ∀ r ∈ add, r.Numbered) :
    (withMerges add remove sheet).Numbered := by
  refine ⟨hsheet.cells, fun r hr => ?_, hsheet.sizes, hsheet.looks⟩
  rcases mem_withMerges.mp hr with hr | ⟨hr, -⟩
  · exact hadd r hr
  · exact hsheet.merges r hr

theorem numbered_withSizes {widths heights : Lines R} (hsheet : sheet.Numbered) (hwidths : ∀ l ∈ widths, HasNumber l)
    (hheights : ∀ l ∈ heights, HasNumber l) : (withSizes widths heights sheet).Numbered := by
  have hlines : ∀ {old more : Lines R}, (∀ l ∈ old, HasNumber l) → (∀ l ∈ more, HasNumber l) →
      ∀ l ∈ old.insertMany more.toList, HasNumber l := by
    intro old more hold hmore l hl
    rw [Std.ExtTreeMap.mem_insertMany_list, List.contains_iff_mem] at hl
    rcases hl with hl | hl
    · exact hold l hl
    · obtain ⟨entry, hentry, rfl⟩ := List.mem_map.mp hl
      refine hmore _ ?_
      rw [Std.ExtTreeMap.mem_iff_isSome_getElem?, Std.ExtTreeMap.mem_toList_iff_getElem?_eq_some.mp hentry]
      rfl
  refine ⟨hsheet.cells, hsheet.merges, fun rows => ?_, hsheet.looks⟩
  cases rows with
  | true => exact hlines (hsheet.sizes true) hheights
  | false => exact hlines (hsheet.sizes false) hwidths

theorem numbered_blank (id name : String) (number : UInt32) : (added id name number : Sheet R).Numbered := by
  have hnone : ∀ {V : Type}, ∀ l ∈ (∅ : Lines V), HasNumber l := fun l hl => absurd hl Std.ExtTreeMap.not_mem_empty
  refine ⟨fun key hkey => absurd hkey Std.ExtTreeMap.not_mem_empty, fun r hr => absurd hr List.not_mem_nil, ?_, ?_⟩ <;>
    rintro (_ | _) <;> exact hnone

/-- A change that works on a sheet as it is leaves all lines their numbers. -/
theorem numbered_work {e : Refused} {m₁ : Model R} (hm : m.Numbered) (h : require e (m.updateSheet id f) = .ok m₁)
    (hf : ∀ x, x.Numbered → (f x).Numbered) : m₁.Numbered :=
  numbered_update (require_ok.mp h) hm fun x hx => hf x (hm x (List.mem_of_find?_eq_some hx))

mutual

/-- A change within the numbers leaves all lines their numbers, and none of its sums wraps. -/
theorem numbered_applyOne [BEq R] : ∀ {m m' : Model R} {change change' : Change R}, m.Numbered →
    Within isAlphanumeric m change → applyOne isAlphanumeric m change = .ok (change', m') →
    m'.Numbered ∧ ∀ x ∈ applyOneSums isAlphanumeric m change, x.Fits
  | m, m', .cells sheet cells, change', hm, hwithin, h => by
    rw [applyOne] at h
    obtain ⟨m₁, hm₁, h⟩ := bind_ok h
    obtain ⟨-, rfl⟩ := Prod.mk.inj (Except.ok.inj h)
    rw [Within] at hwithin
    simp only [applyOneSums]
    have hstyled : (styleCells cells m).2.Numbered := fun x hx => hm x (by rwa [styleCells_sheets] at hx)
    refine ⟨numbered_work hstyled hm₁ fun x hx => numbered_setCells hx fun c' hc' => ?_, fun x hx => absurd hx List.not_mem_nil⟩
    obtain ⟨c, hc, hkey⟩ := styleCells_keys hc'
    exact hkey ▸ hwithin c hc
  | m, m', .rows sheet at' count, change', hm, hwithin, h => by
    rw [applyOne] at h
    obtain ⟨m₁, hm₁, h⟩ := bind_ok h
    obtain ⟨-, rfl⟩ := Prod.mk.inj (Except.ok.inj h)
    rw [Within] at hwithin
    rw [applyOneSums]
    exact numbered_move hm hwithin hm₁
  | m, m', .columns sheet at' count, change', hm, hwithin, h => by
    rw [applyOne] at h
    obtain ⟨m₁, hm₁, h⟩ := bind_ok h
    obtain ⟨-, rfl⟩ := Prod.mk.inj (Except.ok.inj h)
    rw [Within] at hwithin
    rw [applyOneSums]
    exact numbered_move hm hwithin hm₁
  | m, m', .addSheet id name, change', hm, hwithin, h => by
    rw [applyOne] at h
    obtain ⟨⟨⟩, -, h⟩ := bind_ok h
    obtain ⟨-, rfl⟩ := Prod.mk.inj (Except.ok.inj h)
    rw [Within] at hwithin
    rw [applyOneSums]
    refine ⟨fun x hx => ?_, fun x hx => ?_⟩
    · rcases List.mem_append.mp hx with hx | hx
      · exact hm x hx
      · obtain rfl := List.mem_singleton.mp hx
        exact numbered_blank id name _
    · obtain rfl := List.mem_singleton.mp hx
      exact ⟨by omega, by omega⟩
  | m, m', .renameSheet sheet name, change', hm, hwithin, h => by
    rw [applyOne] at h
    obtain ⟨m₁, hm₁, h⟩ := bind_ok h
    obtain ⟨-, rfl⟩ := Prod.mk.inj (Except.ok.inj h)
    simp only [applyOneSums]
    refine ⟨numbered_work hm hm₁ fun x hx => ?_, fun x hx => absurd hx List.not_mem_nil⟩
    exact ⟨hx.cells, hx.merges, hx.sizes, hx.looks⟩
  | m, m', .removeSheet sheet, change', hm, hwithin, h => by
    rw [applyOne] at h
    obtain ⟨⟨⟩, -, h⟩ := bind_ok h
    obtain ⟨-, rfl⟩ := Prod.mk.inj (Except.ok.inj h)
    simp only [applyOneSums]
    exact ⟨fun x hx => hm x (List.mem_of_mem_filter hx), fun x hx => absurd hx List.not_mem_nil⟩
  | m, m', .size sheet widths heights, change', hm, hwithin, h => by
    rw [applyOne] at h
    obtain ⟨m₁, hm₁, h⟩ := bind_ok h
    obtain ⟨-, rfl⟩ := Prod.mk.inj (Except.ok.inj h)
    rw [Within] at hwithin
    simp only [applyOneSums]
    exact ⟨numbered_work hm hm₁ fun x hx => numbered_withSizes hx hwithin.1 hwithin.2, fun x hx => absurd hx List.not_mem_nil⟩
  | m, m', .merges sheet add remove, change', hm, hwithin, h => by
    rw [applyOne] at h
    obtain ⟨m₁, hm₁, h⟩ := bind_ok h
    obtain ⟨-, rfl⟩ := Prod.mk.inj (Except.ok.inj h)
    rw [Within] at hwithin
    simp only [applyOneSums]
    exact ⟨numbered_work hm hm₁ fun x hx => numbered_withMerges hx hwithin, fun x hx => absurd hx List.not_mem_nil⟩
  | m, m', .group changes, change', hm, hwithin, h => by
    rw [applyOne] at h
    obtain ⟨⟨changes', m₁⟩, hm₁, h⟩ := bind_ok h
    obtain ⟨-, rfl⟩ := Prod.mk.inj (Except.ok.inj h)
    rw [Within] at hwithin
    rw [applyOneSums]
    exact numbered_applyAll hm hwithin hm₁
  | _, _, .ops ops, _, _, _, h => by
    rw [applyOne] at h
    cases h

theorem numbered_applyAll [BEq R] : ∀ {m m' : Model R} {changes changes' : List (Change R)}, m.Numbered →
    WithinAll isAlphanumeric m changes → applyAll isAlphanumeric m changes = .ok (changes', m') →
    m'.Numbered ∧ ∀ x ∈ applyAllSums isAlphanumeric m changes, x.Fits
  | m, m', [], changes', hm, _, h => by
    rw [applyAll] at h
    obtain ⟨-, rfl⟩ := Prod.mk.inj (Except.ok.inj h)
    rw [applyAllSums]
    exact ⟨hm, fun x hx => absurd hx List.not_mem_nil⟩
  | m, m', change :: changes, changes', hm, hwithin, h => by
    rw [applyAll] at h
    obtain ⟨⟨carried, m₁⟩, hone, h⟩ := bind_ok h
    obtain ⟨⟨rest, m₂⟩, hall, h⟩ := bind_ok h
    obtain ⟨-, rfl⟩ := Prod.mk.inj (Except.ok.inj h)
    rw [WithinAll] at hwithin
    obtain ⟨hm₁, hfirst⟩ := numbered_applyOne hm hwithin.1 hone
    obtain ⟨hm₂, hrest⟩ := numbered_applyAll hm₁ (hwithin.2 _ _ hone) hall
    refine ⟨hm₂, fun x hx => ?_⟩
    rw [applyAllSums, hone] at hx
    exact (List.mem_append.mp hx).elim (hfirst x) (hrest x)

end

/-! ### Named ops -/

/-- An op within the numbers: a block of values ends before the last number, and a new sheet's id is one. -/
def OpWithin (m : Model R) (added : UInt32) : Op R → Prop
  | .setRange _ start rows => ∀ key, parseCell start.toList = some key →
      key.1.toNat + rows.length + 1 < 2 ^ 32 ∧ ∀ values ∈ rows, key.2.toNat + values.length + 1 < 2 ^ 32
  | .addSheet _ => m.highest.toNat + added.toNat + 1 < 2 ^ 32
  | _ => True

def OpsWithin (m : Model R) (added : UInt32) : List (Op R) → Prop
  | [] => True
  | op :: ops =>
    let next := match op with
      | .addSheet _ => added + 1
      | _ => added
    OpWithin m added op ∧ OpsWithin m next ops

theorem countSums_fit {first : UInt32} {n : Nat} (h : first.toNat + n + 1 < 2 ^ 32) : ∀ x ∈ countSums first n, x.Fits := by
  intro x hx
  obtain ⟨i, hi, rfl⟩ := List.mem_map.mp hx
  have hi := List.mem_range.mp hi
  exact ⟨by omega, by omega⟩

variable {added : UInt32}

theorem toChangeSums_fit {op : Op R} (h : OpWithin m added op) : ∀ x ∈ toChangeSums m added op, x.Fits := by
  have hcount : ∀ {count : UInt32}, ∀ x ∈ (if count.toNat < 2 ^ 31 then [MachineSum.i32 (-count.toNat)] else []), x.Fits := by
    intro count x hx
    split_ifs at hx
    · obtain rfl := List.mem_singleton.mp hx
      exact ⟨by omega, by omega⟩
    · exact absurd hx List.not_mem_nil
  intro x hx
  cases op with
  | setRange sheet start rows =>
    rw [toChangeSums] at hx
    cases hkey : parseCell start.toList with
    | none =>
      rw [hkey] at hx
      exact absurd hx List.not_mem_nil
    | some key =>
      obtain ⟨hrows, hvalues⟩ := h key hkey
      rw [hkey] at hx
      rcases List.mem_append.mp hx with hx | hx
      · exact countSums_fit hrows x hx
      · obtain ⟨values, hin, hx⟩ := List.mem_flatMap.mp hx
        exact countSums_fit (hvalues values hin) x hx
  | addSheet name =>
    have h : m.highest.toNat + added.toNat + 1 < 2 ^ 32 := h
    rw [toChangeSums] at hx
    simp only [List.mem_cons, List.not_mem_nil, or_false] at hx
    rcases hx with rfl | rfl | rfl <;> exact ⟨by omega, by omega⟩
  | deleteRows sheet at' count => exact hcount x hx
  | deleteColumns sheet at' count => exact hcount x hx
  | setCell | clearRange | formatRange | insertRows | insertColumns | renameSheet | removeSheet =>
    exact absurd hx List.not_mem_nil

theorem smallNumber_le (n : Nat) : (smallNumber n).toNat ≤ n := by
  rw [smallNumber]
  split_ifs with h
  · rw [UInt32.toNat_ofNat', Nat.mod_eq_of_lt h]
  · exact Nat.zero_le n

theorem cellsOfSums_fit {op : Op R} (h : OpWithin m added op) : ∀ x ∈ cellsOfSums op, x.Fits := by
  intro x hx
  cases op with
  | setRange sheet start rows =>
    rw [cellsOfSums] at hx
    cases hkey : parseCell start.toList with
    | none =>
      rw [hkey] at hx
      exact absurd hx List.not_mem_nil
    | some key =>
      obtain ⟨top, left⟩ := key
      obtain ⟨hrows, hvalues⟩ : top.toNat + rows.length + 1 < 2 ^ 32 ∧ ∀ values ∈ rows, left.toNat + values.length + 1 < 2 ^ 32 :=
        h _ hkey
      have hwidth : left.toNat + (max (((rows.map List.length).max?).getD 1) 1 - 1) < 2 ^ 32 := by
        have hleft := left.toNat_lt
        cases hmost : (rows.map List.length).max? with
        | none =>
          rw [Option.getD_none]
          omega
        | some most =>
          obtain ⟨values, hin, rfl⟩ := List.mem_map.mp (List.max?_mem hmost)
          have := hvalues values hin
          rw [Option.getD_some]
          omega
      have hbottom := smallNumber_le (max rows.length 1 - 1)
      have hright := smallNumber_le (max (((rows.map List.length).max?).getD 1) 1 - 1)
      have htop := top.toNat_lt
      rw [hkey] at hx
      simp only [List.mem_cons, List.not_mem_nil, or_false] at hx
      rcases hx with rfl | rfl <;> exact ⟨by omega, by omega⟩
  | setCell | clearRange | formatRange | insertRows | deleteRows | insertColumns | deleteColumns | addSheet | renameSheet | removeSheet =>
    exact absurd hx List.not_mem_nil

theorem opsWithin_mem {ops : List (Op R)} (h : OpsWithin m added ops) : ∀ op ∈ ops, ∃ added, OpWithin m added op := by
  induction ops generalizing added with
  | nil => exact fun op hop => absurd hop List.not_mem_nil
  | cons first ops ih =>
    obtain ⟨hfirst, hrest⟩ := h
    intro op hop
    rcases List.mem_cons.mp hop with rfl | hop
    · exact ⟨added, hfirst⟩
    · exact ih hrest op hop

theorem toChangesSums_fit {ops : List (Op R)} (h : OpsWithin m added ops) :
    ∀ x ∈ toChangesSums m added ops, x.Fits := by
  induction ops generalizing added with
  | nil => exact fun x hx => absurd hx List.not_mem_nil
  | cons op ops ih =>
    obtain ⟨hfirst, hrest⟩ := h
    intro x hx
    exact (List.mem_append.mp hx).elim (toChangeSums_fit hfirst x) (ih hrest x)

/-! ### Runs -/

variable (isAlphanumeric) in
/-- What is sent stays within the numbers, and so does what is carried out for it. -/
structure WithinSent [BEq R] (m : Model R) (sent : Change R × List (Ordered (Change R))) : Prop where
  ops : ∀ ops, sent.1 = .ops ops → OpsWithin m 0 ops
  change : ∀ change, meant m sent.2 sent.1 = .ok change → Within isAlphanumeric m change

/-- A change that is taken leaves all lines their numbers, and none of its sums wraps. -/
theorem numbered_accepts [BEq R] {sent : Change R × List (Ordered (Change R))} (hm : m.Numbered)
    (hwithin : WithinSent isAlphanumeric m sent) (h : Model.Accepts isAlphanumeric m sent m') :
    m'.Numbered ∧ ∀ x ∈ sentSums isAlphanumeric m sent, x.Fits := by
  obtain ⟨carried, h⟩ := h
  rw [tryApply] at h
  obtain ⟨⟨⟩, -, h⟩ := bind_ok h
  obtain ⟨change, hmeant, h⟩ := bind_ok h
  obtain ⟨hm', hsums⟩ := numbered_applyOne hm (hwithin.change change hmeant) h
  refine ⟨hm', fun x hx => ?_⟩
  rw [sentSums, hmeant] at hx
  rcases List.mem_append.mp hx with hx | hx
  · split at hx
    · rename_i ops hops
      have hwithin := hwithin.ops ops hops
      rcases List.mem_append.mp hx with hx | hx
      · obtain ⟨-, -, hx⟩ := List.mem_flatMap.mp hx
        obtain ⟨op, hop, hx⟩ := List.mem_flatMap.mp hx
        obtain ⟨added, hop⟩ := opsWithin_mem hwithin op hop
        exact cellsOfSums_fit hop x hx
      · exact toChangesSums_fit hwithin x hx
    · exact absurd hx List.not_mem_nil
  · exact hsums x hx

theorem sizeSums_fit (h : sheet.Numbered) : ∀ x ∈ sheet.sizeSums, x.Fits := by
  intro x hx
  obtain ⟨key, hkey, hx⟩ := List.mem_flatMap.mp hx
  have hkey := h.cells key (Std.ExtTreeMap.mem_keys.mp hkey)
  simp only [List.mem_cons, List.not_mem_nil, or_false] at hx
  rcases hx with rfl | rfl
  · exact oneMore_fits (hkey true)
  · exact oneMore_fits (hkey false)

theorem snapshotSums_fit (hm : m.Numbered) : ∀ x ∈ snapshotSums m, x.Fits := by
  intro x hx
  obtain ⟨sheet, hsheet, hx⟩ := List.mem_flatMap.mp hx
  exact sizeSums_fit (hm sheet hsheet) x hx

theorem definedRange_numbered {text : String} {r : Range} (h : definedRange text = some r) : r.Numbered := by
  rw [definedRange] at h
  split_ifs at h
  exact parseRange_numbered h

theorem calculatedSums_fit (hm : m.Numbered) : ∀ x ∈ calculatedSums m, x.Fits := by
  intro x hx
  rw [calculatedSums] at hx
  split_ifs at hx
  · exact absurd hx List.not_mem_nil
  · rcases List.mem_append.mp hx with hx | hx
    · obtain ⟨name, -, hx⟩ := List.mem_flatMap.mp hx
      cases hrange : definedRange name.text with
      | none =>
        rw [hrange] at hx
        exact absurd hx List.not_mem_nil
      | some r =>
        have hr := definedRange_numbered hrange
        rw [hrange] at hx
        simp only [List.mem_cons, List.not_mem_nil, or_false] at hx
        rcases hx with rfl | rfl | rfl | rfl
        · exact oneMore_fits (hr true).1
        · exact oneMore_fits (hr false).1
        · exact oneMore_fits (hr true).2
        · exact oneMore_fits (hr false).2
    · exact snapshotSums_fit hm x hx

theorem dimensionSums_fit (stated : Option (List Char)) (sheet : Sheet R) : ∀ x ∈ dimensionSums stated sheet, x.Fits := by
  intro x hx
  rw [dimensionSums] at hx
  cases hrange : stated.bind parseRange with
  | none =>
    rw [hrange] at hx
    exact absurd hx List.not_mem_nil
  | some r =>
    obtain ⟨name, -, hname⟩ := Option.bind_eq_some_iff.mp hrange
    have hr := parseRange_numbered hname
    have hmost : ∀ {l more : UInt32}, HasNumber l → 1 ≤ max more (l + 1) := by
      intro l more hl
      rw [HasNumber] at hl
      refine UInt32.le_trans ?_ (Model.le_max more (l + 1)).2
      have hone : (1 : UInt32).toNat = 1 := rfl
      rw [UInt32.le_iff_toNat_le, UInt32.toNat_add, hone, Nat.mod_eq_of_lt hl]
      omega
    have hless : ∀ {n : UInt32}, 1 ≤ n → (MachineSum.u32 (n.toNat - 1)).Fits := by
      intro n hn
      have hn : 1 ≤ n.toNat := by simpa using UInt32.le_iff_toNat_le.mp hn
      have hlt := n.toNat_lt
      exact ⟨by omega, by omega⟩
    rw [hrange] at hx
    dsimp only at hx
    split_ifs at hx <;> simp only [List.append_nil, List.cons_append, List.nil_append, List.mem_cons, List.not_mem_nil, or_false] at hx
    · rcases hx with rfl | rfl
      · exact oneMore_fits (hr true).2
      · exact oneMore_fits (hr false).2
    · rcases hx with rfl | rfl | rfl | rfl | rfl | rfl
      · exact oneMore_fits (hr true).2
      · exact oneMore_fits (hr false).2
      · exact oneMore_fits (hr true).1
      · exact hless (hmost (hr true).2)
      · exact hless (hmost (hr false).2)
      · exact oneMore_fits (hasNumber_sub (hmost (hr true).2))

theorem sheetWriteSums_fit {stated : Option (List Char)} (h : sheet.Numbered) : ∀ x ∈ sheet.writeSums stated, x.Fits := by
  intro x hx
  rw [Sheet.writeSums] at hx
  simp only [List.mem_append, or_assoc] at hx
  rcases hx with hx | hx | hx | hx | hx | hx
  · obtain ⟨key, hkey, rfl⟩ := List.mem_map.mp hx
    exact oneMore_fits (h.cells key (Std.ExtTreeMap.mem_keys.mp hkey) true)
  · obtain ⟨l, hl, rfl⟩ := List.mem_map.mp hx
    rcases List.mem_append.mp hl with hl | hl
    · exact oneMore_fits (h.sizes true l (Std.ExtTreeMap.mem_keys.mp hl))
    · exact oneMore_fits (h.looks true l (Std.ExtTreeMap.mem_keys.mp hl))
  · obtain ⟨l, hl, rfl⟩ := List.mem_map.mp hx
    exact oneMore_fits (h.sizes false l (Std.ExtTreeMap.mem_keys.mp hl))
  · obtain ⟨r, hr, hx⟩ := List.mem_flatMap.mp hx
    exact rangeNameSums_fit (h.merges r hr true) x hx
  · exact sizeSums_fit h x hx
  · exact dimensionSums_fit stated sheet x hx

/-- In a run of a workbook that was read, no sum of rows, columns and sheet numbers wraps, as long as each change that is taken
    stays within the numbers: none does of the changes, of a snapshot after any of them, and of a file written after any. -/
theorem sums_fit [BEq R] {parts : String → Option (Except Unreadable (SheetPart R))} {entries : List Entry} {looks : List (Look R)}
    {names : List DefinedName} {opened : Model R} {sents : List (Change R × List (Ordered (Change R)))}
    {stated : Sheet R → Option (List Char)} (hread : read (contentOf parts) entries looks names = .ok opened)
    (hrun : Run (Guarded (WithinSent isAlphanumeric) (Model.Accepts isAlphanumeric)) opened sents m) :
    (∀ x ∈ snapshotSums m ++ writeSums stated m, x.Fits) ∧
      ∀ sent m', WithinSent isAlphanumeric m sent → Model.Accepts isAlphanumeric m sent m' → ∀ x ∈ sentSums isAlphanumeric m sent, x.Fits := by
  have hm : m.Numbered := hrun.invariant (I := Model.Numbered)
    (fun hs hstep => (numbered_accepts hs hstep.1 hstep.2).1) (numbered_read hread)
  refine ⟨fun x hx => ?_, fun sent m' hwithin haccepts => (numbered_accepts hm hwithin haccepts).2⟩
  rcases List.mem_append.mp hx with hx | hx
  · exact snapshotSums_fit hm x hx
  · rcases List.mem_append.mp hx with hx | hx
    · exact calculatedSums_fit hm x hx
    · obtain ⟨sheet, hsheet, hx⟩ := List.mem_flatMap.mp hx
      exact sheetWriteSums_fit (hm sheet hsheet) x hx

end

/-- A sheet's part with nothing on it. -/
def emptyPart : String → Option (Except Unreadable (SheetPart Nat)) := fun _ => some (.ok ⟨[], [], [], []⟩)

def emptyWorkbook : Model Nat := ⟨[{ readSheet ⟨[], [], [], []⟩ with id := "1", number := 1, name := "Data", part := some "a" }], [], [], 1⟩

theorem read_emptyWorkbook : read (contentOf emptyPart) [⟨some "1", some "Data", some "a"⟩] [] [] = .ok emptyWorkbook := by
  have hone : parseNumber "1" = some 1 := by decide
  simp only [read, readSheets, contentOf, emptyPart, Option.getD_some, Option.map_some, hone]
  rfl

/-- One cell is set in the row of a number. -/
def setRow (row : UInt32) : Change Nat × List (Ordered (Change Nat)) := (.cells "1" [⟨row, 0, some (some (.number 7)), none, none, none⟩], [])

def rowModel (row : UInt32) : Model Nat :=
  { emptyWorkbook with
    sheets := emptyWorkbook.sheets.map fun sheet => setCell sheet ⟨row, 0, some (some (.number 7)), none, none, none⟩ }

theorem accepts_setRow (row : UInt32) : Model.Accepts Char.isAlphanum emptyWorkbook (setRow row) (rowModel row) := ⟨_, rfl⟩

/-- The last row that has a number in a file takes a cell. -/
theorem sums_fit_last : Model.Accepts Char.isAlphanum emptyWorkbook (setRow 4294967294) (rowModel 4294967294) ∧
    ∀ x ∈ snapshotSums (rowModel 4294967294) ++ writeSums (fun _ => none) (rowModel 4294967294), x.Fits := by
  have hwithin : WithinSent Char.isAlphanum emptyWorkbook (setRow 4294967294) := by
    refine ⟨fun ops hops => absurd hops nofun, fun change hchange => ?_⟩
    obtain rfl : .cells "1" [⟨4294967294, 0, some (some (.number 7)), none, none, none⟩] = change := Except.ok.inj hchange
    rw [Within]
    intro c hc rows
    obtain rfl := List.mem_singleton.mp hc
    cases rows with
    | true => exact show (4294967294 : UInt32).toNat + 1 < 2 ^ 32 by decide
    | false => exact show (0 : UInt32).toNat + 1 < 2 ^ 32 by decide
  exact ⟨accepts_setRow 4294967294,
    (sums_fit read_emptyWorkbook (Run.single_iff.mpr ⟨hwithin, accepts_setRow 4294967294⟩)).1⟩

/-- A cell in the last row of all makes the number of rows wrap. -/
theorem last_row_wraps : ¬∀ (parts : String → Option (Except Unreadable (SheetPart Nat))) (entries : List Entry)
    (looks : List (Look Nat)) (names : List DefinedName) (opened m : Model Nat)
    (sents : List (Change Nat × List (Ordered (Change Nat)))) (stated : Sheet Nat → Option (List Char)),
    read (contentOf parts) entries looks names = .ok opened → Run (Model.Accepts Char.isAlphanum) opened sents m →
    (∀ x ∈ snapshotSums m ++ writeSums stated m, x.Fits) ∧
      ∀ sent m', Model.Accepts Char.isAlphanum m sent m' → ∀ x ∈ sentSums Char.isAlphanum m sent, x.Fits := by
  intro hall
  have hfits := (hall emptyPart _ [] [] emptyWorkbook (rowModel 4294967295) _ (fun _ => none) read_emptyWorkbook
    (Run.single_iff.mpr (accepts_setRow 4294967295))).1 (oneMore 4294967295) (List.mem_append_left _ ?_)
  · exact absurd hfits.2 (by decide)
  · refine List.mem_flatMap.mpr ⟨_, List.mem_singleton_self _, List.mem_flatMap.mpr ⟨(4294967295, 0), ?_, List.mem_cons_self ..⟩⟩
    exact Std.ExtTreeMap.mem_keys.mpr Std.ExtTreeMap.mem_insert_self

end Kodosi.Xlsx
