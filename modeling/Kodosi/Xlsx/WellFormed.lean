import Kodosi.Lib.Run
import Kodosi.Xlsx.References

/-! Whether a workbook stays well formed: its sheets have their own ids, numbers and names, its names stay with their
    sheets, and its formulas go on naming the sheets that they named. -/

namespace Kodosi.Xlsx
open Kodosi.Lib
open Kodosi.Documents (Ordered Refused Unreadable)

variable {R : Type}

/-! ### Reading the workbook -/

/-- A sheet as the workbook lists it, and the part that it points at. -/
structure Entry where
  sheetId : Option String
  name : Option String
  part : Option String

/-- The sheets whose parts are there. -/
def readSheets (content : String → Option (Except Unreadable (Sheet R))) :
    List Entry → Except Unreadable (List (Sheet R))
  | [] => return []
  | entry :: entries =>
    match entry.part with
    | none => readSheets content entries
    | some part => match content part with
      | none => readSheets content entries
      | some read => do
        let sheet ← read
        let id := entry.sheetId.getD ""
        let sheet := { sheet with
          id, name := entry.name.getD "", number := (parseNumber id).getD 0, part := some part }
        return sheet :: (← readSheets content entries)

def read (content : String → Option (Except Unreadable (Sheet R))) (entries : List Entry) (looks : List (Look R))
    (names : List DefinedName) : Except Unreadable (Model R) := do
  let sheets ← readSheets content entries
  return ⟨sheets, looks, names, ((sheets.map (·.number)).max?).getD 0⟩

/-! ### What stays -/

structure Model.WellFormed (m : Model R) : Prop where
  sheets : m.sheets ≠ []
  ids : (m.sheets.map (·.id)).Nodup
  numbers : (m.sheets.map (·.number)).Nodup
  names : (m.sheets.map (·.name)).Nodup
  last : ∀ sheet ∈ m.sheets, sheet.number ≤ m.lastNumber

/-- The defined names are the same, and those that belong to a sheet belong to the same one. -/
structure Model.Scopes (m m' : Model R) : Prop where
  names : m'.names.map (fun d => (d.name, d.sheet)) = m.names.map fun d => (d.name, d.sheet)
  sheets : ∀ d ∈ m.names, ∀ place, d.sheet = some place → ∀ sheet, m.sheets[place]? = some sheet →
    ∃ sheet', m'.sheets[place]? = some sheet' ∧ sheet'.id = sheet.id

/-- Each reference that names a sheet is still there and names the same one. -/
def Model.Names (isAlphanumeric : Char → Bool) (m m' : Model R) : Prop :=
  ∀ f ∈ m.formulas, f ∈ m'.formulas ∧ ∀ name ∈ sheetsNamed isAlphanumeric f, ∀ sheet ∈ m.sheets, sheet.name = name →
    ∃ sheet' ∈ m'.sheets, sheet'.id = sheet.id ∧ sheet'.name = name

/-- Sheets with the same ids, numbers and names, and defined names that are the same but for their text. -/
structure Model.Same (m m' : Model R) : Prop where
  sheets : m'.sheets.map (fun s => (s.id, s.number, s.name)) = m.sheets.map fun s => (s.id, s.number, s.name)
  names : m'.names.map (fun d => (d.name, d.sheet)) = m.names.map fun d => (d.name, d.sheet)
  last : m'.lastNumber = m.lastNumber

namespace Model

variable {m m' m'' : Model R}

theorem Same.map {α : Type} (h : Same m m') (f : String × UInt32 × String → α) :
    m'.sheets.map (fun s => f (s.id, s.number, s.name)) = m.sheets.map fun s => f (s.id, s.number, s.name) := by
  have hmap := congrArg (List.map f) h.sheets
  rwa [List.map_map, List.map_map] at hmap

theorem Same.wellFormed (h : Same m m') (hm : m.WellFormed) : m'.WellFormed where
  sheets hnil := by
    have hlength := congrArg List.length h.sheets
    rw [List.length_map, List.length_map, hnil] at hlength
    exact hm.sheets (List.length_eq_zero_iff.mp hlength.symm)
  ids := (h.map Prod.fst) ▸ hm.ids
  numbers := (h.map fun s => s.2.1) ▸ hm.numbers
  names := (h.map fun s => s.2.2) ▸ hm.names
  last sheet hsheet := by
    have hnumber : sheet.number ∈ m.sheets.map (·.number) :=
      (h.map fun s => s.2.1) ▸ List.mem_map_of_mem hsheet
    obtain ⟨old, hold, hnumber⟩ := List.mem_map.mp hnumber
    rw [h.last, ← hnumber]
    exact hm.last old hold

theorem Same.scopes (h : Same m m') : Scopes m m' where
  names := h.names
  sheets d _ place _ sheet hsheet := by
    have hid : (m'.sheets.map (·.id))[place]? = some sheet.id := by
      rw [h.map Prod.fst, List.getElem?_map, hsheet]
      rfl
    rw [List.getElem?_map, Option.map_eq_some_iff] at hid
    exact hid

theorem Scopes.refl (m : Model R) : Scopes m m := ⟨rfl, fun _ _ _ _ sheet hsheet => ⟨sheet, hsheet, rfl⟩⟩

theorem Scopes.trans (h : Scopes m m') (h' : Scopes m' m'') : Scopes m m'' where
  names := h'.names.trans h.names
  sheets d hd place hplace sheet hsheet := by
    obtain ⟨sheet', hsheet', hid⟩ := h.sheets d hd place hplace sheet hsheet
    have hin : (d.name, d.sheet) ∈ m'.names.map fun d => (d.name, d.sheet) :=
      h.names ▸ List.mem_map_of_mem (f := fun d => (d.name, d.sheet)) hd
    obtain ⟨d', hd', heq⟩ := List.mem_map.mp hin
    have hplace' : d'.sheet = some place := (Prod.mk.inj heq).2.trans hplace
    obtain ⟨sheet'', hsheet'', hid'⟩ := h'.sheets d' hd' place hplace' sheet' hsheet'
    exact ⟨sheet'', hsheet'', hid'.trans hid⟩

/-! ### Work on one sheet -/

theorem map_modify {α β : Type} {f : α → α} {g : α → β} (h : ∀ a, g (f a) = g a) :
    ∀ (as : List α) (i : Nat), (as.modify i f).map g = as.map g
  | [], _ => by simp
  | a :: as, 0 => by simp [h]
  | a :: as, i + 1 => by simp [map_modify h as i]

variable {id : String} {f : Sheet R → Sheet R}

/-- Work on a sheet that leaves its id, number and name as they are. -/
theorem same_update (h : m.updateSheet id f = some m')
    (hf : ∀ s, ((f s).id, (f s).number, (f s).name) = (s.id, s.number, s.name)) : Same m m' := by
  unfold updateSheet at h
  obtain ⟨i, -, rfl⟩ := Option.map_eq_some_iff.mp h
  exact ⟨map_modify hf _ _, rfl, rfl⟩

/-- When the ids are distinct, the work is on the sheet of that id. -/
theorem update_map (hids : (m.sheets.map (·.id)).Nodup) (h : m.updateSheet id f = some m') :
    m' = { m with sheets := m.sheets.map fun s => if s.id = id then f s else s } := by
  unfold updateSheet at h
  obtain ⟨i, hi, rfl⟩ := Option.map_eq_some_iff.mp h
  have hsheets : ∀ (sheets : List (Sheet R)) (i : Nat), (sheets.map (·.id)).Nodup →
      sheets.findIdx? (·.id == id) = some i → sheets.modify i f = sheets.map fun s => if s.id = id then f s else s := by
    intro sheets
    induction sheets with
    | nil => exact fun i _ hi => absurd hi nofun
    | cons s sheets ih =>
      intro i hids hi
      rw [List.map_cons, List.nodup_cons] at hids
      rw [List.findIdx?_cons] at hi
      by_cases hs : s.id = id
      · rw [if_pos (beq_iff_eq.mpr hs)] at hi
        obtain rfl := Option.some.inj hi
        have hothers : sheets.map (fun s => if s.id = id then f s else s) = sheets := by
          refine (List.map_congr_left fun t ht => if_neg fun htid => hids.1 ?_).trans (List.map_id _)
          exact List.mem_map.mpr ⟨t, ht, htid.trans hs.symm⟩
        rw [List.modify_zero_cons, List.map_cons, if_pos hs, hothers]
      · rw [if_neg (by simpa using hs)] at hi
        obtain ⟨j, hj, rfl⟩ := Option.map_eq_some_iff.mp hi
        rw [List.modify_succ_cons, List.map_cons, if_neg hs, ih j hids.2 hj]
  rw [hsheets m.sheets i hids hi]

theorem same_styleCells [BEq R] : ∀ (cells : List (CellChange R)) (m : Model R), Same m (styleCells cells m).2
  | [], _ => ⟨rfl, rfl, rfl⟩
  | cell :: cells, m => by
    have hlook : ∀ look, Same m (lookIndex m look).2 := by
      intro look
      unfold lookIndex
      split
      · exact ⟨rfl, rfl, rfl⟩
      · exact ⟨rfl, rfl, rfl⟩
    unfold styleCells
    cases cell.look with
    | none => exact same_styleCells cells m
    | some look =>
      have hrest := same_styleCells cells (lookIndex m look).2
      exact ⟨hrest.sheets.trans (hlook look).sheets, hrest.names.trans (hlook look).names,
        hrest.last.trans (hlook look).last⟩

theorem Same.trans (h : Same m m') (h' : Same m' m'') : Same m m'' :=
  ⟨h'.sheets.trans h.sheets, h'.names.trans h.names, h'.last.trans h.last⟩

theorem key_setCells (cells : List (CellChange R)) : ∀ s : Sheet R,
    ((cells.foldl setCell s).id, (cells.foldl setCell s).number, (cells.foldl setCell s).name) =
      (s.id, s.number, s.name) := by
  induction cells with
  | nil => exact fun _ => rfl
  | cons cell cells ih => exact fun s => (ih (setCell s cell)).trans rfl

theorem key_moveLines (shift : Shift) (rows : Bool) (s : Sheet R) :
    ((s.moveLines shift rows).id, (s.moveLines shift rows).number, (s.moveLines shift rows).name) =
      (s.id, s.number, s.name) := by
  cases rows <;> rfl

variable {isAlphanumeric : Char → Bool}

theorem same_moveLines {at' : UInt32} {count : Int32} {rows : Bool}
    (h : moveLines isAlphanumeric m id at' count rows = .ok m') : Same m m' := by
  unfold moveLines at h
  obtain ⟨⟨⟩, -, h⟩ := bind_ok h
  obtain ⟨known, -, h⟩ := bind_ok h
  have hupdate := same_update (require_ok.mp h) (key_moveLines _ _)
  refine ⟨hupdate.sheets.trans ?_, hupdate.names.trans ?_, hupdate.last⟩
  · rw [List.map_map]
    rfl
  · rw [List.map_map]
    rfl

/-! ### What keeps a workbook well formed -/

variable (isAlphanumeric) in
mutual

/-- A change that keeps the workbook well formed: numbers are left for a new sheet, a sheet takes a name that no other
    has and by whose old one no formula names it, and a sheet goes when no defined name belongs to it or to one behind
    it. -/
def Safe [BEq R] (m : Model R) : Change R → Prop
  | .addSheet _ _ => m.lastNumber.toNat + 1 < 2 ^ 32
  | .renameSheet id name => (∀ s ∈ m.sheets, s.name = name → s.id = id) ∧
      ∀ s ∈ m.sheets, s.id = id → s.name ≠ name → ∀ f ∈ m.formulas, s.name ∉ sheetsNamed isAlphanumeric f
  | .removeSheet id => ∀ place, m.sheets.findIdx? (·.id == id) = some place →
      ∀ d ∈ m.names, ∀ owner, d.sheet = some owner → owner < m.sheets.length → owner < place
  | .group changes => SafeAll m changes
  | _ => True

def SafeAll [BEq R] (m : Model R) : List (Change R) → Prop
  | [] => True
  | change :: changes => Safe m change ∧
      ∀ change' m', applyOne isAlphanumeric m change = .ok (change', m') → SafeAll m' changes

end

variable (isAlphanumeric) in
mutual

/-- The workbook before and after each rename of a change. -/
def renames [BEq R] (m : Model R) : Change R → List (Model R × Model R)
  | .renameSheet id name => match applyOne isAlphanumeric m (.renameSheet id name) with
    | .ok (_, m') => [(m, m')]
    | .error _ => []
  | .group changes => renamesAll m changes
  | _ => []

def renamesAll [BEq R] (m : Model R) : List (Change R) → List (Model R × Model R)
  | [] => []
  | change :: changes => renames m change ++ match applyOne isAlphanumeric m change with
    | .ok (_, m') => renamesAll m' changes
    | .error _ => []

end

/-- What a change may do: the workbook stays well formed, and the names and the references stay where they are. -/
structure Good [BEq R] (isAlphanumeric : Char → Bool) (m m' : Model R) (renamed : List (Model R × Model R)) : Prop where
  wellFormed : m'.WellFormed
  scopes : Scopes m m'
  names : ∀ p ∈ renamed, Names isAlphanumeric p.1 p.2

theorem Same.good [BEq R] (h : Same m m') (hm : m.WellFormed) : Good isAlphanumeric m m' [] :=
  ⟨h.wellFormed hm, h.scopes, fun _ hp => absurd hp List.not_mem_nil⟩

/-! ### Sheets that come -/

theorem good_add [BEq R] {name : String} (hm : m.WellFormed) (hlast : m.lastNumber.toNat + 1 < 2 ^ 32)
    (hnew : ¬∃ sheet ∈ m.sheets, sheet.id = id ∨ sheet.name = name) :
    Good isAlphanumeric m { m with
      lastNumber := m.lastNumber + 1
      sheets := m.sheets ++ [{ Sheet.blank with id, number := m.lastNumber + 1, name }] } [] := by
  have hnext : m.lastNumber < m.lastNumber + 1 := by
    rw [UInt32.lt_iff_toNat_lt, UInt32.toNat_add]
    have hone : (1 : UInt32).toNat = 1 := rfl
    rw [hone, Nat.mod_eq_of_lt hlast]
    exact Nat.lt_succ_self _
  have hfresh : ∀ {α : Type} (g : Sheet R → α) (a : α), (m.sheets.map g).Nodup → (∀ s ∈ m.sheets, g s ≠ a) →
      (m.sheets.map g ++ [a]).Nodup := by
    intro α g a hnodup hne
    refine List.nodup_append.mpr ⟨hnodup, List.nodup_singleton a, fun b hb c hc => ?_⟩
    obtain ⟨s, hs, rfl⟩ := List.mem_map.mp hb
    obtain rfl := List.mem_singleton.mp hc
    exact hne s hs
  refine ⟨⟨by simp, ?_, ?_, ?_, ?_⟩, ⟨rfl, fun d _ place _ sheet hsheet => ⟨sheet, ?_, rfl⟩⟩,
    fun _ hp => absurd hp List.not_mem_nil⟩
  · rw [List.map_append]
    exact hfresh _ _ hm.ids fun s hs hid => hnew ⟨s, hs, .inl hid⟩
  · rw [List.map_append]
    refine hfresh _ _ hm.numbers fun s hs hnumber => ?_
    have := UInt32.lt_of_le_of_lt (hm.last s hs) hnext
    exact absurd hnumber (UInt32.ne_of_lt this)
  · rw [List.map_append]
    exact hfresh _ _ hm.names fun s hs hname => hnew ⟨s, hs, .inr hname⟩
  · intro sheet hsheet
    rcases List.mem_append.mp hsheet with hsheet | hsheet
    · exact UInt32.le_trans (hm.last sheet hsheet) (UInt32.le_of_lt hnext)
    · obtain rfl := List.mem_singleton.mp hsheet
      exact UInt32.le_refl _
  · exact (List.getElem?_append_left (List.getElem?_eq_some_iff.mp hsheet).1).trans hsheet

/-! ### Sheets that take another name -/

variable {renamed : List (Model R × Model R)}

theorem good_rename [BEq R] {name : String} (hm : m.WellFormed) (hfree : ∀ s ∈ m.sheets, s.name = name → s.id = id)
    (hold : ∀ s ∈ m.sheets, s.id = id → s.name ≠ name → ∀ f ∈ m.formulas, s.name ∉ sheetsNamed isAlphanumeric f)
    (h : m.updateSheet id (fun target => { target with name }) = some m') (hrenamed : ∀ p ∈ renamed, p = (m, m')) :
    Good isAlphanumeric m m' renamed := by
  have hkeys : m'.sheets.map (fun s => (s.id, s.number)) = m.sheets.map fun s => (s.id, s.number) := by
    unfold updateSheet at h
    obtain ⟨i, -, rfl⟩ := Option.map_eq_some_iff.mp h
    exact map_modify (f := fun target : Sheet R => { target with name }) (fun _ => rfl) m.sheets i
  have hformulas : m'.formulas = m.formulas := by
    unfold updateSheet at h
    obtain ⟨i, -, rfl⟩ := Option.map_eq_some_iff.mp h
    have hcells := map_modify (f := fun target : Sheet R => { target with name })
      (g := fun s : Sheet R => s.cells.toList.filterMap (·.2.formula)) (fun _ => rfl) m.sheets i
    unfold formulas
    rw [List.flatMap_def, List.flatMap_def, hcells]
  have hsheets := update_map hm.ids h
  have hmap : ∀ {α : Type} (g : String × UInt32 → α), m'.sheets.map (fun s => g (s.id, s.number)) =
      m.sheets.map fun s => g (s.id, s.number) := by
    intro α g
    have hg := congrArg (List.map g) hkeys
    rwa [List.map_map, List.map_map] at hg
  have hids := hmap Prod.fst
  have hnumbers := hmap Prod.snd
  have hlast : m'.lastNumber = m.lastNumber := by rw [hsheets]
  refine ⟨⟨fun hnil => ?_, hids ▸ hm.ids, hnumbers ▸ hm.numbers, ?_, fun sheet hsheet => ?_⟩,
    ⟨by rw [hsheets], fun d _ place _ sheet hsheet => ?_⟩, fun p hp f hf => ?_⟩
  · have hlength := congrArg List.length hids
    rw [List.length_map, List.length_map, hnil] at hlength
    exact hm.sheets (List.length_eq_zero_iff.mp hlength.symm)
  · have hpair : m.sheets.Pairwise fun s t => s.id ≠ t.id ∧ s.name ≠ t.name :=
      List.pairwise_and_iff.mpr ⟨List.pairwise_map.mp hm.ids, List.pairwise_map.mp hm.names⟩
    rw [hsheets]
    show ((m.sheets.map fun s => if s.id = id then { s with name } else s).map (·.name)).Nodup
    rw [List.map_map]
    refine List.pairwise_map.mpr (hpair.imp_of_mem fun {s t} hs ht hne => ?_)
    simp only [Function.comp_apply]
    by_cases hsid : s.id = id
    · have htid : t.id ≠ id := fun htid => hne.1 (hsid.trans htid.symm)
      rw [if_pos hsid, if_neg htid]
      exact fun heq => htid (hfree t ht heq.symm)
    · rw [if_neg hsid]
      by_cases htid : t.id = id
      · rw [if_pos htid]
        exact fun heq => hsid (hfree s hs heq)
      · rw [if_neg htid]
        exact hne.2
  · have hnumber : sheet.number ∈ m.sheets.map (·.number) := hnumbers ▸ List.mem_map_of_mem hsheet
    obtain ⟨s, hs, hnumber⟩ := List.mem_map.mp hnumber
    rw [hlast, ← hnumber]
    exact hm.last s hs
  · have hid : (m'.sheets.map (·.id))[place]? = some sheet.id := by
      rw [hids, List.getElem?_map, hsheet]
      rfl
    rw [List.getElem?_map, Option.map_eq_some_iff] at hid
    exact hid
  · obtain rfl := hrenamed p hp
    refine ⟨hformulas ▸ hf, fun named hnamed sheet hsheet hname => ?_⟩
    have hin : ∀ sheet', sheet' = (if sheet.id = id then { sheet with name } else sheet) → sheet' ∈ m'.sheets := by
      rintro sheet' rfl
      rw [hsheets]
      exact List.mem_map_of_mem hsheet
    by_cases hid : sheet.id = id
    · -- No formula names the sheet that takes another name, unless it keeps its own.
      by_cases hsame : sheet.name = name
      · exact ⟨_, hin _ rfl, by rw [if_pos hid], by rw [if_pos hid, ← hname, hsame]⟩
      · exact absurd (hname ▸ hnamed) (hold sheet hsheet hid hsame f hf)
    · exact ⟨_, hin _ rfl, by rw [if_neg hid], by rw [if_neg hid, hname]⟩

/-! ### Sheets that go -/

theorem filter_place {α : Type} {p : α → Bool} : ∀ {as : List α} {place owner : Nat},
    as.findIdx? (!p ·) = some place → owner < place → (as.filter p)[owner]? = as[owner]?
  | [], _, _, h, _ => nomatch h
  | a :: as, place, owner, h, hlt => by
    rw [List.findIdx?_cons] at h
    by_cases ha : p a = true
    · rw [if_neg (by simpa using ha)] at h
      obtain ⟨j, hj, rfl⟩ := Option.map_eq_some_iff.mp h
      rw [List.filter_cons, if_pos ha]
      cases owner with
      | zero => rfl
      | succ owner => exact @filter_place _ _ as _ _ hj (by omega)
    · rw [if_pos (by simpa using ha)] at h
      obtain rfl := Option.some.inj h
      omega

theorem good_remove [BEq R] (hm : m.WellFormed) (hmore : m.sheets.length ≠ 1)
    (howners : ∀ place, m.sheets.findIdx? (·.id == id) = some place →
      ∀ d ∈ m.names, ∀ owner, d.sheet = some owner → owner < m.sheets.length → owner < place) :
    Good isAlphanumeric m { m with sheets := m.sheets.filter (·.id != id) } [] := by
  have hsub : (m.sheets.filter (·.id != id)).Sublist m.sheets := List.filter_sublist
  have hne : m.sheets.filter (·.id != id) ≠ [] := by
    intro hnil
    have hall : ∀ s ∈ m.sheets, s.id = id := fun s hs => by
      have hnot := List.filter_eq_nil_iff.mp hnil s hs
      simpa using hnot
    obtain ⟨s, sheets, hsheets⟩ := List.exists_cons_of_ne_nil hm.sheets
    cases sheets with
    | nil => exact hmore (by rw [hsheets]; rfl)
    | cons t sheets =>
      have hids := hm.ids
      rw [hsheets, List.map_cons, List.map_cons, List.nodup_cons] at hids
      refine hids.1 ?_
      rw [hall s (by rw [hsheets]; simp), hall t (by rw [hsheets]; simp)]
      exact List.mem_cons_self
  refine ⟨⟨hne, hm.ids.sublist (hsub.map _), hm.numbers.sublist (hsub.map _), hm.names.sublist (hsub.map _),
    fun sheet hsheet => hm.last sheet (hsub.subset hsheet)⟩, ⟨rfl, fun d hd owner howner sheet hsheet => ?_⟩,
    fun _ hp => absurd hp List.not_mem_nil⟩
  refine ⟨sheet, ?_, rfl⟩
  show (m.sheets.filter (·.id != id))[owner]? = some sheet
  cases hplace : m.sheets.findIdx? (·.id == id) with
  | none =>
    have hnone := List.findIdx?_eq_none_iff.mp hplace
    rw [List.filter_eq_self.mpr fun s hs => by simpa using hnone s hs]
    exact hsheet
  | some place =>
    have hlt := howners place hplace d hd owner howner (List.getElem?_eq_some_iff.mp hsheet).1
    rw [@filter_place _ _ _ place _ (by simpa [bne] using hplace) hlt]
    exact hsheet

/-! ### Changes -/

theorem Good.trans [BEq R] {renamed' : List (Model R × Model R)} (h : Good isAlphanumeric m m' renamed)
    (h' : Good isAlphanumeric m' m'' renamed') : Good isAlphanumeric m m'' (renamed ++ renamed') where
  wellFormed := h'.wellFormed
  scopes := h.scopes.trans h'.scopes
  names p hp := (List.mem_append.mp hp).elim (h.names p) (h'.names p)

mutual

theorem good_applyOne [BEq R] : ∀ {m m' : Model R} {change change' : Change R}, m.WellFormed →
    Safe isAlphanumeric m change → applyOne isAlphanumeric m change = .ok (change', m') →
    Good isAlphanumeric m m' (renames isAlphanumeric m change)
  | m, m', .cells sheet cells, change', hm, _, h => by
    rw [applyOne] at h
    obtain ⟨m₁, hm₁, h⟩ := bind_ok h
    obtain ⟨-, rfl⟩ := Prod.mk.inj (Except.ok.inj h)
    simp only [renames]
    have hstyled := same_styleCells cells m
    exact (hstyled.trans (same_update (require_ok.mp hm₁) (key_setCells _))).good hm
  | m, m', .rows sheet at' count, change', hm, _, h => by
    rw [applyOne] at h
    obtain ⟨m₁, hm₁, h⟩ := bind_ok h
    obtain ⟨-, rfl⟩ := Prod.mk.inj (Except.ok.inj h)
    simp only [renames]
    exact (same_moveLines hm₁).good hm
  | m, m', .columns sheet at' count, change', hm, _, h => by
    rw [applyOne] at h
    obtain ⟨m₁, hm₁, h⟩ := bind_ok h
    obtain ⟨-, rfl⟩ := Prod.mk.inj (Except.ok.inj h)
    simp only [renames]
    exact (same_moveLines hm₁).good hm
  | m, m', .addSheet id name, change', hm, hsafe, h => by
    rw [applyOne] at h
    obtain ⟨⟨⟩, hnew, h⟩ := bind_ok h
    obtain ⟨-, rfl⟩ := Prod.mk.inj (Except.ok.inj h)
    rw [Safe] at hsafe
    simp only [renames]
    exact good_add hm hsafe (reject_ok.mp hnew)
  | m, m', .renameSheet sheet name, change', hm, hsafe, h => by
    have happly := h
    rw [applyOne] at h
    obtain ⟨m₁, hm₁, h⟩ := bind_ok h
    obtain ⟨-, rfl⟩ := Prod.mk.inj (Except.ok.inj h)
    rw [Safe] at hsafe
    refine good_rename hm hsafe.1 hsafe.2 (require_ok.mp hm₁) fun p hp => ?_
    rw [renames, happly] at hp
    exact List.mem_singleton.mp hp
  | m, m', .removeSheet sheet, change', hm, hsafe, h => by
    rw [applyOne] at h
    obtain ⟨⟨⟩, hmore, h⟩ := bind_ok h
    obtain ⟨-, rfl⟩ := Prod.mk.inj (Except.ok.inj h)
    rw [Safe] at hsafe
    simp only [renames]
    exact good_remove hm (reject_ok.mp hmore) hsafe
  | m, m', .size sheet widths heights, change', hm, _, h => by
    rw [applyOne] at h
    obtain ⟨m₁, hm₁, h⟩ := bind_ok h
    obtain ⟨-, rfl⟩ := Prod.mk.inj (Except.ok.inj h)
    simp only [renames]
    exact (same_update (require_ok.mp hm₁) fun _ => rfl).good hm
  | m, m', .merges sheet add remove, change', hm, _, h => by
    rw [applyOne] at h
    obtain ⟨m₁, hm₁, h⟩ := bind_ok h
    obtain ⟨-, rfl⟩ := Prod.mk.inj (Except.ok.inj h)
    simp only [renames]
    exact (same_update (require_ok.mp hm₁) fun _ => rfl).good hm
  | m, m', .group changes, change', hm, hsafe, h => by
    rw [applyOne] at h
    obtain ⟨⟨changes', m₁⟩, hm₁, h⟩ := bind_ok h
    obtain ⟨-, rfl⟩ := Prod.mk.inj (Except.ok.inj h)
    rw [Safe] at hsafe
    rw [renames]
    exact good_applyAll hm hsafe hm₁
  | _, _, .ops ops, _, _, _, h => by
    rw [applyOne] at h
    cases h

theorem good_applyAll [BEq R] : ∀ {m m' : Model R} {changes changes' : List (Change R)}, m.WellFormed →
    SafeAll isAlphanumeric m changes → applyAll isAlphanumeric m changes = .ok (changes', m') →
    Good isAlphanumeric m m' (renamesAll isAlphanumeric m changes)
  | m, m', [], changes', hm, _, h => by
    rw [applyAll] at h
    obtain ⟨-, rfl⟩ := Prod.mk.inj (Except.ok.inj h)
    rw [renamesAll]
    exact Same.good ⟨rfl, rfl, rfl⟩ hm
  | m, m', change :: changes, changes', hm, hsafe, h => by
    rw [applyAll] at h
    obtain ⟨⟨change₁, m₁⟩, hone, h⟩ := bind_ok h
    obtain ⟨⟨changes₁, m₂⟩, hall, h⟩ := bind_ok h
    obtain ⟨-, rfl⟩ := Prod.mk.inj (Except.ok.inj h)
    rw [SafeAll] at hsafe
    have hfirst := good_applyOne hm hsafe.1 hone
    have hrest := good_applyAll hfirst.wellFormed (hsafe.2 _ _ hone) hall
    rw [renamesAll, hone]
    exact hfirst.trans hrest

end

/-! ### Runs -/

/-- The workbook takes a change that is sent with what came since. -/
def Accepts [BEq R] (isAlphanumeric : Char → Bool) (m : Model R) (sent : Change R × List (Ordered (Change R)))
    (m' : Model R) : Prop :=
  ∃ change, tryApply isAlphanumeric m sent.1 sent.2 = .ok (change, m')

/-- What is carried out keeps the workbook well formed. -/
def SafeSent [BEq R] (isAlphanumeric : Char → Bool) (m : Model R) (sent : Change R × List (Ordered (Change R))) : Prop :=
  ∀ change, meant m sent.2 sent.1 = .ok change → Safe isAlphanumeric m change

theorem good_accepts [BEq R] {sent : Change R × List (Ordered (Change R))} (hm : m.WellFormed)
    (hsafe : SafeSent isAlphanumeric m sent) (h : Accepts isAlphanumeric m sent m') :
    ∃ change, meant m sent.2 sent.1 = .ok change ∧ Good isAlphanumeric m m' (renames isAlphanumeric m change) := by
  obtain ⟨carried, h⟩ := h
  rw [tryApply] at h
  obtain ⟨⟨⟩, -, h⟩ := bind_ok h
  obtain ⟨change, hmeant, h⟩ := bind_ok h
  exact ⟨change, hmeant, good_applyOne hm (hsafe change hmeant) h⟩

theorem good_run [BEq R] {sents : List (Change R × List (Ordered (Change R)))} (hm : m.WellFormed)
    (hrun : Run (Guarded (SafeSent isAlphanumeric) (Accepts isAlphanumeric)) m sents m') :
    m'.WellFormed ∧ Scopes m m' := by
  refine hrun.invariant (I := fun m' => m'.WellFormed ∧ Scopes m m') ?_ ⟨hm, Scopes.refl m⟩
  rintro s sent t ⟨hs, hscopes⟩ ⟨hsafe, haccepts⟩
  obtain ⟨_, _, hgood⟩ := good_accepts hs hsafe haccepts
  exact ⟨hgood.wellFormed, hscopes.trans hgood.scopes⟩

/-! ### What is read -/

theorem le_max (a b : UInt32) : a ≤ max a b ∧ b ≤ max a b := by
  show a ≤ (if a ≤ b then b else a) ∧ b ≤ (if a ≤ b then b else a)
  by_cases h : a ≤ b
  · rw [if_pos h]
    exact ⟨h, UInt32.le_refl b⟩
  · rw [if_neg h]
    exact ⟨UInt32.le_refl a, UInt32.le_of_lt (UInt32.not_le.mp h)⟩

theorem le_most : ∀ (numbers : List UInt32) (most : UInt32),
    most ≤ numbers.foldl max most ∧ ∀ n ∈ numbers, n ≤ numbers.foldl max most
  | [], most => ⟨UInt32.le_refl most, fun _ hn => absurd hn List.not_mem_nil⟩
  | number :: numbers, most => by
    obtain ⟨hmost, hnumbers⟩ := le_most numbers (max most number)
    obtain ⟨hleft, hright⟩ := le_max most number
    refine ⟨UInt32.le_trans hleft hmost, fun n hn => ?_⟩
    rcases List.mem_cons.mp hn with rfl | hn
    · exact UInt32.le_trans hright hmost
    · exact hnumbers n hn

theorem max_le {numbers : List UInt32} {n : UInt32} (hn : n ∈ numbers) : n ≤ (numbers.max?).getD 0 := by
  cases numbers with
  | nil => exact absurd hn List.not_mem_nil
  | cons number numbers =>
    obtain ⟨hfirst, hrest⟩ := le_most numbers number
    rcases List.mem_cons.mp hn with rfl | hn
    · exact hfirst
    · exact hrest n hn

theorem wellFormed_read {content : String → Option (Except Unreadable (Sheet R))} {entries : List Entry}
    {looks : List (Look R)} {names : List DefinedName} (h : read content entries looks names = .ok m)
    (hsome : m.sheets ≠ []) (hids : (m.sheets.map (·.id)).Nodup) (hnumbers : (m.sheets.map (·.number)).Nodup)
    (hnames : (m.sheets.map (·.name)).Nodup) : m.WellFormed := by
  rw [read] at h
  obtain ⟨sheets, -, h⟩ := bind_ok h
  obtain rfl := Except.ok.inj h
  exact ⟨hsome, hids, hnumbers, hnames, fun sheet hsheet => max_le (List.mem_map_of_mem hsheet)⟩

/-- A workbook that is read with at least one sheet and numbers that differ stays well formed through every run of
    changes that it takes, as long as a new sheet finds a number, a sheet takes only a name that is free and leaves only
    a name that no formula names, and a sheet goes only when no defined name belongs to it or to one behind it. -/
theorem stays_well_formed [BEq R] {content : String → Option (Except Unreadable (Sheet R))} {entries : List Entry}
    {looks : List (Look R)} {names : List DefinedName} {opened : Model R}
    {sents : List (Change R × List (Ordered (Change R)))} (hread : read content entries looks names = .ok opened)
    (hids : (opened.sheets.map (·.id)).Nodup) (hnames : (opened.sheets.map (·.name)).Nodup)
    (hsome : opened.sheets ≠ []) (hnumbers : (opened.sheets.map (·.number)).Nodup)
    (hrun : Run (Guarded (SafeSent isAlphanumeric) (Accepts isAlphanumeric)) opened sents m) :
    m.WellFormed ∧ Scopes opened m ∧ ∀ sent m', SafeSent isAlphanumeric m sent → Accepts isAlphanumeric m sent m' →
      ∃ change, meant m sent.2 sent.1 = .ok change ∧
        ∀ p ∈ renames isAlphanumeric m change, Names isAlphanumeric p.1 p.2 := by
  obtain ⟨hm, hscopes⟩ := good_run (wellFormed_read hread hsome hids hnumbers hnames) hrun
  refine ⟨hm, hscopes, fun sent m' hsafe haccepts => ?_⟩
  obtain ⟨change, hmeant, hgood⟩ := good_accepts hm hsafe haccepts
  exact ⟨change, hmeant, hgood.names⟩

/-- Two sheets and nothing on them. -/
def twoSheets : List Entry := [⟨some "1", some "Data", some "a"⟩, ⟨some "2", some "Sums", some "b"⟩]

def emptyParts : String → Option (Except Unreadable (Sheet Nat)) := fun _ => some (.ok .blank)

def dataAnd (second : String) : Model Nat :=
  ⟨[{ Sheet.blank with id := "1", number := 1, name := "Data", part := some "a" },
    { Sheet.blank with id := "2", number := 2, name := second, part := some "b" }], [], [], 2⟩

theorem read_twoSheets : read emptyParts twoSheets [] [] = .ok (dataAnd "Sums") := by
  have hone : parseNumber "1" = some 1 := by decide
  have htwo : parseNumber "2" = some 2 := by decide
  simp only [read, readSheets, twoSheets, emptyParts, Option.getD_some, hone, htwo]
  rfl

theorem accepts_rename (name : String) :
    Accepts (fun _ => false) (dataAnd "Sums") (.renameSheet "2" name, []) (dataAnd name) := ⟨_, rfl⟩

theorem formulas_dataAnd (second : String) : (dataAnd second).formulas = [] := by
  simp [formulas, dataAnd, Sheet.blank]

theorem stays_well_formed_renamed : (dataAnd "Total").WellFormed ∧ Scopes (dataAnd "Sums") (dataAnd "Total") := by
  have hsafe : SafeSent (fun _ => false) (dataAnd "Sums") (.renameSheet "2" "Total", []) := by
    intro change hchange
    obtain rfl := Except.ok.inj hchange
    rw [Safe, formulas_dataAnd]
    refine ⟨fun s hs hname => ?_, fun _ _ _ _ _ hf => absurd hf List.not_mem_nil⟩
    simp only [dataAnd, List.mem_cons, List.not_mem_nil, or_false] at hs
    rcases hs with rfl | rfl
    · exact absurd hname (by decide)
    · rfl
  obtain ⟨hm, hscopes, -⟩ := stays_well_formed read_twoSheets (by decide) (by decide) nofun (by decide)
    (Run.single_iff.mpr ⟨hsafe, accepts_rename "Total"⟩)
  exact ⟨hm, hscopes⟩

/-- A sheet takes the name of another, and from then on both have it. -/
theorem name_taken_twice : ∃ m : Model Nat, read emptyParts twoSheets [] [] = .ok (dataAnd "Sums") ∧
    ((dataAnd "Sums").sheets.map (·.id)).Nodup ∧ ((dataAnd "Sums").sheets.map (·.name)).Nodup ∧
    Run (Accepts fun _ => false) (dataAnd "Sums") [(.renameSheet "2" "Data", [])] m ∧
    ¬(m.sheets.map (·.name)).Nodup := by
  refine ⟨dataAnd "Data", read_twoSheets, by decide, by decide, ?_, by decide⟩
  exact Run.single_iff.mpr (accepts_rename "Data")

end Model

end Kodosi.Xlsx
