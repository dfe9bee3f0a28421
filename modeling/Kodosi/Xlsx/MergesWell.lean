import Kodosi.Xlsx.Merging

/-! When a merge of another program's write is exact. -/

namespace Kodosi.Xlsx
open Kodosi.Lib

variable {R : Type} [BEq R] {isAlphanumeric : Char → Bool} {from' to' live : Model R}

/-! ### The condition -/

/-- A cell is another one in the second state. -/
def Turns (old new : Sheet R) (key : UInt32 × UInt32) : Prop := (old.cells[key]? == new.cells[key]?) = false

/-- The numbers of looks agree: what compares as one cell shows the same in both states, each cell that turns shows the same in
    the live copy, and where it turns by its number alone the live copy shows it already. -/
structure NumbersAgree (from' to' live : Model R) : Prop where
  same : ∀ new ∈ to'.sheets, ∀ old, from'.sheet new.id = some old → ∀ key, ¬Turns old new key →
    from'.shown (old.cell key) = to'.shown (new.cell key)
  other : ∀ new ∈ to'.sheets, ∀ old, from'.sheet new.id = some old → ∀ key, Turns old new key →
    from'.shown (old.cell key) = to'.shown (new.cell key) → live.seen new.id key = to'.shown (new.cell key)
  live : ∀ new ∈ to'.sheets, ∀ key, Turns ((from'.sheet new.id).getD .blank) new key →
    live.shown (new.cell key) = to'.shown (new.cell key)

/-- What a blank cell shows. -/
def nothing : Option (Value R) × Option String × Option (Option (Look R)) := (none, none, none)

/-- The sheets are there: each that has a cell that turns is in the live copy, each new one finds its id and name free, a sheet
    is left when others go, and nobody else put cells on one that goes. -/
structure SheetsThere (from' to' live : Model R) : Prop where
  ids : (from'.sheets.map (·.id)).Nodup ∧ (to'.sheets.map (·.id)).Nodup ∧ (live.sheets.map (·.id)).Nodup
  free : FindsFree from' to'.sheets (live.sheets.map fun x => (x.id, x.name))
  known : ∀ new ∈ to'.sheets, ∀ old, from'.sheet new.id = some old → (∃ key, Turns old new key) → live.sheet new.id ≠ none
  left : (∃ x ∈ live.sheets, to'.sheet x.id ≠ none ∨ from'.sheet x.id = none) ∨ ∃ new ∈ to'.sheets, from'.sheet new.id = none
  gone : ∀ old ∈ from'.sheets, to'.sheet old.id = none → ∀ key, from'.seen old.id key = nothing → live.seen old.id key = nothing

/-- New sheets stand behind those that were there, which keep their order, and no line loses its size. -/
structure KeepsLayout (from' to' : Model R) : Prop where
  order : to'.sheets.map (·.id) = (from'.sheets.filter fun x => (to'.sheet x.id).isSome).map (·.id) ++
    (to'.sheets.filter fun x => (from'.sheet x.id).isNone).map (·.id)
  sizes : ∀ new ∈ to'.sheets, ∀ old, from'.sheet new.id = some old →
    (∀ line ∈ old.widths, line ∈ new.widths) ∧ ∀ line ∈ old.heights, line ∈ new.heights

/-- A merge that the numbers of looks, the sheets and the layout all allow. -/
structure MergesWell (from' to' live : Model R) : Prop where
  numbers : NumbersAgree from' to' live
  sheets : SheetsThere from' to' live
  layout : live = from' → KeepsLayout from' to'

/-! ### Sheets by their ids -/

variable {x : Sheet R}

variable {m : Model R}

omit [BEq R] in
theorem sheet_of_mem (hids : (m.sheets.map (·.id)).Nodup) (hx : x ∈ m.sheets) : m.sheet x.id = some x := by
  obtain ⟨before, behind, hsplit⟩ := List.append_of_mem hx
  rw [hsplit, List.map_append, List.map_cons, List.nodup_append] at hids
  rw [Model.sheet, hsplit, List.find?_append]
  have hnone : before.find? (·.id == x.id) = none := List.find?_eq_none.mpr fun y hy hsame =>
    hids.2.2 _ (List.mem_map.mpr ⟨y, hy, rfl⟩) _ (List.mem_cons_self ..) (by simpa using hsame)
  rw [hnone, Option.none_or, List.find?_cons_of_pos (by simp)]

variable {id : String}

omit [BEq R] in
theorem mem_of_sheet (h : m.sheet id = some x) : x ∈ m.sheets ∧ x.id = id :=
  ⟨List.mem_of_find?_eq_some h, by simpa using List.find?_some h⟩

omit [BEq R] in
/-- The ids of the sheets that go. -/
theorem mem_gone (hids : (from'.sheets.map (·.id)).Nodup) :
    id ∈ (from'.sheets.filter fun old => (to'.sheet old.id).isNone).map (·.id) ↔ from'.sheet id ≠ none ∧ to'.sheet id = none := by
  constructor
  · intro hid
    obtain ⟨old, hold, rfl⟩ := List.mem_map.mp hid
    obtain ⟨hmem, hnone⟩ := List.mem_filter.mp hold
    exact ⟨by rw [sheet_of_mem hids hmem]; exact Option.some_ne_none _, Option.isNone_iff_eq_none.mp hnone⟩
  · rintro ⟨hsome, hnone⟩
    obtain ⟨old, hold⟩ := Option.ne_none_iff_exists'.mp hsome
    obtain ⟨hmem, rfl⟩ := mem_of_sheet hold
    exact List.mem_map.mpr ⟨old, List.mem_filter.mpr ⟨hmem, by rw [hnone]; rfl⟩, rfl⟩

variable {new : Sheet R}

omit [BEq R] in
theorem findsFree_ids {sheets : List (Sheet R)} {there : List (String × String)} (h : FindsFree from' sheets there)
    (hnew : new ∈ sheets) (hnone : from'.sheet new.id = none) : ∀ x ∈ there, x.1 ≠ new.id := by
  induction sheets generalizing there with
  | nil => exact absurd hnew List.not_mem_nil
  | cons first sheets ih =>
    rw [FindsFree] at h
    cases hfirst : from'.sheet first.id with
    | some old =>
      rw [hfirst] at h
      have hin : new ∈ sheets := (List.mem_cons.mp hnew).resolve_left fun hsame => by rw [hsame, hfirst] at hnone; cases hnone
      intro x hx
      have hmem := ih h hin _ (List.mem_map.mpr ⟨x, hx, rfl⟩)
      split_ifs at hmem <;> exact hmem
    | none =>
      rw [hfirst] at h
      rcases List.mem_cons.mp hnew with rfl | hin
      · exact fun x hx => (h.1 x hx).1
      · exact fun x hx => ih h.2 hin x (List.mem_append_left _ hx)

theorem adds_id (h : Adds new x) : x.id = new.id := by
  obtain ⟨number, rfl⟩ := h
  exact turned_id _ _ _

variable {fresh news : List (Sheet R)}

theorem adds_find (h : List.Forall₂ Adds fresh news) (id : String) :
    (fresh.find? (·.id == id) = none ∧ news.find? (·.id == id) = none) ∨
      ∃ new x, fresh.find? (·.id == id) = some new ∧ news.find? (·.id == id) = some x ∧ Adds new x := by
  induction h with
  | nil => exact .inl ⟨rfl, rfl⟩
  | @cons new x fresh news hadds _ ih =>
    by_cases hid : new.id = id
    · refine .inr ⟨new, x, List.find?_cons_of_pos (by simpa using hid), List.find?_cons_of_pos ?_, hadds⟩
      simpa [adds_id hadds] using hid
    · rw [List.find?_cons_of_neg (by simpa using hid), List.find?_cons_of_neg (by simpa [adds_id hadds] using hid)]
      exact ih

omit [BEq R] in
theorem find?_filter_of {p q : Sheet R → Bool} {xs : List (Sheet R)} (h : ∀ x, q x = true → p x = true) :
    (xs.filter p).find? q = xs.find? q := by
  rw [List.find?_filter]
  congr 1
  funext x
  cases hq : q x with
  | true => simp [h x hq]
  | false => simp

/-! ### The merged copy -/

/-- What the merged copy has for an id. -/
structure Merged (from' to' live merged : Model R) : Prop where
  looks : merged.looks = live.looks
  removed : ∀ {id old}, from'.sheet id = some old → to'.sheet id = none → merged.sheet id = none
  known : ∀ {id old new}, from'.sheet id = some old → to'.sheet id = some new → merged.sheet id = (live.sheet id).map (turned old new)
  fresh : ∀ {id new}, from'.sheet id = none → to'.sheet id = some new → live.sheet id = none ∧ ∃ x, merged.sheet id = some x ∧ Adds new x
  other : ∀ {id}, from'.sheet id = none → to'.sheet id = none → merged.sheet id = live.sheet id

theorem merged_list (h : SheetsThere from' to' live) :
    ∃ news, List.Forall₂ Adds (to'.sheets.filter fun new => (from'.sheet new.id).isNone) news ∧
      (takeAll isAlphanumeric live (Model.compare from' to')).looks = live.looks ∧
      (takeAll isAlphanumeric live (Model.compare from' to')).sheets =
        (live.sheets.map (turnedBy from' to'.sheets) ++ news).filter fun x =>
          decide (x.id ∉ (from'.sheets.filter fun old => (to'.sheet old.id).isNone).map (·.id)) := by
  obtain ⟨news, hsheets, hlooks, hnews⟩ := @takeAll_sheets R _ isAlphanumeric live from' to'.sheets h.ids.2.1 h.ids.2.2 h.free
  refine ⟨news, hnews, ?_⟩
  have hremovals : (from'.sheets.filter fun old => (to'.sheet old.id).isNone).map (fun sheet => (.removeSheet sheet.id : Change R)) =
      ((from'.sheets.filter fun old => (to'.sheet old.id).isNone).map (·.id)).map .removeSheet := by
    rw [List.map_map]
    rfl
  have hleft : ∃ x ∈ (takeAll isAlphanumeric live (to'.sheets.flatMap (sheetChanges from'))).sheets,
      x.id ∉ (from'.sheets.filter fun old => (to'.sheet old.id).isNone).map (·.id) := by
    rw [hsheets]
    rcases h.left with ⟨x, hx, hstays⟩ | ⟨new, hnew, hnone⟩
    · refine ⟨turnedBy from' to'.sheets x, List.mem_append_left _ (List.mem_map_of_mem hx), fun hid => ?_⟩
      rw [turnedBy_id] at hid
      obtain ⟨hsome, hnone⟩ := (mem_gone h.ids.1).mp hid
      exact hstays.elim (fun h => h hnone) hsome
    · rcases adds_find hnews new.id with ⟨hnot, -⟩ | ⟨new', x, hfind, hfind', hadds⟩
      · have hmem : new ∈ to'.sheets.filter fun new => (from'.sheet new.id).isNone :=
          List.mem_filter.mpr ⟨hnew, by rw [hnone]; rfl⟩
        exact absurd (beq_self_eq_true new.id) (List.find?_eq_none.mp hnot new hmem)
      · refine ⟨x, List.mem_append_right _ (List.mem_of_find?_eq_some hfind'), fun hid => ?_⟩
        have hxid : x.id = new.id := by simpa using List.find?_some hfind'
        exact ((mem_gone h.ids.1).mp hid).1 (by rw [hxid]; exact hnone)
  obtain ⟨hfiltered, hlooks'⟩ := @takeAll_removals R _ isAlphanumeric _ _ hleft
  rw [Model.compare, takeAll_append, hremovals]
  exact ⟨hlooks'.trans hlooks, by rw [hfiltered, hsheets]⟩

theorem merged_sheets (h : SheetsThere from' to' live) :
    Merged from' to' live (takeAll isAlphanumeric live (Model.compare from' to')) := by
  obtain ⟨news, hnews, hlooks, hsheets⟩ := @merged_list R _ isAlphanumeric from' to' live h
  set merged := takeAll isAlphanumeric live (Model.compare from' to')
  have hlive : ∀ {id : String}, (live.sheets.map (turnedBy from' to'.sheets)).find? (·.id == id) =
      (live.sheet id).map (turnedBy from' to'.sheets) := by
    intro id
    rw [List.find?_map, Model.sheet]
    congr 2
    funext x
    show ((turnedBy from' to'.sheets x).id == id) = _
    rw [turnedBy_id]
  have hfind : ∀ {id : String}, ¬(from'.sheet id ≠ none ∧ to'.sheet id = none) →
      merged.sheet id = ((live.sheet id).map (turnedBy from' to'.sheets)).or (news.find? (·.id == id)) := by
    intro id hstays
    rw [Model.sheet, hsheets, find?_filter_of, List.find?_append, hlive]
    intro x hx
    have hx : x.id = id := by simpa using hx
    rw [decide_eq_true_iff, mem_gone h.ids.1, hx]
    exact hstays
  have hfresh : ∀ {id : String}, (to'.sheets.filter fun new => (from'.sheet new.id).isNone).find? (·.id == id) =
      if from'.sheet id = none then to'.sheet id else none := by
    intro id
    split_ifs with hnone
    · refine find?_filter_of fun x hx => ?_
      have hx : x.id = id := by simpa using hx
      rw [hx, hnone]
      rfl
    · refine List.find?_eq_none.mpr fun x hx hsame => hnone ?_
      have hsame : x.id = id := by simpa using hsame
      exact hsame ▸ Option.isNone_iff_eq_none.mp (List.mem_filter.mp hx).2
  refine ⟨hlooks, fun {id old} hold hnone => ?_, fun {id old new} hold hnew => ?_, fun {id new} hnone hnew => ?_, fun {id} hnone hnew => ?_⟩
  · rw [Model.sheet, hsheets, List.find?_eq_none]
    intro x hx hsame
    have hsame : x.id = id := by simpa using hsame
    have hnot := (List.mem_filter.mp hx).2
    rw [decide_eq_true_iff, mem_gone h.ids.1, hsame] at hnot
    exact hnot ⟨by rw [hold]; exact Option.some_ne_none _, hnone⟩
  · rw [hfind fun h => by rw [hnew] at h; exact absurd h.2 nofun]
    have hnot : news.find? (·.id == id) = none := by
      rcases adds_find hnews id with ⟨-, hnone⟩ | ⟨new', x, hfind', -⟩
      · exact hnone
      · rw [hfresh, if_neg (by rw [hold]; exact Option.some_ne_none _)] at hfind'
        exact absurd hfind' nofun
    rw [hnot, Option.or_none]
    cases hx : live.sheet id with
    | none => rfl
    | some x =>
      have hxid := (mem_of_sheet hx).2
      have hby : to'.sheets.find? (·.id == x.id) = some new := by rw [hxid]; exact hnew
      have hnewid := (mem_of_sheet hnew).2
      rw [Option.map_some, Option.map_some, turnedBy, hby]
      dsimp only
      rw [hnewid, hold]
      rfl
  · have hnewid := (mem_of_sheet hnew).2
    have hlivenone : live.sheet id = none := by
      rw [Model.sheet, List.find?_eq_none]
      intro x hx hsame
      exact findsFree_ids h.free (mem_of_sheet hnew).1 (by rw [hnewid]; exact hnone) (x.id, x.name)
        (List.mem_map.mpr ⟨x, hx, rfl⟩) (by rw [hnewid]; simpa using hsame)
    refine ⟨hlivenone, ?_⟩
    rw [hfind fun h => h.1 hnone, hlivenone, Option.map_none, Option.none_or]
    rcases adds_find hnews id with ⟨hnot, -⟩ | ⟨new', x, hfind', hx, hadds⟩
    · rw [hfresh, if_pos hnone, hnew] at hnot
      exact absurd hnot nofun
    · rw [hfresh, if_pos hnone, hnew] at hfind'
      obtain rfl := Option.some.inj hfind'
      exact ⟨x, hx, hadds⟩
  · rw [hfind fun h => h.1 hnone]
    have hnot : news.find? (·.id == id) = none := by
      rcases adds_find hnews id with ⟨-, hnot⟩ | ⟨new', x, hfind', -⟩
      · exact hnot
      · rw [hfresh, if_pos hnone, hnew] at hfind'
        exact absurd hfind' nofun
    rw [hnot, Option.or_none]
    cases hx : live.sheet id with
    | none => rfl
    | some x =>
      have hxid := (mem_of_sheet hx).2
      have hby : to'.sheets.find? (·.id == x.id) = none := by rw [hxid]; exact hnew
      rw [Option.map_some, turnedBy, hby]

/-! ### What is seen -/

omit [BEq R] in
theorem seen_of (h : m.sheet id = some x) (key : UInt32 × UInt32) : m.seen id key = m.shown (x.cell key) := by
  rw [Model.seen, h]
  rfl

omit [BEq R] in
theorem seen_none (h : m.sheet id = none) (key : UInt32 × UInt32) : m.seen id key = nothing := by
  rw [Model.seen, h]
  rfl

omit [BEq R] in
theorem shown_looks {m' : Model R} (h : m.looks = m'.looks) (c : Cell R) : m.shown c = m'.shown c := by
  rw [Model.shown, Model.shown, h]

/-- What is seen of a sheet that is in both states. -/
theorem seen_known {merged : Model R} (hmerged : Merged from' to' live merged) (hnumbers : NumbersAgree from' to' live)
    {old : Sheet R} (hold : from'.sheet id = some old) (hnew : to'.sheet id = some new)
    (hthere : (∃ key, Turns old new key) → live.sheet id ≠ none) (key : UInt32 × UInt32) :
    (Turns old new key → merged.seen id key = to'.seen id key) ∧ (¬Turns old new key → merged.seen id key = live.seen id key) := by
  obtain ⟨hmem, rfl⟩ := mem_of_sheet hnew
  have hknown := hmerged.known hold hnew
  cases hlive : live.sheet new.id with
  | none =>
    rw [hlive] at hknown
    refine ⟨fun hturns => absurd hlive (hthere ⟨key, hturns⟩), fun _ => ?_⟩
    rw [seen_none hknown, seen_none hlive]
  | some x =>
    rw [hlive] at hknown
    rw [seen_of hknown, cell_turned, shown_looks hmerged.looks]
    refine ⟨fun hturns => ?_, fun hsame => ?_⟩
    · rw [if_neg (by rw [show (old.cells[key]? == new.cells[key]?) = false from hturns]; exact Bool.false_ne_true), seen_of hnew]
      exact hnumbers.live new hmem key (by rw [hold]; exact hturns)
    · rw [if_pos (by simpa [Turns] using hsame), seen_of hlive]

/-- What is seen of a sheet that is only in the second state. -/
theorem seen_fresh {merged : Model R} (hmerged : Merged from' to' live merged) (hnumbers : NumbersAgree from' to' live)
    (hold : from'.sheet id = none) (hnew : to'.sheet id = some new) (key : UInt32 × UInt32) :
    merged.seen id key = to'.seen id key := by
  obtain ⟨hmem, rfl⟩ := mem_of_sheet hnew
  obtain ⟨-, x, hx, number, rfl⟩ := hmerged.fresh hold hnew
  rw [seen_of hx, cell_turned, seen_of hnew, shown_looks hmerged.looks]
  have hblank : (Sheet.blank : Sheet R).cells[key]? = none := Std.ExtTreeMap.getElem?_empty
  split_ifs with hsame
  · have hnone : new.cells[key]? = none := by
      rw [hblank] at hsame
      cases hcell : new.cells[key]? with
      | none => rfl
      | some c => rw [hcell] at hsame; exact absurd hsame Bool.false_ne_true
    have hcell : new.cell key = .blank := by rw [Sheet.cell, hnone]; rfl
    have hadded : (added new.id new.name number : Sheet R).cell key = .blank := by
      rw [Sheet.cell]
      show (Sheet.blank : Sheet R).cells[key]?.getD .blank = _
      rw [hblank]
      rfl
    rw [hcell, hadded]
    rfl
  · exact hnumbers.live new hmem key (by rw [hold]; simpa [Turns] using hsame)

/-! ### The second state -/

omit [BEq R] in
theorem pairs_eq {f : String → String} : ∀ {l l' : List (String × String)}, l.map Prod.fst = l'.map Prod.fst →
    (∀ p ∈ l, p.2 = f p.1) → (∀ p ∈ l', p.2 = f p.1) → l = l'
  | [], [], _, _, _ => rfl
  | [], _ :: _, h, _, _ => absurd h nofun
  | _ :: _, [], h, _, _ => absurd h nofun
  | p :: l, p' :: l', h, hl, hl' => by
    rw [List.map_cons, List.map_cons, List.cons.injEq] at h
    obtain ⟨hp, hl⟩ := List.forall_mem_cons.mp hl
    obtain ⟨hp', hl'⟩ := List.forall_mem_cons.mp hl'
    have hsame : p = p' := Prod.ext h.1 (by rw [hp, hp', h.1])
    rw [hsame, pairs_eq h.2 hl hl']

theorem adds_name (h : Adds new x) : x.name = new.name := by
  obtain ⟨number, rfl⟩ := h
  rw [name_turned]
  split_ifs <;> rfl

theorem adds_mem (h : List.Forall₂ Adds fresh news) (hx : x ∈ news) : ∃ new ∈ fresh, Adds new x := by
  induction h with
  | nil => exact absurd hx List.not_mem_nil
  | cons hadds _ ih =>
    rcases List.mem_cons.mp hx with rfl | hx
    · exact ⟨_, List.mem_cons_self .., hadds⟩
    · obtain ⟨new, hnew, hadds⟩ := ih hx
      exact ⟨new, List.mem_cons_of_mem _ hnew, hadds⟩

theorem adds_ids (h : List.Forall₂ Adds fresh news) : news.map (·.id) = fresh.map (·.id) := by
  induction h with
  | nil => rfl
  | cons hadds _ ih => rw [List.map_cons, List.map_cons, ih, adds_id hadds]

/-- The sheets of the second state, in their order, when the live copy was still the first. -/
theorem merged_names (hsheets : SheetsThere from' to' from') (hlayout : KeepsLayout from' to') :
    (takeAll isAlphanumeric from' (Model.compare from' to')).sheets.map (fun x => (x.id, x.name)) =
      to'.sheets.map fun x => (x.id, x.name) := by
  obtain ⟨news, hnews, -, hlist⟩ := @merged_list R _ isAlphanumeric from' to' from' hsheets
  have hstay : ∀ x ∈ news, (decide (x.id ∉ (from'.sheets.filter fun old => (to'.sheet old.id).isNone).map (·.id))) = true := by
    intro x hx
    obtain ⟨new, hnew, hadds⟩ := adds_mem hnews hx
    rw [decide_eq_true_iff, mem_gone hsheets.ids.1, adds_id hadds]
    exact fun h => h.1 (Option.isNone_iff_eq_none.mp (List.mem_filter.mp hnew).2)
  have hmerged : (takeAll isAlphanumeric from' (Model.compare from' to')).sheets =
      (from'.sheets.filter fun x => (to'.sheet x.id).isSome).map (turnedBy from' to'.sheets) ++ news := by
    rw [hlist, List.filter_append, List.filter_map, List.filter_eq_self.mpr hstay]
    congr 2
    refine List.filter_congr fun x hx => ?_
    rw [Function.comp_apply, turnedBy_id, Bool.eq_iff_iff, decide_eq_true_iff, mem_gone hsheets.ids.1,
      sheet_of_mem hsheets.ids.1 hx, Option.isSome_iff_ne_none]
    simp
  have hknown : ∀ x ∈ from'.sheets, ∀ new, to'.sheet x.id = some new → (turnedBy from' to'.sheets x).name = new.name := by
    intro x hx new hnew
    have hby : to'.sheets.find? (·.id == x.id) = some new := hnew
    rw [turnedBy, hby]
    dsimp only
    rw [(mem_of_sheet hnew).2, sheet_of_mem hsheets.ids.1 hx, Option.getD_some, name_turned]
    split_ifs with hname
    · rfl
    · exact not_not.mp hname
  rw [hmerged]
  refine @pairs_eq (fun id => ((to'.sheet id).map (·.name)).getD "") _ _ ?_ ?_ ?_
  · have hids : ((from'.sheets.filter fun x => (to'.sheet x.id).isSome).map (turnedBy from' to'.sheets) ++ news).map (·.id) =
        to'.sheets.map (·.id) := by
      rw [List.map_append, List.map_map, adds_ids hnews, hlayout.order]
      congr 1
      exact List.map_congr_left fun x _ => turnedBy_id _ _
    rw [List.map_map, List.map_map]
    exact hids
  · intro p hp
    obtain ⟨x, hx, rfl⟩ := List.mem_map.mp hp
    dsimp only
    rcases List.mem_append.mp hx with hx | hx
    · obtain ⟨y, hy, rfl⟩ := List.mem_map.mp hx
      obtain ⟨hy, hsome⟩ := List.mem_filter.mp hy
      obtain ⟨new, hnew⟩ := Option.isSome_iff_exists.mp hsome
      rw [turnedBy_id, hnew, hknown y hy new hnew]
      rfl
    · obtain ⟨new, hnew, hadds⟩ := adds_mem hnews hx
      rw [adds_id hadds, adds_name hadds, sheet_of_mem hsheets.ids.2.1 (List.mem_of_mem_filter hnew)]
      rfl
  · rintro p hp
    obtain ⟨new, hnew, rfl⟩ := List.mem_map.mp hp
    dsimp only
    rw [sheet_of_mem hsheets.ids.2.1 hnew]
    rfl

/-- The cell A1 holds a number. -/
def numberSheet (n : Nat) (style : Option UInt32) : Sheet Nat :=
  { Sheet.blank with id := "1", name := "Main", cells := (∅ : Cells Nat).insert (0, 0) ⟨some (.number n), none, style⟩ }

def plainLook : Look Nat := ⟨false, false, false, false, none, none, none, none, none, none, none, false⟩

def numberModel (n : Nat) (style : Option UInt32) (looks : List (Look Nat)) : Model Nat := ⟨[numberSheet n style], looks, [], 1⟩

end Kodosi.Xlsx
