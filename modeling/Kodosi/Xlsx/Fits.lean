import Kodosi.Xlsx.Numbered

/-! When no sum of rows and columns wraps. -/

namespace Kodosi.Xlsx
open Kodosi.Lib
open Kodosi.Documents (Ordered Refused Unreadable)

/-! ### Lines -/

namespace Shift

variable {s : Shift} {l first last k : UInt32}

/-- A line that goes up still has so many more numbers behind it. -/
def Holds (s : Shift) (more : Nat) (l : UInt32) : Prop := 0 ≤ s.count → s.at' ≤ l → l.toNat + s.size + more < 2 ^ 32

/-- The sums of a shift with `at'` and `count` alone: a deleted line ends at a number of the grid. -/
structure OnGrid (s : Shift) : Prop where
  accepted : s.Accepted
  count : s.count.toInt ≠ -2 ^ 31

theorem OnGrid.most (h : s.OnGrid) : s.at'.toNat + s.size ≤ 1048576 := by
  rcases h.accepted.cases with hle | ⟨hneg, hsize⟩
  · exact hle
  · rw [Int32.lt_iff_toInt_lt] at hneg
    have hneg : s.count.toInt < 0 := hneg
    have hcount := h.count
    rw [size] at hsize
    omega

theorem OnGrid.ends (h : s.OnGrid) : s.Ends := fun _ => lt_of_le_of_lt h.most (by decide)

theorem OnGrid.stop (h : s.OnGrid) : (s.at' + unsignedAbs s.count).toNat = s.at'.toNat + s.size := by
  rw [UInt32.toNat_add, toNat_unsignedAbs, Nat.mod_eq_of_lt (lt_of_le_of_lt h.most (by decide))]

theorem lineSums_fit (hs : s.OnGrid) (hl : s.Holds 0 l) : ∀ x ∈ s.lineSums l, x.Fits := by
  have hmost := hs.most
  intro x hx
  rw [lineSums] at hx
  split_ifs at hx with hcount hat hbefore hgone
  · obtain rfl := List.mem_singleton.mp hx
    have := hl hcount hat
    exact ⟨by omega, by omega⟩
  · exact absurd hx List.not_mem_nil
  · exact absurd hx List.not_mem_nil
  · obtain rfl := List.mem_singleton.mp hx
    exact ⟨by omega, by omega⟩
  · have hstop : s.at'.toNat + s.size ≤ l.toNat := by
      rw [← hs.stop]
      exact UInt32.le_iff_toNat_le.mp (UInt32.not_lt.mp hgone)
    have hlt := l.toNat_lt
    rcases List.mem_cons.mp hx with rfl | hx
    · exact ⟨by omega, by omega⟩
    · obtain rfl := List.mem_singleton.mp hx
      exact ⟨by omega, by omega⟩

theorem spanSums_fit (hs : s.OnGrid) (hfirst : s.Holds 0 first) (hlast : s.Holds 0 last) :
    ∀ x ∈ s.spanSums first last, x.Fits := by
  have hmost := hs.most
  have hfits := lineSums_fit hs hfirst
  have hfits' := lineSums_fit hs hlast
  intro x hx
  rw [spanSums] at hx
  by_cases hcount : 0 ≤ s.count
  · rw [if_pos hcount] at hx
    exact (List.mem_append.mp hx).elim (hfits x) (hfits' x)
  · rw [if_neg hcount] at hx
    rcases List.mem_append.mp hx with hx | hx
    · exact hfits x hx
    · cases hline : s.line first with
      | some k =>
        rw [hline] at hx
        exact hfits' x hx
      | none =>
        rw [hline] at hx
        rcases List.mem_cons.mp hx with rfl | hx
        · exact ⟨by omega, by omega⟩
        · split_ifs at hx
          · exact hfits' x hx
          · exact absurd hx List.not_mem_nil

/-- Where a line with a number goes, it has one. -/
theorem line_hasNumber (hs : s.OnGrid) (hl : s.Holds 1 l) (hnumber : HasNumber l) (hk : s.line l = some k) : HasNumber k := by
  rw [HasNumber] at hnumber ⊢
  by_cases hcount : 0 ≤ s.count
  · have hreach : s.Reaches l := fun hcount hat => by have := hl hcount hat; omega
    rw [(line_insert hcount hreach).mp hk]
    split_ifs with hat
    · exact hl hcount (UInt32.le_iff_toNat_le.mpr hat)
    · exact hnumber
  · rcases (line_delete (Int32.not_le.mp hcount) hs.ends).mp hk with ⟨-, h⟩ | ⟨-, h⟩ <;> omega

theorem span_hasNumber (hs : s.OnGrid) (hfirst : s.Holds 1 first) (hlast : s.Holds 1 last) (hfirst' : HasNumber first)
    (hlast' : HasNumber last) {a b : UInt32} (h : s.span first last = some (a, b)) : HasNumber a ∧ HasNumber b := by
  have hmost := hs.most
  have hat : ∀ {l : UInt32}, l ≤ s.at' → HasNumber l := by
    intro l hl
    have := UInt32.le_iff_toNat_le.mp hl
    rw [HasNumber]
    omega
  have hone : (1 : UInt32).toNat = 1 := rfl
  rw [span] at h
  by_cases hcount : 0 ≤ s.count
  · rw [if_pos hcount] at h
    obtain ⟨a', ha, h⟩ := Option.bind_eq_some_iff.mp h
    obtain ⟨b', hb, h⟩ := Option.bind_eq_some_iff.mp h
    obtain ⟨rfl, rfl⟩ := Prod.mk.inj (Option.some.inj h)
    exact ⟨line_hasNumber hs hfirst hfirst' ha, line_hasNumber hs hlast hlast' hb⟩
  · rw [if_neg hcount] at h
    obtain ⟨a', ha, h⟩ := Option.bind_eq_some_iff.mp h
    obtain ⟨b', hb, h⟩ := Option.bind_eq_some_iff.mp h
    obtain ⟨rfl, rfl⟩ := Prod.mk.inj (Option.some.inj h)
    refine ⟨?_, ?_⟩
    · rcases Option.or_eq_some_iff.mp ha with ha | ⟨-, ha⟩
      · exact line_hasNumber hs hfirst hfirst' ha
      · split_ifs at ha
        exact hat (by rw [← Option.some.inj ha]; exact UInt32.le_refl _)
    · rcases Option.or_eq_some_iff.mp hb with hb | ⟨-, hb⟩
      · exact line_hasNumber hs hlast hlast' hb
      · refine hat ?_
        by_cases hlt : first < s.at'
        · rw [if_pos hlt, Option.some_inj] at hb
          rw [← hb]
          by_cases hzero : s.at' = 0
          · rw [if_pos hzero, hzero]
            exact UInt32.le_refl _
          · have hpos : 1 ≤ s.at' := by
              have hne : s.at'.toNat ≠ 0 := fun h => hzero (UInt32.toNat_inj.mp h)
              rw [UInt32.le_iff_toNat_le]
              omega
            rw [if_neg hzero, UInt32.le_iff_toNat_le, UInt32.toNat_sub_of_le _ _ hpos]
            omega
        · rw [if_neg hlt] at hb
          cases hb

end Shift

/-! ### References -/

section

variable {isAlphanumeric : Char → Bool} {s : Shift} {rows : Bool}

/-- The lines of an end, as the scan reads them. -/
structure Reference.Read (r : Reference) : Prop where
  row : ∀ row ∈ r.row, HasNumber row
  column : ∀ column ∈ r.column, column.toNat < 18278

theorem parseReference_read {text : List Char} {r : Reference} (h : parseReference text = some r) : r.Read := by
  have hread : ∀ {row column : Option UInt32} {rowFixed columnFixed : Bool}, (∀ l ∈ row, HasNumber l) →
      (∀ l ∈ column, l.toNat < 18278) →
      (if column.isSome ∨ row.isSome then some (⟨row, column, rowFixed, columnFixed⟩ : Reference) else none) = some r → r.Read := by
    intro row column rowFixed columnFixed hrow hcolumn h
    split_ifs at h
    exact Option.some.inj h ▸ ⟨hrow, hcolumn⟩
  have hend : ∀ {column : Option UInt32} {digits : List Char} {rowFixed columnFixed : Bool}, (∀ l ∈ column, l.toNat < 18278) →
      (let last (row : Option UInt32) :=
          if column.isSome ∨ row.isSome then some (⟨row, column, rowFixed, columnFixed⟩ : Reference) else none
        if digits = [] then (some none).bind last
        else (parseU32 digits).bind fun row => if 1 ≤ row then (some (some (row - 1))).bind last else none.bind last) = some r →
      r.Read := by
    intro column digits rowFixed columnFixed hcolumn h
    dsimp only at h
    by_cases hdigits : digits = []
    · rw [if_pos hdigits] at h
      exact hread (fun _ h => absurd h (Option.not_mem_none _)) hcolumn h
    · rw [if_neg hdigits] at h
      obtain ⟨n, -, h⟩ := Option.bind_eq_some_iff.mp h
      by_cases hpos : 1 ≤ n
      · rw [if_pos hpos] at h
        refine hread (fun l hl => ?_) hcolumn h
        rw [← Option.some.inj hl]
        exact hasNumber_sub hpos
      · rw [if_neg hpos] at h
        exact absurd h nofun
  unfold parseReference at h
  simp only [Option.bind_eq_bind] at h
  by_cases hletters : (List.span isAsciiAlphabetic (dropSign text).2).1 = []
  · rw [if_pos hletters] at h
    exact hend (fun _ h => absurd h (Option.not_mem_none _)) h
  · rw [if_neg hletters] at h
    obtain ⟨n, -, h⟩ := Option.bind_eq_some_iff.mp h
    by_cases hlt : n < 18278
    · rw [if_pos hlt] at h
      refine hend (fun l hl => ?_) h
      rw [← Option.some.inj hl]
      exact UInt32.lt_iff_toNat_lt.mp hlt
    · rw [if_neg hlt] at h
      exact absurd h nofun

/-- Both ends of a reference are as the scan reads them. -/
def ReadReference.Read (r : ReadReference) : Prop := Reference.Read r.2.1 ∧ ∀ stop ∈ r.2.2, Reference.Read stop

theorem secondEnd_read {rest : List Char} {stop : Reference} (h : (secondEnd isAlphanumeric rest).1 = some stop) : stop.Read := by
  unfold secondEnd at h
  split at h
  · rename_i more
    cases hsecond : parseReference (more.span (isNameLetter isAlphanumeric)).1 with
    | none =>
      rw [hsecond] at h
      exact absurd h nofun
    | some second =>
      rw [hsecond] at h
      exact Option.some.inj h ▸ parseReference_read hsecond
  · exact absurd h nofun

variable {r : ReadReference}

theorem readBy_read {sheet : Option (List Char)} {letters : List Char} (h : r ∈ (readBy isAlphanumeric sheet letters).1) :
    ReadReference.Read r := by
  rw [readBy] at h
  dsimp only at h
  cases hword : parseReference (letters.span (isNameLetter isAlphanumeric)).1 with
  | none =>
    rw [hword] at h
    exact absurd h List.not_mem_nil
  | some first =>
    rw [hword] at h
    dsimp only at h
    split_ifs at h
    · exact absurd h List.not_mem_nil
    · obtain rfl := List.mem_singleton.mp h
      refine ⟨parseReference_read hword, fun stop hstop => ?_⟩
      exact secondEnd_read hstop

theorem readsFrom_read : ∀ {n : Nat} {letters : List Char} {r : ReadReference},
    r ∈ readsFrom isAlphanumeric n letters → ReadReference.Read r
  | 0, _, _, h => absurd h List.not_mem_nil
  | _ + 1, [], _, h => absurd h List.not_mem_nil
  | n + 1, c :: rest, r, h => by
    have hboth : ∀ {sheet : Option (List Char)} {letters left : List Char},
        r ∈ (readBy isAlphanumeric sheet letters).1 ++ readsFrom isAlphanumeric n left → ReadReference.Read r :=
      fun h => (List.mem_append.mp h).elim readBy_read readsFrom_read
    rw [readsFrom] at h
    split at h
    · exact readsFrom_read h
    · split at h
      · dsimp only at h
        split at h
        · exact hboth h
        · exact readsFrom_read h
      · split at h
        · dsimp only at h
          split at h
          · exact hboth h
          · exact readsFrom_read h
          · exact hboth h
        · exact readsFrom_read h

/-- Where the rows of a reference move, those that move up still have numbers. -/
def ReferenceHolds (s : Shift) (r : ReadReference) : Prop :=
  ∀ start ∈ r.2.1.row, match r.2.2 with
    | none => s.Holds 1 start
    | some stop => ∀ last ∈ stop.row, s.Holds 1 start ∧ s.Holds 1 last

/-- The lines that a move of one reference goes over, and that each of them stays within the numbers. -/
theorem axis_holds (hs : s.OnGrid) (hread : ReadReference.Read r) (hholds : rows = true → ReferenceHolds s r)
    {start : UInt32} (hstart : r.2.1.line rows = some start) :
    match r.2.2 with
    | none => s.Holds 1 start
    | some stop => ∀ last, stop.line rows = some last → s.Holds 1 start ∧ s.Holds 1 last := by
  cases rows with
  | true =>
    have h := hholds rfl start hstart
    cases hsecond : r.2.2 with
    | none => rw [hsecond] at h; exact h
    | some stop => rw [hsecond] at h; exact h
  | false =>
    have hmost := hs.most
    have hcolumn : ∀ {l : UInt32}, l.toNat < 18278 → s.Holds 1 l := fun h _ _ => by omega
    have hfirst := hcolumn (hread.1.column start hstart)
    cases hsecond : r.2.2 with
    | none => exact hfirst
    | some stop => exact fun last hlast => ⟨hfirst, hcolumn ((hread.2 stop hsecond).column last hlast)⟩

theorem moveAxisSums_fit (hs : s.OnGrid) (hread : ReadReference.Read r) (hholds : rows = true → ReferenceHolds s r) :
    ∀ x ∈ moveAxisSums s (·.line rows) r.2.1 r.2.2, x.Fits := by
  have hzero : ∀ {l : UInt32}, s.Holds 1 l → s.Holds 0 l := fun h hcount hat => by have := h hcount hat; omega
  intro x hx
  unfold moveAxisSums at hx
  dsimp only at hx
  cases hstart : r.2.1.line rows with
  | none =>
    rw [hstart] at hx
    exact absurd hx List.not_mem_nil
  | some start =>
    have h := axis_holds hs hread hholds hstart
    rw [hstart] at hx
    cases hsecond : r.2.2 with
    | none =>
      rw [hsecond] at h hx
      exact Shift.lineSums_fit hs (hzero h) x hx
    | some stop =>
      rw [hsecond] at h hx
      dsimp only at h hx
      cases hlast : stop.line rows with
      | none =>
        rw [hlast] at hx
        exact absurd hx List.not_mem_nil
      | some last =>
        rw [hlast] at hx
        exact Shift.spanSums_fit hs (hzero (h last hlast).1) (hzero (h last hlast).2) x hx

theorem withLine_row {r : Reference} (hr : ∀ row ∈ r.row, HasNumber row) {k : UInt32} (hk : rows = true → HasNumber k) :
    ∀ row ∈ (r.withLine (some k) rows).row, HasNumber row := by
  cases rows with
  | true =>
    intro row hrow
    rw [← Option.some.inj hrow]
    exact hk rfl
  | false => exact hr

/-- What a moved reference is written with has numbers. -/
theorem lineChange_rows {own : Bool} {sheet : String} {first : Reference} {second : Option Reference} (hs : s.OnGrid)
    (hread : ReadReference.Read r)
    (hholds : r.1.elim own (String.ofList · == sheet) = true → rows = true → ReferenceHolds s r)
    (h : lineChange own sheet s rows r.1 r.2.1 r.2.2 = some (first, second)) :
    (∀ row ∈ first.row, HasNumber row) ∧ ∀ stop ∈ second, ∀ row ∈ stop.row, HasNumber row := by
  rw [lineChange] at h
  split_ifs at h with hhere
  · unfold moveAxis at h
    dsimp only at h
    cases hstart : r.2.1.line rows with
    | none =>
      rw [hstart] at h
      obtain ⟨rfl, rfl⟩ := Prod.mk.inj (Option.some.inj h)
      exact ⟨hread.1.row, fun stop hstop => (hread.2 stop hstop).row⟩
    | some start =>
      have hmoves := axis_holds hs hread (hholds hhere) hstart
      have hnumber : ∀ {end' : Reference} {l : UInt32}, end'.Read → end'.line rows = some l → rows = true → HasNumber l := by
        rintro end' l hend hl rfl
        exact hend.row l hl
      rw [hstart] at h
      cases hsecond : r.2.2 with
      | none =>
        rw [hsecond] at h hmoves
        obtain ⟨k, hk, h⟩ := Option.bind_eq_some_iff.mp h
        obtain ⟨rfl, rfl⟩ := Prod.mk.inj (Option.some.inj h)
        refine ⟨withLine_row hread.1.row fun hrows => ?_, fun stop hstop => absurd hstop (Option.not_mem_none _)⟩
        exact Shift.line_hasNumber hs hmoves (hnumber hread.1 hstart hrows) hk
      | some stop =>
        rw [hsecond] at h hmoves
        have hstop := hread.2 stop hsecond
        obtain ⟨last, hlast, h⟩ := Option.bind_eq_some_iff.mp h
        obtain ⟨⟨a, b⟩, hspan, h⟩ := Option.bind_eq_some_iff.mp h
        obtain ⟨rfl, rfl⟩ := Prod.mk.inj (Option.some.inj h)
        obtain ⟨hfirst, hlast'⟩ := hmoves last hlast
        have hboth : rows = true → HasNumber a ∧ HasNumber b := fun hrows =>
          Shift.span_hasNumber hs hfirst hlast' (hnumber hread.1 hstart hrows) (hnumber hstop hlast hrows) hspan
        refine ⟨withLine_row hread.1.row fun hrows => (hboth hrows).1, fun end' hend => ?_⟩
        rw [← Option.some.inj hend]
        exact withLine_row hstop.row fun hrows => (hboth hrows).2
  · obtain ⟨rfl, rfl⟩ := Prod.mk.inj (Option.some.inj h)
    exact ⟨hread.1.row, fun stop hstop => (hread.2 stop hstop).row⟩

theorem oneMore_fits {l : UInt32} (h : HasNumber l) : (oneMore l).Fits := by
  rw [HasNumber] at h
  exact ⟨by omega, by omega⟩

theorem writeSums_fit {r : Reference} (h : ∀ row ∈ r.row, HasNumber row) : ∀ x ∈ r.writeSums, x.Fits := by
  intro x hx
  rw [Reference.writeSums, Option.mem_toList, Option.map_eq_some_iff] at hx
  obtain ⟨row, hrow, rfl⟩ := hx
  exact oneMore_fits (h row hrow)

/-- No sum of a reference wraps when its moved rows hold. -/
theorem referenceSums_fit {own : Bool} {sheet : String} (hs : s.OnGrid) (hread : ReadReference.Read r)
    (hholds : r.1.elim own (String.ofList · == sheet) = true → rows = true → ReferenceHolds s r) :
    ∀ x ∈ referenceSums own sheet s rows r, x.Fits := by
  intro x hx
  rcases List.mem_append.mp hx with hx | hx
  · split_ifs at hx with hhere
    · exact moveAxisSums_fit hs hread (hholds hhere) x hx
    · exact absurd hx List.not_mem_nil
  · cases hchange : lineChange own sheet s rows r.1 r.2.1 r.2.2 with
    | none =>
      rw [hchange] at hx
      exact absurd hx List.not_mem_nil
    | some ends =>
      obtain ⟨first, second⟩ := ends
      obtain ⟨hfirst, hsecond⟩ := lineChange_rows hs hread hholds hchange
      rw [hchange] at hx
      cases second with
      | none => exact writeSums_fit hfirst x hx
      | some second =>
        rcases List.mem_append.mp hx with hx | hx
        · exact writeSums_fit hfirst x hx
        · exact writeSums_fit (hsecond second rfl) x hx

end

/-! ### What stands on a sheet -/

section

variable {R : Type} {isAlphanumeric : Char → Bool} {s : Shift} {rows : Bool} {sheet : Sheet R} {m : Model R}

theorem rangeNameSums_fit {r : Range} (hends : HasNumber r.top ∧ HasNumber r.bottom) : ∀ x ∈ rangeNameSums r, x.Fits := by
  intro x hx
  rw [rangeNameSums] at hx
  split_ifs at hx
  · obtain rfl := List.mem_singleton.mp hx
    exact oneMore_fits hends.1
  · rcases List.mem_cons.mp hx with rfl | hx
    · exact oneMore_fits hends.1
    · obtain rfl := List.mem_singleton.mp hx
      exact oneMore_fits hends.2

/-- The lines of a sheet hold: those that go up still have numbers. -/
structure SheetHolds (s : Shift) (rows : Bool) (sheet : Sheet R) : Prop where
  cells : ∀ key ∈ sheet.cells, s.Holds 1 (axis key rows)
  merges : ∀ r ∈ sheet.merges, s.Holds 1 (r.span rows).1 ∧ s.Holds 1 (r.span rows).2
  sizes : ∀ l ∈ sheet.sizes rows, s.Holds 1 l
  looks : ∀ l ∈ sheet.lineLooks rows, s.Holds 1 l
  anchors : ∀ anchor ∈ sheet.anchors, ∀ word ∈ rangeWords anchor.ranges, ∀ r, parseRange word = some r →
    s.Holds (if rows then 1 else 0) (r.span rows).1 ∧ s.Holds (if rows then 1 else 0) (r.span rows).2

theorem Shift.Holds.zero {more : Nat} {l : UInt32} (h : s.Holds more l) : s.Holds 0 l := fun hcount hat => by
  have := h hcount hat
  omega

theorem shiftRangesSums_fit {ranges : String} (hs : s.OnGrid)
    (hholds : ∀ word ∈ rangeWords ranges, ∀ r, parseRange word = some r →
      s.Holds (if rows then 1 else 0) (r.span rows).1 ∧ s.Holds (if rows then 1 else 0) (r.span rows).2) :
    ∀ x ∈ shiftRangesSums ranges s rows, x.Fits := by
  intro x hx
  obtain ⟨word, hword, hx⟩ := List.mem_flatMap.mp hx
  cases hparse : parseRange word with
  | none =>
    rw [hparse] at hx
    exact absurd hx List.not_mem_nil
  | some r =>
    obtain ⟨hfirst, hlast⟩ := hholds word hword r hparse
    have hr := parseRange_numbered hparse
    rw [hparse] at hx
    rcases List.mem_append.mp hx with hx | hx
    · exact Shift.spanSums_fit hs hfirst.zero hlast.zero x hx
    · cases hmoved : movedRange s rows r with
      | none =>
        rw [hmoved] at hx
        exact absurd hx List.not_mem_nil
      | some r' =>
        rw [hmoved] at hx
        obtain ⟨⟨a, b⟩, hspan, rfl⟩ := Option.map_eq_some_iff.mp hmoved
        refine rangeNameSums_fit ?_ x hx
        cases rows with
        | true => exact Shift.span_hasNumber hs hfirst hlast (hr true).1 (hr true).2 hspan
        | false => exact hr true

theorem Sheet.moveLinesSums_fit (hs : s.OnGrid) (hholds : SheetHolds s rows sheet) : ∀ x ∈ sheet.moveLinesSums s rows, x.Fits := by
  intro x hx
  rw [Sheet.moveLinesSums] at hx
  simp only [List.mem_append, or_assoc] at hx
  rcases hx with hx | hx | hx | hx | hx
  · obtain ⟨key, hkey, hx⟩ := List.mem_flatMap.mp hx
    exact Shift.lineSums_fit hs (hholds.cells key (Std.ExtTreeMap.mem_keys.mp hkey)).zero x hx
  · obtain ⟨r, hr, hx⟩ := List.mem_flatMap.mp hx
    obtain ⟨hfirst, hlast⟩ := hholds.merges r hr
    rcases List.mem_append.mp hx with hx | hx
    · exact Shift.lineSums_fit hs hfirst.zero x hx
    · split_ifs at hx
      · exact Shift.lineSums_fit hs hlast.zero x hx
      · exact absurd hx List.not_mem_nil
  · obtain ⟨l, hl, hx⟩ := List.mem_flatMap.mp hx
    exact Shift.lineSums_fit hs (hholds.sizes l (Std.ExtTreeMap.mem_keys.mp hl)).zero x hx
  · obtain ⟨l, hl, hx⟩ := List.mem_flatMap.mp hx
    exact Shift.lineSums_fit hs (hholds.looks l (Std.ExtTreeMap.mem_keys.mp hl)).zero x hx
  · obtain ⟨anchor, hanchor, hx⟩ := List.mem_flatMap.mp hx
    exact shiftRangesSums_fit hs (hholds.anchors anchor hanchor) x hx

/-- The formulas of a workbook, and whether each of them stands on a sheet. -/
def Model.placed (m : Model R) (id : String) : List (Bool × String) :=
  m.names.map (fun defined => (false, defined.text)) ++
    m.sheets.flatMap fun sheet => (sheet.cells.toList.filterMap (·.2.formula)).map fun formula => (sheet.id == id, formula)

/-- A move of lines that keeps all numbers within their types: it is no move of the least number of lines, and what goes up
    still has numbers. -/
structure MoveHolds (isAlphanumeric : Char → Bool) (m : Model R) (id : String) (s : Shift) (rows : Bool) : Prop where
  count : s.count.toInt ≠ -2 ^ 31
  sheet : ∀ sheet, m.sheet id = some sheet → SheetHolds s rows sheet
  references : rows = true → ∀ sheet, m.sheet id = some sheet → ∀ p ∈ m.placed id,
    ∀ r ∈ readsFrom isAlphanumeric p.2.length p.2.toList, r.1.elim p.1 (String.ofList · == sheet.name) = true → ReferenceHolds s r

theorem moveLinesSums_fit {id : String} {at' : UInt32} {count : Int32} (haccepted : Shift.Accepted ⟨at', count⟩)
    (hholds : MoveHolds isAlphanumeric m id ⟨at', count⟩ rows) : ∀ x ∈ moveLinesSums isAlphanumeric m id at' count rows, x.Fits := by
  have hs : Shift.OnGrid ⟨at', count⟩ := ⟨haccepted, hholds.count⟩
  intro x hx
  rcases List.mem_cons.mp hx with rfl | hx
  · have hmost := hs.most
    have hsize : count.toInt.natAbs = Shift.size ⟨at', count⟩ := rfl
    exact ⟨by omega, by omega⟩
  · cases hknown : m.sheet id with
    | none =>
      rw [hknown] at hx
      exact absurd hx List.not_mem_nil
    | some known =>
      have hformula : ∀ {own : Bool} {formula : String}, (own, formula) ∈ m.placed id →
          ∀ x ∈ shiftFormulaSums isAlphanumeric formula own known.name ⟨at', count⟩ rows, x.Fits := by
        intro own formula hplaced x hx
        obtain ⟨r, hr, hx⟩ := List.mem_flatMap.mp hx
        exact referenceSums_fit hs (readsFrom_read hr)
          (fun hhere hrows => hholds.references hrows known hknown _ hplaced r hr hhere) x hx
      rw [hknown] at hx
      simp only [List.mem_append, or_assoc] at hx
      rcases hx with hx | hx | hx
      · obtain ⟨defined, hdefined, hx⟩ := List.mem_flatMap.mp hx
        exact hformula (List.mem_append_left _ (List.mem_map.mpr ⟨defined, hdefined, rfl⟩)) x hx
      · obtain ⟨sheet, hsheet, hx⟩ := List.mem_flatMap.mp hx
        obtain ⟨formula, hin, hx⟩ := List.mem_flatMap.mp hx
        refine hformula (List.mem_append_right _ ?_) x hx
        exact List.mem_flatMap.mpr ⟨sheet, hsheet, List.mem_map.mpr ⟨formula, hin, rfl⟩⟩
      · exact Sheet.moveLinesSums_fit hs (hholds.sheet known hknown) x hx

end

end Kodosi.Xlsx
