import Kodosi.Xlsx.Formula

/-! What becomes of a set of lines where lines are inserted or deleted, and that the two shifts of the code, of one line and
    of a range, agree with it. -/

namespace Kodosi.Xlsx

/-- The lines of a range. -/
def between (first last : UInt32) : Set UInt32 := {l | first ≤ l ∧ l ≤ last}

namespace Shift

variable {s : Shift} {l first last : UInt32}

/-- How many lines come or go. -/
def size (s : Shift) : Nat := s.count.toInt.natAbs

/-- A line that is inserted. -/
def IsNew (s : Shift) (l : UInt32) : Prop :=
  0 ≤ s.count ∧ s.at'.toNat ≤ l.toNat ∧ l.toNat < s.at'.toNat + s.size

/-- What some lines become: those that are still there, each at its new place, and those that are inserted between two of
    them. -/
def after (s : Shift) (lines : Set UInt32) : Set UInt32 :=
  {l | ∃ k ∈ lines, s.line k = some l} ∪ {l | s.IsNew l ∧ (∃ j ∈ lines, j < s.at') ∧ ∃ k ∈ lines, s.at' ≤ k}

/-- The deleted lines end at a number. -/
def Ends (s : Shift) : Prop := s.count < 0 → s.at'.toNat + s.size < 2 ^ 32

/-- A line has a number when the inserted ones are there. -/
def Reaches (s : Shift) (l : UInt32) : Prop := 0 ≤ s.count → s.at' ≤ l → l.toNat + s.size < 2 ^ 32

theorem Reaches.mono (h : s.Reaches last) (hl : l ≤ last) : s.Reaches l := by
  intro hcount hat
  have := h hcount (UInt32.le_trans hat hl)
  rw [UInt32.le_iff_toNat_le] at hl
  omega

theorem toNat_unsignedAbs (s : Shift) : (unsignedAbs s.count).toNat = s.size := by
  have hlt := s.count.toInt_lt
  have hle := s.count.le_toInt
  rw [unsignedAbs, size, UInt32.toNat_ofNat']
  omega

variable {k : UInt32}

/-- Where a line goes when lines are inserted. -/
theorem line_insert (hcount : 0 ≤ s.count) (hreach : s.Reaches l) :
    s.line l = some k ↔ k.toNat = if s.at'.toNat ≤ l.toNat then l.toNat + s.size else l.toNat := by
  rw [line, if_pos hcount, Option.some_inj, ← UInt32.toNat_inj]
  have hsize := s.toNat_unsignedAbs
  by_cases hat : s.at' ≤ l
  · have hlt := hreach hcount hat
    have hat' := UInt32.le_iff_toNat_le.mp hat
    rw [if_pos hat, if_pos hat', UInt32.toNat_add, hsize, Nat.mod_eq_of_lt hlt]
    exact eq_comm
  · have hat' : ¬s.at'.toNat ≤ l.toNat := fun h => hat (UInt32.le_iff_toNat_le.mpr h)
    rw [if_neg hat, if_neg hat']
    exact eq_comm

/-- Where a line goes when lines are deleted. -/
theorem line_delete (hcount : s.count < 0) (hends : s.Ends) :
    s.line l = some k ↔ (l.toNat < s.at'.toNat ∧ k.toNat = l.toNat) ∨
      (s.at'.toNat + s.size ≤ l.toNat ∧ k.toNat + s.size = l.toNat) := by
  have hlt := hends hcount
  have hsize := s.toNat_unsignedAbs
  have hstop : (s.at' + unsignedAbs s.count).toNat = s.at'.toNat + s.size := by
    rw [UInt32.toNat_add, hsize, Nat.mod_eq_of_lt hlt]
  rw [line, if_neg (Int32.not_le.mpr hcount)]
  dsimp only
  by_cases hat : l < s.at'
  · have hat' := UInt32.lt_iff_toNat_lt.mp hat
    rw [if_pos hat, Option.some_inj, ← UInt32.toNat_inj]
    omega
  have hat' : ¬l.toNat < s.at'.toNat := fun h => hat (UInt32.lt_iff_toNat_lt.mpr h)
  rw [if_neg hat]
  by_cases hgone : l < s.at' + unsignedAbs s.count
  · have hgone' := UInt32.lt_iff_toNat_lt.mp hgone
    rw [if_pos hgone]
    simp only [reduceCtorEq, false_iff]
    omega
  · have hgone' : s.at'.toNat + s.size ≤ l.toNat := by
      rw [← hstop]
      exact UInt32.le_iff_toNat_le.mp (UInt32.not_lt.mp hgone)
    have hle : unsignedAbs s.count ≤ l := by
      rw [UInt32.le_iff_toNat_le, hsize]
      omega
    rw [if_neg hgone, Option.some_inj, ← UInt32.toNat_inj, UInt32.toNat_sub_of_le _ _ hle, hsize]
    omega

/-- A line by its number. -/
theorem exists_line {n : Nat} (h : n < 2 ^ 32) : ∃ l : UInt32, l.toNat = n :=
  ⟨.ofNat n, by rw [UInt32.toNat_ofNat', Nat.mod_eq_of_lt h]⟩

theorem mem_between : k ∈ between first last ↔ first.toNat ≤ k.toNat ∧ k.toNat ≤ last.toNat := by
  simp [between, UInt32.le_iff_toNat_le]

/-- What lines become, by their numbers, when lines are inserted. -/
theorem mem_after_insert (hcount : 0 ≤ s.count) (hreach : s.Reaches last) :
    l ∈ s.after (between first last) ↔
      (∃ n, first.toNat ≤ n ∧ n ≤ last.toNat ∧ l.toNat = if s.at'.toNat ≤ n then n + s.size else n) ∨
      (s.at'.toNat ≤ l.toNat ∧ l.toNat < s.at'.toNat + s.size ∧ first.toNat < s.at'.toNat ∧ s.at'.toNat ≤ last.toNat) := by
  rw [after, Set.mem_union]
  refine or_congr ⟨?_, ?_⟩ ⟨?_, ?_⟩
  · rintro ⟨k, hk, hline⟩
    have hk' := mem_between.mp hk
    exact ⟨k.toNat, hk'.1, hk'.2, (line_insert hcount (hreach.mono hk.2)).mp hline⟩
  · rintro ⟨n, hfirst, hlast, hl⟩
    obtain ⟨k, rfl⟩ := exists_line (lt_of_le_of_lt hlast last.toNat_lt)
    have hk : k ∈ between first last := mem_between.mpr ⟨hfirst, hlast⟩
    exact ⟨k, hk, (line_insert hcount (hreach.mono hk.2)).mpr hl⟩
  · rintro ⟨⟨-, hnew, hlt⟩, ⟨j, hj, hbefore⟩, k, hk, hbehind⟩
    rw [mem_between] at hj hk
    rw [UInt32.lt_iff_toNat_lt] at hbefore
    rw [UInt32.le_iff_toNat_le] at hbehind
    omega
  · rintro ⟨hnew, hlt, hbefore, hbehind⟩
    refine ⟨⟨hcount, hnew, hlt⟩, ⟨first, mem_between.mpr ?_, UInt32.lt_iff_toNat_lt.mpr hbefore⟩, last,
      mem_between.mpr ?_, UInt32.le_iff_toNat_le.mpr hbehind⟩ <;> omega

/-- What lines become, by their numbers, when lines are deleted. -/
theorem mem_after_delete (hcount : s.count < 0) (hends : s.Ends) : l ∈ s.after (between first last) ↔
    (first.toNat ≤ l.toNat ∧ l.toNat ≤ last.toNat ∧ l.toNat < s.at'.toNat) ∨
    (first.toNat ≤ l.toNat + s.size ∧ l.toNat + s.size ≤ last.toNat ∧ s.at'.toNat ≤ l.toNat) := by
  have hold : l ∈ s.after (between first last) ↔ ∃ k ∈ between first last, s.line k = some l := by
    rw [after, Set.mem_union]
    exact or_iff_left fun hnew => Int32.not_le.mpr hcount hnew.1.1
  rw [hold]
  constructor
  · rintro ⟨k, hk, hline⟩
    rw [mem_between] at hk
    rw [line_delete hcount hends] at hline
    omega
  · rintro (⟨hfirst, hlast, hbefore⟩ | ⟨hfirst, hlast, hbehind⟩)
    · exact ⟨l, mem_between.mpr ⟨hfirst, hlast⟩, (line_delete hcount hends).mpr (.inl ⟨hbefore, rfl⟩)⟩
    · obtain ⟨k, hk⟩ := exists_line (lt_of_le_of_lt hlast last.toNat_lt)
      refine ⟨k, mem_between.mpr (by omega), (line_delete hcount hends).mpr (.inr (by omega))⟩

theorem span_insert (hcount : 0 ≤ s.count) (hfirst : s.Reaches first) (hlast : s.Reaches last) :
    ∃ a b, s.span first last = some (a, b) ∧ between a b = s.after (between first last) := by
  obtain ⟨a, ha⟩ : ∃ a, s.line first = some a := ⟨_, by rw [line, if_pos hcount]⟩
  obtain ⟨b, hb⟩ : ∃ b, s.line last = some b := ⟨_, by rw [line, if_pos hcount]⟩
  refine ⟨a, b, by rw [span, if_pos hcount, ha, hb]; rfl, ?_⟩
  rw [line_insert hcount hfirst] at ha
  rw [line_insert hcount hlast] at hb
  ext l
  rw [mem_after_insert hcount hlast, mem_between, ha, hb]
  constructor
  · rintro ⟨hle, hge⟩
    by_cases hbefore : l.toNat < s.at'.toNat
    · refine .inl ⟨l.toNat, ?_⟩
      split_ifs at hle hge ⊢ <;> omega
    by_cases hbehind : s.at'.toNat + s.size ≤ l.toNat
    · refine .inl ⟨l.toNat - s.size, ?_⟩
      split_ifs at hle hge ⊢ <;> omega
    · split_ifs at hle hge <;> omega
  · rintro (⟨n, hle, hge, hl⟩ | hnew)
    · split_ifs at hl ⊢ <;> omega
    · split_ifs <;> omega

theorem line_none (hcount : s.count < 0) (hends : s.Ends) :
    s.line l = none ↔ s.at'.toNat ≤ l.toNat ∧ l.toNat < s.at'.toNat + s.size := by
  cases hline : s.line l with
  | none =>
    refine iff_of_true rfl ?_
    by_contra hout
    by_cases hbefore : l.toNat < s.at'.toNat
    · rw [(line_delete hcount hends).mpr (.inl ⟨hbefore, rfl⟩)] at hline
      exact absurd hline nofun
    · have hlt := l.toNat_lt
      obtain ⟨k, hk⟩ := exists_line (show l.toNat - s.size < 2 ^ 32 by omega)
      rw [(line_delete hcount hends).mpr (.inr (show _ ∧ k.toNat + s.size = l.toNat by omega))] at hline
      exact absurd hline nofun
  | some k =>
    rw [line_delete hcount hends] at hline
    refine iff_of_false nofun ?_
    omega

theorem line_cases (hcount : s.count < 0) (hends : s.Ends) (l : UInt32) :
    (l.toNat < s.at'.toNat ∧ s.line l = some l) ∨
    (s.at'.toNat + s.size ≤ l.toNat ∧ ∃ k, s.line l = some k ∧ k.toNat + s.size = l.toNat) ∨
    (s.at'.toNat ≤ l.toNat ∧ l.toNat < s.at'.toNat + s.size ∧ s.line l = none) := by
  cases hline : s.line l with
  | none => exact .inr (.inr ⟨((line_none hcount hends).mp hline).1, ((line_none hcount hends).mp hline).2, rfl⟩)
  | some k =>
    rcases (line_delete hcount hends).mp hline with ⟨hbefore, hk⟩ | ⟨hbehind, hk⟩
    · exact .inl ⟨hbefore, by rw [UInt32.toNat_inj.mp hk]⟩
    · exact .inr (.inl ⟨hbehind, k, rfl, hk⟩)

theorem span_delete (hcount : s.count < 0) (hends : s.Ends) :
    ((s.span first last).elim ∅ fun span => between span.1 span.2) = s.after (between first last) := by
  have hstop : (s.at' + unsignedAbs s.count).toNat = s.at'.toNat + s.size := by
    rw [UInt32.toNat_add, toNat_unsignedAbs, Nat.mod_eq_of_lt (hends hcount)]
  have hnone : ∀ {x : Option (UInt32 × UInt32)}, x = none → (∀ l, l ∉ s.after (between first last)) →
      (x.elim ∅ fun span => between span.1 span.2) = s.after (between first last) := by
    rintro x rfl hall
    exact (Set.eq_empty_iff_forall_notMem.mpr hall).symm
  have hsome : ∀ {x : Option (UInt32 × UInt32)} {a b : UInt32}, x = some (a, b) →
      (∀ l : UInt32, (a.toNat ≤ l.toNat ∧ l.toNat ≤ b.toNat) ↔ l ∈ s.after (between first last)) →
      (x.elim ∅ fun span => between span.1 span.2) = s.after (between first last) := by
    rintro x a b rfl hall
    exact Set.ext fun l => mem_between.trans (hall l)
  have hspan : s.span first last =
      ((s.line first).or (if s.at' + unsignedAbs s.count ≤ last then some s.at' else none)).bind fun start =>
      ((s.line last).or (if first < s.at' then some (if s.at' = 0 then 0 else s.at' - 1) else none)).bind fun stop =>
        some (start, stop) := by
    rw [span, if_neg (Int32.not_le.mpr hcount)]
    rfl
  have hpast : s.at' + unsignedAbs s.count ≤ last ↔ s.at'.toNat + s.size ≤ last.toNat := by
    rw [UInt32.le_iff_toNat_le, hstop]
  have hbefore : first < s.at' ↔ first.toNat < s.at'.toNat := UInt32.lt_iff_toNat_lt
  have hlast : first.toNat < s.at'.toNat → (if s.at' = 0 then 0 else s.at' - 1 : UInt32).toNat + 1 = s.at'.toNat := by
    intro hlt
    have hne : s.at' ≠ 0 := by
      intro h
      rw [h] at hlt
      exact absurd hlt (Nat.not_lt_zero _)
    have hone : (1 : UInt32) ≤ s.at' := by
      rw [UInt32.le_iff_toNat_le]
      show 1 ≤ s.at'.toNat
      omega
    rw [if_neg hne, UInt32.toNat_sub_of_le _ _ hone]
    show s.at'.toNat - 1 + 1 = _
    omega
  rcases line_cases hcount hends first with ⟨hf, hline⟩ | ⟨hf, k, hline, hk⟩ | ⟨hf, hf', hline⟩ <;>
    rcases line_cases hcount hends last with ⟨hl, hline'⟩ | ⟨hl, k', hline', hk'⟩ | ⟨hl, hl', hline'⟩ <;>
    simp only [hline, hline', Option.some_or, Option.none_or, Option.bind_some] at hspan
  · refine hsome hspan fun l => ?_
    rw [mem_after_delete hcount hends]
    omega
  · refine hsome hspan fun l => ?_
    rw [mem_after_delete hcount hends]
    omega
  · rw [if_pos (hbefore.mpr hf)] at hspan
    have := hlast hf
    refine hsome hspan fun l => ?_
    rw [mem_after_delete hcount hends]
    omega
  · refine hsome hspan fun l => ?_
    rw [mem_after_delete hcount hends]
    omega
  · refine hsome hspan fun l => ?_
    rw [mem_after_delete hcount hends]
    omega
  · rw [if_neg (by rw [hbefore]; omega)] at hspan
    refine hnone hspan fun l => ?_
    rw [mem_after_delete hcount hends]
    omega
  · rw [if_neg (by rw [hpast]; omega)] at hspan
    refine hnone hspan fun l => ?_
    rw [mem_after_delete hcount hends]
    omega
  · rw [if_pos (hpast.mpr hl)] at hspan
    refine hsome hspan fun l => ?_
    rw [mem_after_delete hcount hends]
    omega
  · rw [if_neg (by rw [hpast]; omega)] at hspan
    refine hnone hspan fun l => ?_
    rw [mem_after_delete hcount hends]
    omega

/-- A range that stays goes from its first line to its last. -/
theorem span_ordered {a b : UInt32} (hends : s.Ends) (hfirst : s.Reaches first) (hlast : s.Reaches last)
    (h : s.span first last = some (a, b)) (hle : first ≤ last) : a ≤ b := by
  rw [UInt32.le_iff_toNat_le] at hle ⊢
  by_cases hcount : 0 ≤ s.count
  · obtain ⟨a', ha⟩ : ∃ a', s.line first = some a' := ⟨_, by rw [line, if_pos hcount]⟩
    obtain ⟨b', hb⟩ : ∃ b', s.line last = some b' := ⟨_, by rw [line, if_pos hcount]⟩
    rw [span, if_pos hcount, ha, hb] at h
    obtain ⟨rfl, rfl⟩ := Prod.mk.inj (Option.some.inj h)
    rw [line_insert hcount hfirst] at ha
    rw [line_insert hcount hlast] at hb
    split_ifs at ha hb <;> omega
  · have hcount := Int32.not_le.mp hcount
    -- the first and the last line that are left are lines of the range
    by_contra hlt
    have hempty : s.after (between first last) = ∅ := by
      rw [← span_delete hcount hends, h]
      exact Set.eq_empty_iff_forall_notMem.mpr fun l hl => by
        have := mem_between.mp hl
        dsimp only at this
        omega
    have hout : ∀ l : UInt32, ¬((first.toNat ≤ l.toNat ∧ l.toNat ≤ last.toNat ∧ l.toNat < s.at'.toNat) ∨
        (first.toNat ≤ l.toNat + s.size ∧ l.toNat + s.size ≤ last.toNat ∧ s.at'.toNat ≤ l.toNat)) := fun l hl => by
      have hmem := (mem_after_delete hcount hends).mpr hl
      rw [hempty] at hmem
      exact hmem
    have hgone : s.line first = none ∧ s.line last = none ∧ ¬s.at'.toNat + s.size ≤ last.toNat := by
      have h1 := hout first
      rcases line_cases hcount hends last with ⟨hl, -⟩ | ⟨hl, k, -, hk⟩ | ⟨hl, hl', hnone⟩
      · omega
      · have h2 := hout k
        omega
      · refine ⟨(line_none hcount hends).mpr (by omega), hnone, by omega⟩
    have hstop : (s.at' + unsignedAbs s.count).toNat = s.at'.toNat + s.size := by
      rw [UInt32.toNat_add, toNat_unsignedAbs, Nat.mod_eq_of_lt (hends hcount)]
    have hnot : ¬s.at' + unsignedAbs s.count ≤ last := by
      rw [UInt32.le_iff_toNat_le, hstop]
      exact hgone.2.2
    rw [span, if_neg (Int32.not_le.mpr hcount)] at h
    simp [hgone.1, hnot] at h

/-- The lines of a range are those of the range that it becomes, or none is left. -/
theorem span_covers (hends : s.Ends) (hfirst : s.Reaches first) (hlast : s.Reaches last) :
    ((s.span first last).elim ∅ fun span => between span.1 span.2) = s.after (between first last) := by
  by_cases hcount : 0 ≤ s.count
  · obtain ⟨a, b, hspan, hcovers⟩ := span_insert hcount hfirst hlast
    rw [hspan]
    exact hcovers
  · exact span_delete (Int32.not_le.mp hcount) hends

theorem span_of_lines {a b : UInt32} (ha : s.line first = some a) (hb : s.line last = some b) :
    s.span first last = some (a, b) := by
  rw [span, ha, hb]
  split_ifs <;> rfl

/-- A line is where it goes, or it is gone. -/
theorem line_covers (hends : s.Ends) (hreach : s.Reaches l) :
    ((s.line l).elim ∅ fun k => between k k) = s.after (between l l) := by
  cases hline : s.line l with
  | some k => rw [← span_covers hends hreach hreach, span_of_lines hline hline]; rfl
  | none =>
    have hcount : s.count < 0 := by
      refine Int32.not_le.mp fun hcount => ?_
      rw [line, if_pos hcount] at hline
      exact absurd hline nofun
    have hgone := (line_none hcount hends).mp hline
    refine (Set.eq_empty_iff_forall_notMem.mpr fun k hk => ?_).symm
    rw [mem_after_delete hcount hends] at hk
    omega

/-! ### Lines by their numbers -/

/-- Where a line goes, by its number, however large that gets. -/
def goes (s : Shift) (n : Nat) : Option Nat :=
  if 0 ≤ s.count then some (if s.at'.toNat ≤ n then n + s.size else n)
  else if n < s.at'.toNat then some n
  else if n < s.at'.toNat + s.size then none
  else some (n - s.size)

theorem goes_inj {n n' k : Nat} (h : s.goes n = some k) (h' : s.goes n' = some k) : n = n' := by
  unfold goes at h h'
  split_ifs at h h' <;> simp only [Option.some_inj] at h h' <;> omega

/-- A line has a number after the move, and so have the deleted ones when it is not before them. -/
structure Room (s : Shift) (l : UInt32) : Prop where
  inserted : s.Reaches l
  deleted : s.count < 0 → s.at'.toNat + s.size < 2 ^ 32 ∨ l < s.at'

theorem line_before (hcount : s.count < 0) (hl : l < s.at') : s.line l = some l := by
  rw [line, if_neg (Int32.not_le.mpr hcount)]
  exact if_pos hl

/-- A line that has room goes where its number goes. -/
theorem line_goes (h : s.Room l) : (s.line l).map UInt32.toNat = s.goes l.toNat := by
  by_cases hcount : 0 ≤ s.count
  · obtain ⟨k, hk⟩ : ∃ k, s.line l = some k := ⟨_, by rw [line, if_pos hcount]⟩
    rw [hk, goes, if_pos hcount, Option.map_some, (line_insert hcount h.inserted).mp hk]
  have hcount := Int32.not_le.mp hcount
  rw [goes, if_neg (Int32.not_le.mpr hcount)]
  rcases h.deleted hcount with hlt | hbefore
  · rcases line_cases hcount (fun _ => hlt) l with ⟨hl, hline⟩ | ⟨hl, k, hline, hk⟩ | ⟨hl, hl', hline⟩
    · rw [hline, if_pos hl]
      rfl
    · rw [hline, if_neg (by omega), if_neg (by omega), Option.map_some, ← hk, Nat.add_sub_cancel]
    · rw [hline, if_neg (by omega), if_pos hl']
      rfl
  · rw [line_before hcount hbefore, if_pos (UInt32.lt_iff_toNat_lt.mp hbefore)]
    rfl

theorem line_eq_some (h : s.Room l) : s.line l = some k ↔ s.goes l.toNat = some k.toNat := by
  rw [← line_goes h]
  cases s.line l with
  | none => simp
  | some k' => simp [UInt32.toNat_inj]

/-- Lines before all that are deleted stay. -/
theorem after_before (hcount : s.count < 0) (hlast : last < s.at') : s.after (between first last) = between first last := by
  ext l
  rw [after, Set.mem_union]
  constructor
  · rintro (⟨k, hk, hline⟩ | ⟨hnew, -⟩)
    · rw [line_before hcount (UInt32.lt_of_le_of_lt hk.2 hlast), Option.some_inj] at hline
      exact hline ▸ hk
    · exact absurd hnew.1 (Int32.not_le.mpr hcount)
  · exact fun hl => .inl ⟨l, hl, line_before hcount (UInt32.lt_of_le_of_lt hl.2 hlast)⟩

/-- The code's shift of a range gives the lines that its lines become. -/
theorem span_room (hfirst : s.Room first) (hlast : s.Room last) :
    ((s.span first last).elim ∅ fun span => between span.1 span.2) = s.after (between first last) := by
  by_cases hends : s.Ends
  · exact span_covers hends hfirst.inserted hlast.inserted
  obtain ⟨hcount, hlt⟩ : s.count < 0 ∧ ¬s.at'.toNat + s.size < 2 ^ 32 := by
    rw [Ends] at hends
    exact Classical.not_imp.mp hends
  have hfirst := (hfirst.deleted hcount).resolve_left hlt
  have hlast := (hlast.deleted hcount).resolve_left hlt
  rw [span_of_lines (line_before hcount hfirst) (line_before hcount hlast), after_before hcount hlast]
  rfl

end Shift

end Kodosi.Xlsx
