import Kodosi.Xlsx.Meaning

/-! Exactly which pending changes keep their meaning when the view moves them. -/

namespace Kodosi.Xlsx.View
open Kodosi.Lib

variable {R : Type} {r actual : LineMove} {number : Nat} {B B' : Board} {sheet : String} {kind : Line}

/-! ### Where lines go -/

variable {l a : Nat} {n : Int}

theorem moveLine_some {k : Nat} :
    moveLine l a n = some k ↔ (l < a ∧ k = l) ∨ (a ≤ l ∧ (a : Int) - n ≤ l ∧ (k : Int) = l + n) := by
  rw [moveLine]
  split_ifs <;> simp only [Option.some_inj, false_iff] <;> omega

theorem moveLine_none : moveLine l a n = none ↔ a ≤ l ∧ (l : Int) < a - n := by
  rw [moveLine]
  split_ifs <;> simp only [false_iff, true_iff] <;> omega

theorem moveLine_zero (l a : Nat) : moveLine l a 0 = some l := by
  rw [moveLine_some]
  omega

theorem LineMove.goes_on (r : LineMove) (l : Nat) : r.goes r.sheet r.kind l = moveLine l r.at' r.count := by
  rw [goes, if_pos ⟨rfl, rfl⟩]

theorem LineMove.goes_off (h : ¬(sheet = r.sheet ∧ kind = r.kind)) (l : Nat) : r.goes sheet kind l = some l := by
  rw [goes, if_neg h]

theorem LineMove.goes_rises (r : LineMove) (sheet : String) (kind : Line) : Rises (r.goes sheet kind) := by
  intro l l' k k' hlt hk hk'
  by_cases hon : sheet = r.sheet ∧ kind = r.kind
  · rw [goes, if_pos hon, moveLine_some] at hk hk'
    omega
  · rw [goes_off hon, Option.some_inj] at hk hk'
    omega

variable {x y : Nat}

theorem gap_moveLine : Gap (moveLine · a n) x y ↔
    (∀ l, l < a → (x ≤ l ↔ y ≤ l)) ∧ ∀ l : Nat, a ≤ l → (a : Int) - n ≤ l → (x ≤ l ↔ (y : Int) ≤ l + n) := by
  constructor
  · intro h
    refine ⟨fun l hl => h (moveLine_some.mpr (.inl ⟨hl, rfl⟩)), fun l hl hstay => ?_⟩
    have hk : ((l + n).toNat : Int) = l + n := by omega
    rw [h (moveLine_some.mpr (.inr ⟨hl, hstay, hk⟩))]
    omega
  · intro h l k hk
    rcases moveLine_some.mp hk with ⟨hl, rfl⟩ | ⟨hl, hstay, hk⟩
    · exact h.1 k hl
    · rw [h.2 l hl hstay]
      omega

/-! ### The boards with and without the document's lines -/

/-- The document's lines are the ones ordered, less those of them that the change has deleted as well. -/
def LineMove.Carried (r actual : LineMove) : Prop :=
  actual.count = 0 ∨ (0 < r.count ∧ actual.count = r.count) ∨ (r.count ≤ actual.count ∧ actual.count < 0)

/-- The first board is without the document's lines and the second one with them. -/
structure Aligned (r actual : LineMove) (number : Nat) (B B' : Board) : Prop where
  sheet : actual.sheet = r.sheet
  kind : actual.kind = r.kind
  carried : r.Carried actual
  follows : ∀ sheet kind, Follows (actual.goes sheet kind) (r.lives sheet kind) (· = .remote) (B sheet kind) (B' sheet kind)
  fresh : ∀ {sheet kind l part n}, B sheet kind l = .own part n → part < number

theorem Board.update_on (B : Board) (sheet : String) (kind : Line) (lines : Nat → Origin) :
    B.update sheet kind lines sheet kind = lines := if_pos ⟨rfl, rfl⟩

theorem Board.update_off {sheet' : String} {kind' : Line} (h : ¬(sheet' = sheet ∧ kind' = kind)) (lines : Nat → Origin) :
    B.update sheet kind lines sheet' kind' = B sheet' kind' := if_neg h

theorem lives_remote {o : Origin} (h : o = .remote) : r.lives sheet kind o = false := by
  rw [h]
  rfl

theorem start_follows (r : LineMove) (sheet : String) (kind : Line) :
    Follows (r.goes sheet kind) (r.lives sheet kind) (· = .remote) (start sheet kind) (r.board sheet kind) := by
  have hlives : ∀ l, r.lives sheet kind (start sheet kind l) = (r.goes sheet kind l).isSome := fun _ => rfl
  have honce : ∀ {l l'}, start sheet kind l = start sheet kind l' → l = l' := Origin.old.inj
  by_cases hon : sheet = r.sheet ∧ kind = r.kind
  · obtain ⟨rfl, rfl⟩ := hon
    have hboard : r.board r.sheet r.kind = if 0 < r.count then putIn Origin.old r.at' r.count.toNat fun _ => .remote
        else takeOut Origin.old r.at' (-r.count).toNat := Board.update_on ..
    refine ⟨?_, ?_, ?_, lives_remote, fun _ => honce⟩
    · intro l k hk
      refine ⟨?_, by rw [hlives, hk]; rfl⟩
      rw [r.goes_on, moveLine_some] at hk
      rw [hboard]
      show _ = Origin.old l
      by_cases hcount : 0 < r.count
      · rw [if_pos hcount, putIn]
        split_ifs <;> first | exact congrArg Origin.old (by omega) | omega
      · rw [if_neg hcount, takeOut]
        split_ifs <;> exact congrArg Origin.old (by omega)
    · intro l hl
      rw [hlives, hl]
      rfl
    · intro k hk
      have hout : ∀ l : Nat, ¬((l < r.at' ∧ k = l) ∨ (r.at' ≤ l ∧ (r.at' : Int) - r.count ≤ l ∧ (k : Int) = l + r.count)) :=
        fun l hl => hk l (by rw [r.goes_on]; exact moveLine_some.mpr hl)
      have hbefore := hout k
      have hbehind := hout (k - r.count).toNat
      rw [hboard, if_pos (by omega), putIn, if_neg (by omega), if_pos (by omega)]
  · have hboard : r.board sheet kind = start sheet kind := Board.update_off hon _
    rw [hboard]
    refine Follows.same (LineMove.goes_off hon) (fun l => ?_) lives_remote honce
    rw [hlives, LineMove.goes_off hon]
    rfl

theorem start_aligned (r : LineMove) : Aligned r r 0 start r.board where
  sheet := rfl
  kind := rfl
  carried := by
    rw [LineMove.Carried]
    omega
  follows := start_follows r
  fresh := nofun

/-! ### What one part affects -/

variable {E : Origin → Effect R}

/-- What is left of effects on some lines are the effects on those of them that live. -/
theorem filterMap_rest (hE : ∀ o, (E o).rest r = if r.lives sheet kind o = true then some (E o) else none)
    (os : List Origin) :
    (os.map E).filterMap (·.rest r) = (os.filter (r.lives sheet kind)).map E := by
  induction os with
  | nil => rfl
  | cons o os ih =>
    rw [List.map_cons, List.filterMap_cons, hE, ih]
    by_cases hl : r.lives sheet kind o = true
    · rw [if_pos hl, List.filter_cons_of_pos hl, List.map_cons]
    · rw [if_neg hl, List.filter_cons_of_neg hl]

/-- An effect on one line is kept where the line goes to the line it is on. -/
theorem one_kept (h : Aligned r actual number B B') (hinj : ∀ {o o'}, E o = E o' → o = o')
    (hE : ∀ o, (E o).rest r = if r.lives sheet kind o = true then some (E o) else none) (o : Option Nat) (x : Nat) :
    (o.toList.map fun y => E (B' sheet kind y)) = [E (B sheet kind x)].filterMap (·.rest r) ↔
      o = actual.goes sheet kind x := by
  rw [← (h.follows sheet kind).kept_one o, ← List.map_singleton, filterMap_rest hE,
    ← (List.map_injective_iff.mpr fun _ _ => hinj).eq_iff, List.map_map]
  rfl

theorem movedParts_cell (r : LineMove) (sheet : String) (c : CellChange R) :
    movedParts r (Part.cell sheet c).change =
      ((r.goes sheet .rows c.row).bind fun row => (r.goes sheet .columns c.column).map fun column =>
        Part.cell sheet { c with row := row, column := column }).toList := by
  rw [movedParts_change, movePart]
  by_cases hs : sheet = r.sheet
  · rw [if_pos hs]
    cases hk : r.kind with
    | rows =>
      cases hm : moveLine c.row r.at' r.count <;> simp [LineMove.goes, hs, hk, hm, CellChange.line, CellChange.setLine]
    | columns =>
      cases hm : moveLine c.column r.at' r.count <;> simp [LineMove.goes, hs, hk, hm, CellChange.line, CellChange.setLine]
  · simp [LineMove.goes, hs]

theorem cell_kept (h : Aligned r actual number B B') (sheet : String) (c : CellChange R) :
    (movedParts r (Part.cell sheet c).change).flatMap (·.effects B') =
      ((Part.cell sheet c).effects B).filterMap (·.rest r) ↔ (Part.cell sheet c).Fits r actual := by
  have hrows := h.follows sheet .rows
  have hcolumns := h.follows sheet .columns
  have hfits : (Part.cell sheet c).Fits r actual ↔ r.goes sheet .rows c.row = actual.goes sheet .rows c.row ∧
      r.goes sheet .columns c.column = actual.goes sheet .columns c.column :=
    ⟨fun hfit => ⟨hfit .rows, hfit .columns⟩, fun hfit kind => by cases kind; exacts [hfit.1, hfit.2]⟩
  rw [movedParts_cell, hfits, Part.effects]
  -- one of the two places is on the axis that the document's lines leave alone
  by_cases hon : r.kind = .rows
  · have hoff : ∀ {m : LineMove}, m.kind = r.kind → m.goes sheet .columns c.column = some c.column := fun hm =>
      LineMove.goes_off (fun hand => by rw [hm, hon] at hand; exact nomatch hand.2) _
    obtain ⟨hgoes, hl⟩ := hcolumns.goes (hoff h.kind)
    rw [hoff rfl, hoff h.kind, and_iff_left rfl,
      ← one_kept h (fun heq => (Effect.writes.inj heq).2.1)
        (E := fun o => .writes sheet o (B sheet .columns c.column) c.toContent)
        (fun o => by simp [Effect.rest, hl]) (r.goes sheet .rows c.row) c.row]
    cases r.goes sheet .rows c.row with
    | none => rfl
    | some row => rw [← hgoes]; rfl
  · have hon : r.kind = .columns := by cases hk : r.kind; exacts [absurd hk hon, rfl]
    have hoff : ∀ {m : LineMove}, m.kind = r.kind → m.goes sheet .rows c.row = some c.row := fun hm =>
      LineMove.goes_off (fun hand => by rw [hm, hon] at hand; exact nomatch hand.2) _
    obtain ⟨hgoes, hl⟩ := hrows.goes (hoff h.kind)
    rw [hoff rfl, hoff h.kind, and_iff_right rfl,
      ← one_kept h (fun heq => (Effect.writes.inj heq).2.2.1)
        (E := fun o => .writes sheet (B sheet .rows c.row) o c.toContent)
        (fun o => by simp [Effect.rest, hl]) (r.goes sheet .columns c.column) c.column]
    cases r.goes sheet .columns c.column with
    | none => rfl
    | some column => rw [← hgoes]; rfl

theorem movedParts_on (r : LineMove) (x : Nat) (count : Int) :
    movedParts r (Part.lines r.kind r.sheet x count : Part R).change =
      ((moveLine x r.at' r.count).map (Part.lines r.kind r.sheet · count)).toList := by
  rw [movedParts_change, movePart, if_pos ⟨rfl, rfl⟩]

theorem movedParts_off (h : ¬(sheet = r.sheet ∧ kind = r.kind)) (x : Nat) (count : Int) :
    movedParts r (Part.lines kind sheet x count : Part R).change = [.lines kind sheet x count] := by
  rw [movedParts_change, movePart, if_neg h]
  rfl

/-- Where new lines keep their neighbours. -/
theorem gap_iff (hcarried : r.Carried actual) (hy : moveLine x r.at' r.count = some y) :
    Gap (moveLine · actual.at' actual.count) x y ↔
      moveLine x actual.at' actual.count = some y ∨ (x = actual.at' ∧ y = x) := by
  rw [gap_moveLine, moveLine_some]
  rw [moveLine_some] at hy
  rw [LineMove.Carried] at hcarried
  constructor
  · rintro ⟨hbefore, hbehind⟩
    have hend := hbefore (actual.at' - 1)
    by_cases hx : x < actual.at'
    · have hsame := (hbefore x hx).mp le_rfl
      have hback := hbefore (x - 1) (by omega)
      omega
    · have hback := hbehind (x - 1)
      by_cases hstay : (actual.at' : Int) - actual.count ≤ x
      · have hsame := (hbehind x (by omega) hstay).mp le_rfl
        omega
      · obtain ⟨first, hfirst⟩ : ∃ first : Nat, (first : Int) = actual.at' - actual.count := ⟨_, Int.toNat_of_nonneg (by omega)⟩
        have hstart := hbehind first (by omega) (by omega)
        omega
  · intro h
    refine ⟨fun l hl => ?_, fun l hl hstay => ?_⟩ <;> omega

variable {m : Nat}

/-- Where deleted lines are gone already. -/
theorem gone_iff (hm : 0 < m) : (∀ i < m, moveLine (x + i) a n = none) ↔ n < 0 ∧ a ≤ x ∧ (x + m : Int) ≤ a - n := by
  simp only [moveLine_none]
  constructor
  · intro h
    have hfirst := h 0 hm
    have hlast := h (m - 1) (by omega)
    omega
  · intro h i hi
    omega

/-- Where none of the lines is gone and the document's lines are not among them. -/
theorem apart_iff (hm : 0 < m) : (∀ i < m, moveLine (x + i) actual.at' actual.count = some (y + i)) ↔
    moveLine x actual.at' actual.count = some y ∧
      (actual.count = 0 ∨ (x + m : Int) ≤ actual.at' ∨ actual.stop ≤ x) := by
  simp only [moveLine_some, LineMove.stop]
  constructor
  · intro h
    have hfirst := h 0 hm
    have hlast := h (m - 1) (by omega)
    split_ifs <;> omega
  · intro h i hi
    split_ifs at h <;> omega

theorem rest_deletes (o : Origin) : (Effect.deletes sheet kind o : Effect R).rest r =
    if r.lives sheet kind o = true then some (.deletes sheet kind o) else none := rfl

theorem deletes_inj : Function.Injective (List.map (Effect.deletes sheet kind : Origin → Effect R)) :=
  List.map_injective_iff.mpr fun _ _ heq => (Effect.deletes.inj heq).2.2

theorem lines_kept (h : Aligned r actual number B B') (kind : Line) (sheet : String) (x : Nat) (count : Int) :
    (movedParts r (Part.lines kind sheet x count : Part R).change).flatMap (·.effects B') =
      ((Part.lines kind sheet x count : Part R).effects B).filterMap (·.rest r) ↔
      (Part.lines kind sheet x count : Part R).Fits r actual := by
  have hfollows := h.follows sheet kind
  by_cases hcount : 0 < count
  · -- the new lines are in front of the same lines
    have heffects : ∀ (B : Board) (x : Nat), (Part.lines kind sheet x count : Part R).effects B =
        [.inserts sheet kind count.toNat {o | ¬o = .remote ∧ ∃ l, x ≤ l ∧ B sheet kind l = o}] := fun B x => if_pos hcount
    have hbehind : ∀ y, ([.inserts sheet kind count.toNat {o | ¬o = .remote ∧ ∃ l, y ≤ l ∧ B' sheet kind l = o}] :
        List (Effect R)) = ((Part.lines kind sheet x count : Part R).effects B).filterMap (·.rest r) ↔
          Gap (actual.goes sheet kind) x y := by
      intro y
      rw [heffects, ← hfollows.behind_iff]
      exact ⟨fun heq => (Effect.inserts.inj (List.singleton_inj.mp heq)).2.2.2, fun heq => by rw [heq]; rfl⟩
    by_cases hon : sheet = r.sheet ∧ kind = r.kind
    · obtain ⟨rfl, rfl⟩ := hon
      have hgoes : actual.goes r.sheet r.kind = (moveLine · actual.at' actual.count) := by
        rw [← h.sheet, ← h.kind]
        exact funext actual.goes_on
      rw [hgoes] at hbehind
      simp only [Part.Fits, true_implies, if_pos hcount, movedParts_on]
      cases hy : moveLine x r.at' r.count with
      | none => simp [heffects, Effect.rest]
      | some y =>
        rw [Option.map_some, Option.toList_some, List.flatMap_singleton, heffects, hbehind, gap_iff h.carried hy]
        simp
    · have hoff : actual.goes sheet kind = some := funext (LineMove.goes_off (by rw [h.sheet, h.kind]; exact hon))
      rw [movedParts_off hon, List.flatMap_singleton, heffects, hbehind, hoff]
      refine iff_of_true (fun hk => ?_) fun hs hk => absurd ⟨hs, hk⟩ hon
      rw [Option.some_inj.mp hk]
  · -- the same lines go
    have heffects : ∀ (B : Board) (x : Nat), (Part.lines kind sheet x count : Part R).effects B =
        ((List.range (-count).toNat).map fun i => B sheet kind (x + i)).map (.deletes sheet kind) := fun B x => if_neg hcount
    rw [heffects, filterMap_rest rest_deletes]
    by_cases hon : sheet = r.sheet ∧ kind = r.kind
    · obtain ⟨rfl, rfl⟩ := hon
      have hgoes : ∀ l, actual.goes r.sheet r.kind l = moveLine l actual.at' actual.count := by
        rw [← h.sheet, ← h.kind]
        exact actual.goes_on
      simp only [Part.Fits, true_implies, if_neg hcount, movedParts_on]
      by_cases hzero : count = 0
      · rw [hzero]
        cases moveLine x r.at' r.count <;> simp [Part.effects]
      have hm : 0 < (-count).toNat := by omega
      have hcast : (x + (-count).toNat : Int) = x - count := by omega
      cases hy : moveLine x r.at' r.count with
      | none =>
        have hgone := hfollows.kept_none (x + ·) (List.range (-count).toNat)
        simp only [List.mem_range, hgoes, gone_iff hm, hcast] at hgone
        rw [or_iff_right hzero]
        refine Iff.trans ?_ hgone
        rw [← deletes_inj.eq_iff]
        rfl
      | some y =>
        have hall := hfollows.kept_all (x + ·) (y + ·) (List.range (-count).toNat)
        simp only [List.mem_range, hgoes, apart_iff hm, hcast] at hall
        rw [or_iff_right hzero]
        refine Iff.trans ?_ hall
        rw [Option.map_some, Option.toList_some, List.flatMap_singleton, heffects, deletes_inj.eq_iff]
    · have hall := hfollows.kept_all (x + ·) (x + ·) (List.range (-count).toNat)
      rw [movedParts_off hon, List.flatMap_singleton, heffects, deletes_inj.eq_iff, hall]
      exact iff_of_true (fun i _ => LineMove.goes_off (by rw [h.sheet, h.kind]; exact hon) _)
        fun hs hk => absurd ⟨hs, hk⟩ hon

theorem stays_iff : some l = moveLine l a n ↔ n = 0 ∨ l < a := by
  rw [eq_comm, moveLine_some]
  omega

theorem size_kept (h : Aligned r actual number B B') (kind : Line) (sheet : String) (line : Nat) (s : R) :
    (movedParts r (Part.size kind sheet line s).change).flatMap (·.effects B') =
      ((Part.size kind sheet line s).effects B).filterMap (·.rest r) ↔ (Part.size kind sheet line s).Fits r actual := by
  have hone := one_kept h (fun heq => (Effect.sizes.inj heq).2.2.1) (E := fun o => .sizes sheet kind o s)
    (fun _ => rfl) (some line) line
  rw [movedParts_change]
  refine hone.trans ?_
  rw [Part.Fits]
  by_cases hon : sheet = r.sheet ∧ kind = r.kind
  · obtain ⟨rfl, rfl⟩ := hon
    have hgoes : actual.goes r.sheet r.kind line = moveLine line actual.at' actual.count := by
      rw [← h.sheet, ← h.kind]
      exact actual.goes_on line
    rw [hgoes, stays_iff]
    simp
  · rw [LineMove.goes_off (by rw [h.sheet, h.kind]; exact hon)]
    exact iff_of_true rfl fun hs hk => absurd ⟨hs, hk⟩ hon

theorem merge_kept (h : Aligned r actual number B B') (added : Bool) (sheet : String) (m : Merge) :
    (movedParts r (Part.merge added sheet m : Part R).change).flatMap (·.effects B') =
      ((Part.merge added sheet m : Part R).effects B).filterMap (·.rest r) ↔
      (Part.merge added sheet m : Part R).Fits r actual := by
  rw [movedParts_change, Part.Fits]
  show ((Part.merge added sheet m : Part R).effects B' ++ [] = _) ↔ _
  rw [List.append_nil, Part.effects, Part.effects]
  by_cases hrows : m.lines .rows = []
  · refine iff_of_true ?_ fun _ h => absurd hrows h
    simp [mergeEffect, hrows]
  by_cases hcolumns : m.lines .columns = []
  · refine iff_of_true ?_ fun _ _ h => absurd hcolumns h
    simp [mergeEffect, hcolumns]
  have hall : ∀ kind, (m.lines kind).map (B' sheet kind) = ((m.lines kind).map (B sheet kind)).filter (r.lives sheet kind) ↔
      ∀ line ∈ m.lines kind, actual.goes sheet kind line = some line :=
    fun kind => (h.follows sheet kind).kept_all id id (m.lines kind)
  have hmerges : ∀ B : Board, (mergeEffect added sheet ((m.lines .rows).map (B sheet .rows))
      ((m.lines .columns).map (B sheet .columns)) : Option (Effect R)) =
        some (.merges added sheet ((m.lines .rows).map (B sheet .rows)) ((m.lines .columns).map (B sheet .columns))) :=
    fun B => if_neg (by simp [hrows, hcolumns])
  have hrest : (some (Effect.merges added sheet ((m.lines .rows).map (B' sheet .rows))
      ((m.lines .columns).map (B' sheet .columns)) : Effect R)).toList =
        (some (Effect.merges added sheet ((m.lines .rows).map (B sheet .rows))
          ((m.lines .columns).map (B sheet .columns)) : Effect R)).toList.filterMap (·.rest r) ↔
      ∀ kind, (m.lines kind).map (B' sheet kind) = ((m.lines kind).map (B sheet kind)).filter (r.lives sheet kind) := by
    rw [Option.toList_some, Option.toList_some, List.filterMap_cons, List.filterMap_nil, Effect.rest]
    constructor
    · intro heq
      -- the merge that is left is of some cells, so it is the one with exactly these lines
      rw [mergeEffect] at heq
      split_ifs at heq
      have hinj := Effect.merges.inj (List.singleton_inj.mp heq)
      intro kind
      cases kind
      exacts [hinj.2.2.1, hinj.2.2.2]
    · intro heq
      rw [← heq, ← heq, hmerges]
  rw [hmerges, hmerges, hrest]
  simp only [hall]
  by_cases hs : sheet = r.sheet
  · have hgoes : ∀ line, actual.goes sheet r.kind line = some line ↔ actual.count = 0 ∨ line < actual.at' := fun line => by
      rw [hs, ← h.sheet, ← h.kind, actual.goes_on, eq_comm, stays_iff]
    have hoff : ∀ kind line, kind ≠ r.kind → actual.goes sheet kind line = some line := fun kind line hne =>
      LineMove.goes_off (fun hand => hne (hand.2.trans h.kind)) line
    constructor
    · intro hkept _ _ _
      by_cases hzero : actual.count = 0
      · exact .inl hzero
      · exact .inr fun line hline => ((hgoes line).mp (hkept r.kind line hline)).resolve_left hzero
    · intro hfits kind line hline
      by_cases hkind : kind = r.kind
      · subst hkind
        exact (hgoes line).mpr ((hfits hs hrows hcolumns).imp_right fun hbefore => hbefore line hline)
      · exact hoff kind line hkind
  · refine iff_of_true (fun kind line _ => ?_) fun hs' => absurd hs' hs
    exact LineMove.goes_off (fun hand => hs (hand.1.trans h.sheet)) line

theorem sheets_kept (r : LineMove) {p : Part R} (hmoved : movedParts r p.change = [p])
    (heffects : ∀ B, p.effects B = [.sheets p]) :
    (movedParts r p.change).flatMap (·.effects B') = (p.effects B).filterMap (·.rest r) := by
  rw [hmoved, List.flatMap_singleton, heffects, heffects]
  rfl

/-- A part affects what is left of what it would have affected exactly when it fits. -/
theorem part_kept (h : Aligned r actual number B B') : ∀ p : Part R,
    (movedParts r p.change).flatMap (·.effects B') = (p.effects B).filterMap (·.rest r) ↔ p.Fits r actual
  | .cell sheet c => cell_kept h sheet c
  | .lines kind sheet x count => lines_kept h kind sheet x count
  | .size kind sheet line s => size_kept h kind sheet line s
  | .merge added sheet m => merge_kept h added sheet m
  | .addSheet _ _ | .renameSheet _ _ | .removeSheet _ =>
    iff_of_true (sheets_kept r (by rw [movedParts_change]; rfl) fun _ => rfl) trivial

/-! ### What one part leaves -/

variable {actual' : LineMove}

/-- Lines of one kind change together on both boards. -/
theorem Aligned.update (h : Aligned r actual number B B') {P Q : Nat → Origin} (hsheet : actual'.sheet = r.sheet)
    (hkind : actual'.kind = r.kind) (hcarried : r.Carried actual')
    (hother : ∀ {sheet' kind'}, ¬(sheet' = sheet ∧ kind' = kind) → actual'.goes sheet' kind' = actual.goes sheet' kind')
    (hfollows : Follows (actual'.goes sheet kind) (r.lives sheet kind) (· = .remote) P Q)
    (hfresh : ∀ {l part n}, P l = .own part n → part < number + 1) :
    Aligned r actual' (number + 1) (B.update sheet kind P) (B'.update sheet kind Q) where
  sheet := hsheet
  kind := hkind
  carried := hcarried
  follows := by
    intro sheet' kind'
    by_cases hon : sheet' = sheet ∧ kind' = kind
    · obtain ⟨rfl, rfl⟩ := hon
      rw [Board.update_on, Board.update_on]
      exact hfollows
    · rw [Board.update_off hon, Board.update_off hon, hother hon]
      exact h.follows sheet' kind'
  fresh := by
    intro sheet' kind' l part n hl
    by_cases hon : sheet' = sheet ∧ kind' = kind
    · obtain ⟨rfl, rfl⟩ := hon
      rw [Board.update_on] at hl
      exact hfresh hl
    · rw [Board.update_off hon] at hl
      exact Nat.lt_succ_of_lt (h.fresh hl)

theorem Aligned.succ (h : Aligned r actual number B B') : Aligned r actual (number + 1) B B' :=
  { h with fresh := fun hl => Nat.lt_succ_of_lt (h.fresh hl) }

theorem map_add {o : Option Nat} {c k : Nat} : o.map (· + c) = some k ↔ c ≤ k ∧ o = some (k - c) := by
  rw [Option.map_eq_some_iff]
  constructor
  · rintro ⟨j, rfl, rfl⟩
    exact ⟨by omega, congrArg some (by omega)⟩
  · rintro ⟨hle, rfl⟩
    exact ⟨k - c, rfl, by omega⟩

/-- Where lines go when new ones came in beside the document's. -/
theorem moveLine_putIn {c : Nat} (hc : 0 < c) (hcarried : r.Carried actual) (hy : moveLine x r.at' r.count = some y)
    (hfit : moveLine x actual.at' actual.count = some y ∨ (x = actual.at' ∧ y = x)) (l : Nat) :
    moveLine l (if y = x then actual.at' + c else actual.at') actual.count =
      if l < x then moveLine l actual.at' actual.count else if l < x + c then some (y + (l - x))
      else (moveLine (l - c) actual.at' actual.count).map (· + c) := by
  have hused := moveLine_some.mp hy
  have hcount : actual.count = 0 ∨ (0 < r.count ∧ actual.count = r.count) ∨
    (r.count ≤ actual.count ∧ actual.count < 0) := hcarried
  rw [moveLine_some] at hfit
  refine Option.ext fun k => ?_
  rw [moveLine_some]
  split_ifs <;> simp only [map_add, moveLine_some, Option.some_inj] <;> omega

/-- Where lines go when the same ones are gone on both boards. -/
theorem moveLine_takeOut (hm : 0 < m) (hy : moveLine x actual.at' actual.count = some y)
    (hfit : actual.count = 0 ∨ (x + m : Int) ≤ actual.at' ∨ actual.stop ≤ x) (l : Nat) :
    moveLine l (if (x + m : Int) ≤ actual.at' then actual.at' - m else actual.at') actual.count =
      if l < x then moveLine l actual.at' actual.count else (moveLine (l + m) actual.at' actual.count).map (· - m) := by
  have hfirst := moveLine_some.mp hy
  rw [LineMove.stop] at hfit
  refine Option.ext fun k => ?_
  rw [moveLine_some]
  split_ifs at hfit ⊢ <;> simp only [Option.map_eq_some_iff, moveLine_some] <;> first
    | omega
    | constructor
      · intro hk
        exact ⟨k + m, by omega, by omega⟩
      · rintro ⟨j, hj, rfl⟩
        omega

/-- Where lines go when some that the document had deleted are gone on the other board as well. -/
theorem moveLine_gone (hgone : actual.count < 0 ∧ actual.at' ≤ x ∧ (x + m : Int) ≤ actual.at' - actual.count) (l : Nat) :
    moveLine l actual.at' (actual.count + m) =
      if l < x then moveLine l actual.at' actual.count else moveLine (l + m) actual.at' actual.count := by
  refine Option.ext fun k => ?_
  split_ifs <;> simp only [moveLine_some] <;> omega

theorem movedParts_other (r : LineMove) {p : Part R} (hp : movePart r p = some p) : movedParts r p.change = [p] := by
  rw [movedParts_change, hp]
  rfl

theorem fresh_putIn (h : Aligned r actual number B B') {n part i : Nat}
    (hl : putIn (B sheet kind) x n (.own number) l = .own part i) : part < number + 1 := by
  rw [putIn] at hl
  split_ifs at hl
  · exact Nat.lt_succ_of_lt (h.fresh hl)
  · rw [← (Origin.own.inj hl).1]
    exact Nat.lt_succ_self number
  · exact Nat.lt_succ_of_lt (h.fresh hl)

theorem fresh_takeOut (h : Aligned r actual number B B') {n part i : Nat}
    (hl : takeOut (B sheet kind) x n l = .own part i) : part < number + 1 := by
  rw [takeOut] at hl
  split_ifs at hl <;> exact Nat.lt_succ_of_lt (h.fresh hl)

/-! ### Lines that come in or go on both boards -/

/-- The document's lines at another place are on the same sheet and the same axis. -/
structure SameAxis (r actual : LineMove) : Prop where
  sheet : actual.sheet = r.sheet
  kind : actual.kind = r.kind

theorem SameAxis.goes (h : SameAxis r actual) : actual.goes r.sheet r.kind = (moveLine · actual.at' actual.count) := by
  funext l
  rw [← h.sheet, ← h.kind, actual.goes_on]

theorem SameAxis.goes_off (h : SameAxis r actual) (hoff : ¬(sheet = r.sheet ∧ kind = r.kind)) :
    actual.goes sheet kind = some := by
  funext l
  exact LineMove.goes_off (by rw [h.sheet, h.kind]; exact hoff) l

theorem Aligned.axis (h : Aligned r actual number B B') : SameAxis r actual := ⟨h.sheet, h.kind⟩

variable {count : Int}

/-- New lines that fit come in on both boards. -/
theorem insert_aligned (h : Aligned r actual number B B') (haxis : SameAxis r actual') (hcount : 0 < count)
    (hy : moveLine x r.at' r.count = some y)
    (hfit : moveLine x actual.at' actual.count = some y ∨ (x = actual.at' ∧ y = x))
    (hat : actual'.at' = if y = x then actual.at' + count.toNat else actual.at') (hsame : actual'.count = actual.count) :
    Aligned r actual' (number + 1)
      (B.move r.kind r.sheet x count (.own number)) (B'.move r.kind r.sheet y count (.own number)) := by
  have hfollows := h.follows r.sheet r.kind
  have hcarried : r.Carried actual' := by
    rw [LineMove.Carried, hsame]
    exact h.carried
  rw [Board.move, Board.move, if_pos hcount, if_pos hcount]
  refine h.update haxis.sheet haxis.kind hcarried ?_ ?_ (fresh_putIn h)
  · intro sheet' kind' hoff
    rw [haxis.goes_off hoff, h.axis.goes_off hoff]
  · rw [h.axis.goes] at hfollows
    rw [haxis.goes]
    refine hfollows.putIn ((gap_iff h.carried hy).mpr hfit) (fun _ => rfl) ?_
      (fun i j heq => (Origin.own.inj heq).2) fun l => ?_
    · intro i l hl
      exact Nat.lt_irrefl _ (h.fresh hl)
    · rw [hat, hsame]
      exact moveLine_putIn (by omega) h.carried hy hfit l

/-- The same lines, of which none is the document's, go on both boards. -/
theorem delete_aligned (h : Aligned r actual number B B') (haxis : SameAxis r actual') (hcount : count < 0)
    (hy : moveLine x actual.at' actual.count = some y)
    (hfit : actual.count = 0 ∨ x - count ≤ actual.at' ∨ actual.stop ≤ x)
    (hat : actual'.at' = if x - count ≤ actual.at' then (actual.at' + count).toNat else actual.at')
    (hsame : actual'.count = actual.count) :
    Aligned r actual' (number + 1)
      (B.move r.kind r.sheet x count (.own number)) (B'.move r.kind r.sheet y count (.own number)) := by
  have hfollows := h.follows r.sheet r.kind
  have hcarried : r.Carried actual' := by
    rw [LineMove.Carried, hsame]
    exact h.carried
  have hm : 0 < (-count).toNat := by omega
  have hcast : (x + (-count).toNat : Int) = x - count := by omega
  rw [← hcast] at hfit hat
  have hback : (actual.at' + count).toNat = actual.at' - (-count).toNat := by omega
  rw [Board.move, Board.move, if_neg (by omega), if_neg (by omega)]
  refine h.update haxis.sheet haxis.kind hcarried ?_ ?_ (fresh_takeOut h)
  · intro sheet' kind' hoff
    rw [haxis.goes_off hoff, h.axis.goes_off hoff]
  · have hrises : Rises (actual.goes r.sheet r.kind) := actual.goes_rises r.sheet r.kind
    rw [h.axis.goes] at hfollows hrises
    rw [haxis.goes]
    refine hfollows.takeOut hrises hm ((apart_iff hm).mpr ⟨hy, hfit⟩) fun l => ?_
    rw [hat, hsame, hback]
    exact moveLine_takeOut hm hy hfit l

/-- Lines that the document deleted first go on the first board alone. -/
theorem gone_aligned (h : Aligned r actual number B B') (haxis : SameAxis r actual') (hcount : count < 0)
    (hgone : actual.count < 0 ∧ actual.at' ≤ x ∧ x - count ≤ actual.at' - actual.count) (hat : actual'.at' = actual.at')
    (hrest : actual'.count = actual.count - count) :
    Aligned r actual' (number + 1) (B.move r.kind r.sheet x count (.own number)) B' := by
  have hfollows := h.follows r.sheet r.kind
  have hcases : actual.count = 0 ∨ (0 < r.count ∧ actual.count = r.count) ∨
    (r.count ≤ actual.count ∧ actual.count < 0) := h.carried
  have hcarried : r.Carried actual' := by
    rw [LineMove.Carried, hrest]
    omega
  have hm : 0 < (-count).toNat := by omega
  have hcast : (x + (-count).toNat : Int) = x - count := by omega
  have hless : actual.count - count = actual.count + (-count).toNat := by omega
  rw [← hcast] at hgone
  have hstay : B'.update r.sheet r.kind (B' r.sheet r.kind) = B' := by
    funext sheet' kind'
    by_cases hon : sheet' = r.sheet ∧ kind' = r.kind
    · obtain ⟨rfl, rfl⟩ := hon
      exact Board.update_on ..
    · exact Board.update_off hon _
  rw [Board.move, if_neg (by omega), ← hstay]
  refine h.update haxis.sheet haxis.kind hcarried ?_ ?_ (fresh_takeOut h)
  · intro sheet' kind' hoff
    rw [haxis.goes_off hoff, h.axis.goes_off hoff]
  · rw [h.axis.goes] at hfollows
    rw [haxis.goes]
    refine hfollows.takeOut_gone ((gone_iff hm).mpr hgone) fun l => ?_
    rw [hat, hrest, hless]
    exact moveLine_gone hgone l

/-! ### Whole changes -/

theorem move_zero (B : Board) (kind : Line) (sheet : String) (x : Nat) (new : Nat → Origin) :
    B.move kind sheet x 0 new = B := by
  funext sheet' kind'
  by_cases hon : sheet' = sheet ∧ kind' = kind
  · obtain ⟨rfl, rfl⟩ := hon
    rw [Board.move, Board.update_on, if_neg (lt_irrefl _)]
    funext l
    simp [takeOut]
  · exact Board.update_off hon _

theorem lines_aligned (h : Aligned r actual number B B') (x : Nat) (count : Int)
    (hfit : (Part.lines r.kind r.sheet x count : Part R).Fits r actual) :
    Aligned r ((Part.lines r.kind r.sheet x count : Part R).carry r actual) (number + 1)
      (B.move r.kind r.sheet x count (.own number))
      ((moveLine x r.at' r.count).elim B' fun y => B'.move r.kind r.sheet y count (.own number)) := by
  have hfit := hfit rfl rfl
  rw [Part.carry, if_pos ⟨rfl, rfl⟩]
  by_cases hzero : count = 0
  · subst hzero
    rw [move_zero]
    cases moveLine x r.at' r.count with
    | none => simpa using h.succ
    | some y =>
      rw [Option.elim_some, move_zero]
      simpa using h.succ
  cases hy : moveLine x r.at' r.count with
  | none =>
    rw [hy] at hfit
    by_cases hcount : 0 < count
    · rw [if_pos hcount] at hfit
      obtain ⟨y, hy', -⟩ := hfit
      cases hy'
    rw [if_neg hcount] at hfit
    refine gone_aligned h ?_ (by omega) (hfit.resolve_left hzero) rfl rfl
    exact ⟨h.sheet, h.kind⟩
  | some y =>
    rw [hy] at hfit
    by_cases hcount : 0 < count
    · rw [if_pos hcount] at hfit
      obtain ⟨y', hy', hfit⟩ := hfit
      obtain rfl := Option.some.inj hy'
      refine insert_aligned h ?_ hcount hy hfit ?_ ?_ <;> simp only [if_pos hcount] <;> split_ifs
      all_goals first | rfl | exact ⟨h.sheet, h.kind⟩
    · rw [if_neg hcount] at hfit
      obtain ⟨hsame, hfit⟩ := hfit.resolve_left hzero
      refine delete_aligned h ?_ (by omega) hsame hfit ?_ ?_ <;> simp only [if_neg hcount] <;> split_ifs
      all_goals first | rfl | exact ⟨h.sheet, h.kind⟩

/-- A sheet that comes back has new lines alone. -/
theorem addSheet_aligned (h : Aligned r actual number B B') (id name : String) :
    Aligned r ((Part.addSheet id name : Part R).carry r actual) (number + 1)
      ((Part.addSheet id name : Part R).after number B) ((Part.addSheet id name : Part R).after number B') := by
  have haxis : SameAxis r ((Part.addSheet id name : Part R).carry r actual) := by
    rw [Part.carry]
    split_ifs <;> exact ⟨h.sheet, h.kind⟩
  have hafter : ∀ (B : Board) (sheet : String) (kind : Line), (Part.addSheet id name : Part R).after number B sheet kind =
      if sheet = id then Origin.own number else B sheet kind := fun _ _ _ => rfl
  refine ⟨haxis.sheet, haxis.kind, ?_, ?_, ?_⟩
  · rw [Part.carry]
    split_ifs
    · exact .inl rfl
    · exact h.carried
  · intro sheet kind
    rw [hafter, hafter]
    by_cases hid : sheet = id
    · rw [if_pos hid, if_pos hid]
      refine Follows.same (fun l => ?_) (fun _ => rfl) lives_remote fun heq => (Origin.own.inj heq).2
      by_cases hon : sheet = r.sheet ∧ kind = r.kind
      · obtain ⟨rfl, rfl⟩ := hon
        rw [haxis.goes, Part.carry, if_pos hid.symm]
        exact moveLine_zero l _
      · rw [haxis.goes_off hon]
    · have hkeep := h.follows sheet kind
      rw [if_neg hid, if_neg hid]
      by_cases hr : id = r.sheet
      · have hoff : ¬(sheet = r.sheet ∧ kind = r.kind) := fun hand => hid (hand.1.trans hr.symm)
        rw [haxis.goes_off hoff, ← h.axis.goes_off hoff]
        exact hkeep
      · rw [Part.carry, if_neg hr]
        exact hkeep
  · intro sheet kind l part n hl
    rw [hafter] at hl
    split_ifs at hl
    · rw [← (Origin.own.inj hl).1]
      exact Nat.lt_succ_self number
    · exact Nat.lt_succ_of_lt (h.fresh hl)

/-- A part that fits leaves the two boards alike. -/
theorem part_aligned (h : Aligned r actual number B B') : ∀ p : Part R, p.Fits r actual →
    Aligned r (p.carry r actual) (number + 1) (p.after number B)
      ((movedParts r p.change).foldl (fun B p => p.after number B) B')
  | .cell sheet c, _ => by
    rw [movedParts_cell]
    cases r.goes sheet .rows c.row <;> cases r.goes sheet .columns c.column <;> exact h.succ
  | .lines kind sheet x count, hfit => by
    by_cases hon : sheet = r.sheet ∧ kind = r.kind
    · obtain ⟨rfl, rfl⟩ := hon
      have hlines := lines_aligned h x count hfit
      rw [movedParts_on]
      cases hy : moveLine x r.at' r.count with
      | none => rw [hy] at hlines; exact hlines
      | some y => rw [hy] at hlines; exact hlines
    · have hcarry : (Part.lines kind sheet x count : Part R).carry r actual = actual := if_neg hon
      have hfollows := h.follows sheet kind
      rw [h.axis.goes_off hon] at hfollows
      rw [movedParts_off hon, hcarry]
      show Aligned r actual (number + 1) (B.move kind sheet x count (.own number)) (B'.move kind sheet x count (.own number))
      by_cases hcount : 0 < count
      · rw [Board.move, Board.move, if_pos hcount, if_pos hcount]
        refine h.update h.sheet h.kind h.carried (fun _ => rfl) ?_ (fresh_putIn h)
        rw [h.axis.goes_off hon]
        refine hfollows.putIn (fun hk => by rw [Option.some_inj.mp hk]) (fun _ => rfl)
          (fun i l hl => Nat.lt_irrefl _ (h.fresh hl)) (fun i j heq => (Origin.own.inj heq).2) fun l => ?_
        split_ifs <;> simp only [Option.map_some, Option.some_inj] <;> omega
      · by_cases hzero : count = 0
        · rw [hzero, move_zero, move_zero]
          exact h.succ
        rw [Board.move, Board.move, if_neg hcount, if_neg hcount]
        refine h.update h.sheet h.kind h.carried (fun _ => rfl) ?_ (fresh_takeOut h)
        rw [h.axis.goes_off hon]
        refine hfollows.takeOut (fun hlt hk hk' => ?_) (by omega) (fun _ _ => rfl) fun l => ?_
        · rw [← Option.some_inj.mp hk, ← Option.some_inj.mp hk']
          exact hlt
        · split_ifs <;> simp only [Option.map_some, Option.some_inj]
          omega
  | .size .., _ => by
    rw [movedParts_other r rfl]
    exact h.succ
  | .merge .., _ => by
    rw [movedParts_other r rfl]
    exact h.succ
  | .addSheet id name, _ => by
    rw [movedParts_other r rfl]
    exact addSheet_aligned h id name
  | .renameSheet .., _ => by
    rw [movedParts_other r rfl]
    exact h.succ
  | .removeSheet .., _ => by
    rw [movedParts_other r rfl]
    exact h.succ

theorem keptFrom_iff (h : Aligned r actual number B B') (ps : List (Part R)) :
    KeptFrom r number B B' ps ↔ FitFrom r actual ps := by
  induction ps generalizing actual number B B' with
  | nil => exact Iff.rfl
  | cons p ps ih =>
    rw [KeptFrom, FitFrom, part_kept h p]
    exact and_congr_right fun hfit => ih (part_aligned h p hfit)

/-- A pending change that the view moves across lines that the document ordered first keeps its meaning exactly when each
    part of it fits. -/
theorem moved_kept (r : LineMove) (c : Change R) : c.Kept r ↔ c.Fits r := keptFrom_iff (start_aligned r) c.parts

/-! ### A deletion around a new line -/

/-- A person deletes rows 3 and 4 while someone puts a row in between: the new row goes and row 4 stays. -/
theorem new_row_deleted : ¬(Change.lines .rows "1" 2 (-2) : Change Unit).Kept ⟨"1", .rows, 3, 1⟩ := by
  intro h
  have hlines := congrArg (List.filterMap fun effect : Effect Unit =>
    match effect with
    | .deletes _ _ line => some line
    | _ => none) h.1
  exact absurd hlines (by decide)

end Kodosi.Xlsx.View
