import Kodosi.Text.Bare

/-! How positions move across a step: with the content that they are at. -/

namespace Kodosi.Text

open Lib Documents

variable {S : Schema} {doc out : Node} {slice : Slice} {lo hi : Nat}

/-! ### Moving a position -/

/-- Adds a signed number to a position, within 64 bits. -/
def saturatingAdd (pos : Nat) (diff : Int) : Nat := (min (pos + diff) (2 ^ 64 - 1)).toNat

/-- A size as a signed number. -/
def signedSize (size : Nat) : Int := if size < 2 ^ 63 then size else 2 ^ 63 - 1

/-- A signed sum of 64 bits. -/
def addSigned (a b : Int) : Out Int := if -2 ^ 63 ≤ a + b ∧ a + b < 2 ^ 63 then .ok (a + b) else panics

/-- The side of a range that a position inside it moves to. -/
def sideOf (pos start stop oldSize : Nat) (assoc : Int) : Int :=
  if oldSize = 0 then assoc else if pos = start then -1 else if pos = stop then 1 else assoc

/-- The loop of `StepMap::map` over the ranges: for each one its start, its old size and its new size. -/
def mapFrom (pos : Nat) (assoc : Int) : List Nat → Int → Out Nat
  | start :: oldSize :: newSize :: ranges, diff =>
    if pos < start then .ok (saturatingAdd pos diff)
    else do
      let stop ← add64 start oldSize
      if pos ≤ stop then do
        let moved ← add64 start (if sideOf pos start stop oldSize assoc < 0 then 0 else newSize)
        pure (saturatingAdd moved diff)
      else do
        let diff ← addSigned diff (signedSize newSize - signedSize oldSize)
        mapFrom pos assoc ranges diff
  | _, diff => .ok (saturatingAdd pos diff)

/-- Moves a position across a step. With a negative `assoc`, a position at an insertion stays before it. -/
def Step.move (step : Step) (pos : Nat) (assoc : Int) : Out Nat := do
  let ranges ← step.map
  mapFrom pos assoc ranges 0

/-- The end of a range that a position inside it goes to. -/
def ends (start oldSize newSize pos : Nat) (assoc : Int) : Nat :=
  if sideOf pos start (start + oldSize) oldSize assoc < 0 then start else start + newSize

/-- Where a position goes across one range. -/
def moveOne (start oldSize newSize pos : Nat) (assoc : Int) : Nat :=
  if pos < start then pos
  else if pos ≤ start + oldSize then ends start oldSize newSize pos assoc
  else min (pos + newSize - oldSize) (2 ^ 64 - 1)

/-- Where a position goes across two ranges. -/
def moveTwo (start left insert gapTo right rest pos : Nat) (assoc : Int) : Nat :=
  if pos < start then pos
  else if pos ≤ start + left then ends start left insert pos assoc
  else if pos < gapTo then pos + insert - left
  else if pos ≤ gapTo + right then ends gapTo right rest pos assoc + insert - left
  else min (pos + insert + rest - left - right) (2 ^ 64 - 1)

variable {pos : Nat}

theorem saturatingAdd_zero (h : pos < 2 ^ 64) : saturatingAdd pos 0 = pos := by
  rw [saturatingAdd]
  omega

theorem signedSize_small {size : Nat} (h : size < 2 ^ 63) : signedSize size = size := if_pos h

theorem addSigned_ok {a b : Int} (h : -2 ^ 63 ≤ a + b ∧ a + b < 2 ^ 63) : addSigned a b = .ok (a + b) := if_pos h

theorem ends_le (start oldSize newSize pos : Nat) (assoc : Int) :
    start ≤ ends start oldSize newSize pos assoc ∧ ends start oldSize newSize pos assoc ≤ start + newSize := by
  rw [ends]
  split <;> omega

variable {start oldSize newSize : Nat} {assoc : Int}

/-- A turn of the loop at a range that the position is in. -/
theorem mapFrom_in {diff : Int} {ranges : List Nat} (hlo : start ≤ pos) (hhi : pos ≤ start + oldSize)
    (hold : start + oldSize < 2 ^ 63) (hnew : start + newSize < 2 ^ 64) :
    mapFrom pos assoc (start :: oldSize :: newSize :: ranges) diff =
      .ok (saturatingAdd (ends start oldSize newSize pos assoc) diff) := by
  rw [mapFrom, if_neg (by omega), ok_bind (add64_ok.mpr ⟨by omega, rfl⟩), if_pos hhi]
  rw [ends]
  by_cases hside : sideOf pos start (start + oldSize) oldSize assoc < 0
  · rw [if_pos hside, if_pos hside, ok_bind (add64_ok.mpr ⟨by omega, rfl⟩)]
    rfl
  · rw [if_neg hside, if_neg hside, ok_bind (add64_ok.mpr ⟨by omega, rfl⟩)]
    rfl

/-- A turn of the loop at a range before the position. -/
theorem mapFrom_after {diff : Int} {ranges : List Nat} (hhi : start + oldSize < pos) (hold : start + oldSize < 2 ^ 63)
    (hnew : newSize < 2 ^ 63) (hdiff : -2 ^ 63 ≤ diff + (newSize - oldSize) ∧ diff + (newSize - oldSize) < 2 ^ 63) :
    mapFrom pos assoc (start :: oldSize :: newSize :: ranges) diff =
      mapFrom pos assoc ranges (diff + (newSize - oldSize)) := by
  rw [mapFrom, if_neg (by omega), ok_bind (add64_ok.mpr ⟨by omega, rfl⟩), if_neg (by omega),
    signedSize_small (by omega), signedSize_small (by omega), ok_bind (addSigned_ok hdiff)]

theorem map_one (hold : start + oldSize < 2 ^ 63) (hnew : start + newSize < 2 ^ 63) (pos : Nat) (assoc : Int) :
    mapFrom pos assoc [start, oldSize, newSize] 0 = .ok (moveOne start oldSize newSize pos assoc) := by
  rw [moveOne]
  split_ifs with hlo hhi
  · rw [mapFrom, if_pos hlo, saturatingAdd_zero (by omega)]
  · have := ends_le start oldSize newSize pos assoc
    rw [mapFrom_in (by omega) hhi hold (by omega), saturatingAdd_zero (by omega)]
  · rw [mapFrom_after (by omega) hold (by omega) (by omega), mapFrom, saturatingAdd]
    · congr 1
      omega
    · simp

variable {insert gapTo : Nat}

theorem map_two {left right rest : Nat} (hgap : start + left ≤ gapTo) (hold : gapTo + right < 2 ^ 63)
    (hnew : start + insert + (gapTo - (start + left)) + rest < 2 ^ 63) (pos : Nat) (assoc : Int) :
    mapFrom pos assoc [start, left, insert, gapTo, right, rest] 0 =
      .ok (moveTwo start left insert gapTo right rest pos assoc) := by
  rw [moveTwo]
  split_ifs with hlo hleft hbefore hright
  · rw [mapFrom, if_pos hlo, saturatingAdd_zero (by omega)]
  · have := ends_le start left insert pos assoc
    rw [mapFrom_in (by omega) hleft (by omega) (by omega), saturatingAdd_zero (by omega)]
  · rw [mapFrom_after (by omega) (by omega) (by omega) (by omega), mapFrom, if_pos hbefore, saturatingAdd]
    congr 1
    omega
  · have := ends_le gapTo right rest pos assoc
    rw [mapFrom_after (by omega) (by omega) (by omega) (by omega), mapFrom_in (by omega) hright hold (by omega), saturatingAdd]
    congr 1
    omega
  · rw [mapFrom_after (by omega) (by omega) (by omega) (by omega), mapFrom_after (by omega) hold (by omega) (by omega),
      mapFrom, saturatingAdd]
    · congr 1
      omega
    · simp

/-! ### Positions in order -/

theorem ends_mono {start oldSize newSize : Nat} {assoc : Int} {p q : Nat} (h : p ≤ q) (hp : start ≤ p)
    (hq : q ≤ start + oldSize) : ends start oldSize newSize p assoc ≤ ends start oldSize newSize q assoc := by
  simp only [ends, sideOf]
  split_ifs <;> omega

theorem moveOne_mono {p q : Nat} (hold : start + oldSize < 2 ^ 63) (hnew : start + newSize < 2 ^ 63) (h : p ≤ q) :
    moveOne start oldSize newSize p assoc ≤ moveOne start oldSize newSize q assoc := by
  have hp := ends_le start oldSize newSize p assoc
  have hq := ends_le start oldSize newSize q assoc
  rw [moveOne, moveOne]
  split_ifs
  any_goals omega
  exact ends_mono h (by omega) (by omega)

theorem moveTwo_mono {left right rest : Nat} {p q : Nat} (hgap : start + left ≤ gapTo) (hold : gapTo + right < 2 ^ 63)
    (hnew : start + insert + (gapTo - (start + left)) + rest < 2 ^ 63) (h : p ≤ q) :
    moveTwo start left insert gapTo right rest p assoc ≤ moveTwo start left insert gapTo right rest q assoc := by
  have hp := ends_le start left insert p assoc
  have hq := ends_le start left insert q assoc
  have hp' := ends_le gapTo right rest p assoc
  have hq' := ends_le gapTo right rest q assoc
  rw [moveTwo, moveTwo]
  split_ifs
  any_goals omega
  · exact ends_mono h (by omega) (by assumption)
  · have := @ends_mono gapTo right rest assoc p q h (by omega) (by assumption)
    omega

/-! ### What a step puts in -/

/-- The step does not run backwards. -/
def Step.Forward : Step → Prop
  | .replace lo hi _ _ | .addMark lo hi _ | .removeMark lo hi _ => lo ≤ hi
  | .replaceAround lo hi gapFrom gapTo _ _ _ => lo ≤ gapFrom ∧ gapFrom ≤ gapTo ∧ gapTo ≤ hi
  | .addNodeMark _ _ | .removeNodeMark _ _ | .attr _ _ _ | .docAttr _ _ => True

/-- The step is what it says: the right side of its slice is open, the gap goes inside of the slice, and the node that it
    changes is no text. -/
def Step.Real (doc : Node) : Step → Prop
  | .replace _ _ slice _ => slice.Sided
  | .replaceAround _ _ _ _ slice insert _ => Closes slice.openEnd slice.content ∧
      insert + (slice.openStart + slice.openEnd) ≤ Fragment.size slice.content
  | .addNodeMark pos _ | .removeNodeMark pos _ | .attr pos _ _ => NodeThere doc pos
  | .addMark _ _ _ | .removeMark _ _ _ | .docAttr _ _ => True

theorem size_of_tokens (h : (tokens out.content).length = (tokens doc.content).length) :
    Fragment.size out.content = Fragment.size doc.content := by
  rwa [length_tokens, length_tokens] at h

variable {structure_ : Bool}

/-- A replacement puts in as many tokens as its slice has size. -/
theorem replace_parts (hdoc : HoldsText S doc.content) (hslice : HoldsText S slice.content) (hsided : slice.Sided)
    (h : Step.apply S doc (.replace lo hi slice structure_) = .ok out) :
    ∃ added : List Token, slice.size = .ok added.length ∧ hi ≤ Fragment.size doc.content ∧
      tokens out.content = (tokens doc.content).take lo ++ added ++ (tokens doc.content).drop hi ∧
      HoldsText S out.content ∧ ∀ t ∈ added, t ∈ tokens slice.content := by
  obtain ⟨between, -, h⟩ := bind_ok h
  split_ifs at h
  · simp [failed] at h
  · obtain ⟨⟨-, hhi⟩, htokens, hholds⟩ := replace_tokens hdoc hslice hsided h
    obtain ⟨size, hsize⟩ := replace_size h
    refine ⟨slice.inside, ?_, hhi, htokens, hholds, fun t ht => List.mem_of_mem_take (List.mem_of_mem_drop ht)⟩
    obtain ⟨sides, hsides, hsize'⟩ := bind_ok hsize
    obtain ⟨-, rfl⟩ := add64_ok.mp hsides
    rw [hsize, ← Except.ok.inj hsize', Slice.inside, List.length_drop, List.length_take, length_tokens]
    congr 1
    omega

theorem take_insert {α : Type} (ts us : List α) {d n : Nat} (hd : d ≤ n) (hn : n ≤ ts.length) :
    (ts.take d ++ us ++ ts.drop d).take (n + us.length) = ts.take d ++ us ++ (ts.take n).drop d := by
  have hlength : (ts.take d ++ us).length = d + us.length := by
    rw [List.length_append, List.length_take]
    omega
  rw [List.take_append, List.take_of_length_le (by omega), hlength, List.drop_take]
  congr 2
  omega

/-- A replacement around a gap puts in the two parts of its slice beside the gap. -/
theorem replaceAround_parts {gapFrom : Nat} (hdoc : HoldsText S doc.content) (hslice : HoldsText S slice.content)
    (hgap : gapFrom ≤ gapTo) (hcloses : Closes slice.openEnd slice.content)
    (hinside : insert + (slice.openStart + slice.openEnd) ≤ Fragment.size slice.content)
    (h : Step.apply S doc (.replaceAround lo hi gapFrom gapTo slice insert structure_) = .ok out) :
    ∃ front back : List Token, front.length = insert ∧ slice.size = .ok (insert + back.length) ∧
      hi ≤ Fragment.size doc.content ∧
      tokens out.content = (tokens doc.content).take lo ++ front ++ ((tokens doc.content).take gapTo).drop gapFrom ++ back ++
        (tokens doc.content).drop hi ∧ HoldsText S out.content ∧
      (∀ t ∈ front, t ∈ tokens slice.content) ∧ ∀ t ∈ back, t ∈ tokens slice.content := by
  obtain ⟨gap, inserted, -, hgapped, hstart, hend, hinserted, h⟩ := replaceAround_ok h
  obtain ⟨opened, hopened, hgtokens, hgholds⟩ := slice_tokens hdoc hgap hgapped
  obtain rfl : opened = [] := List.eq_nil_of_length_eq_zero (by omega)
  rw [show gap.openEnd = 0 by omega, List.replicate_zero, List.append_nil, List.nil_append] at hgtokens
  obtain ⟨_, _, hos, hoe, hin⟩ := insertAt_ok hinserted
  obtain ⟨-, hitokens, hiholds⟩ := insertInto_tokens hslice hgholds hin
  have hicloses : Closes inserted.openEnd inserted.content := by
    rw [hoe]
    exact insertInto_closes hslice hgholds hcloses (by omega) hin
  obtain ⟨⟨-, hhi⟩, htokens, hholds⟩ := replace_tokens hdoc hiholds (.inl hicloses) h
  obtain ⟨size, hsize⟩ := replace_size h
  obtain ⟨sides, hsides, -⟩ := bind_ok hsize
  rw [hos, hoe] at hsides
  obtain ⟨hsum, -⟩ := add64_ok.mp hsides
  have hlength := length_tokens slice.content
  have hsizes := congrArg List.length hitokens
  rw [length_tokens, List.length_append, List.length_append, List.length_take, List.length_drop] at hsizes
  -- the slice's tokens beside the gap
  refine ⟨((tokens slice.content).take (insert + slice.openStart)).drop slice.openStart,
    ((tokens slice.content).take (Fragment.size slice.content - slice.openEnd)).drop (insert + slice.openStart), ?_, ?_, hhi,
    ?_, hholds, fun t ht => List.mem_of_mem_take (List.mem_of_mem_drop ht),
    fun t ht => List.mem_of_mem_take (List.mem_of_mem_drop ht)⟩
  · rw [List.length_drop, List.length_take]
    omega
  · rw [Slice.size, ok_bind (add64_ok.mpr ⟨hsum, rfl⟩), List.length_drop, List.length_take]
    exact congrArg Except.ok (by omega)
  · have hinside : inserted.inside = ((tokens slice.content).take (insert + slice.openStart)).drop slice.openStart ++
        tokens gap.content ++
        ((tokens slice.content).take (Fragment.size slice.content - slice.openEnd)).drop (insert + slice.openStart) := by
      rw [Slice.inside, hitokens, hos, hoe, show Fragment.size inserted.content - slice.openEnd =
          Fragment.size slice.content - slice.openEnd + (tokens gap.content).length by omega,
        take_insert _ _ (by omega) (by omega), List.append_assoc, List.drop_append_of_le_length (by
          rw [List.length_take]
          omega), List.append_assoc]
    rw [htokens, hinside, hgtokens]
    simp

/-! ### Positions and content -/

/-- The positions that a step reads or changes in the document before it. -/
def Step.range : Step → Option (Nat × Nat)
  | .replace lo hi _ _ | .replaceAround lo hi _ _ _ _ _ | .addMark lo hi _ | .removeMark lo hi _ => some (lo, hi)
  | .addNodeMark pos _ | .removeNodeMark pos _ | .attr pos _ _ => some (pos, pos)
  | .docAttr _ _ => none

/-- The ranges that a step replaces. -/
def Step.replaced : Step → List (Nat × Nat)
  | .replace lo hi _ _ => [(lo, hi)]
  | .replaceAround lo hi gapFrom gapTo _ _ _ => [(lo, gapFrom), (gapTo, hi)]
  | _ => []

/-- Before a range, behind it, or at the end of one that is not empty. -/
def Outside (range : Nat × Nat) (pos : Nat) : Prop :=
  pos < range.1 ∨ range.2 < pos ∨ pos = range.2 ∧ range.1 < range.2

/-- Positions move with the content of a document that a step changes. -/
structure Step.MovesWith (step : Step) (doc out : Node) (move : Nat → Int → Nat) : Prop where
  mono : ∀ {p q : Nat} (side : Int), p ≤ q → move p side ≤ move q side
  within : ∀ {p : Nat} (side : Int), p ≤ Fragment.size doc.content → move p side ≤ Fragment.size out.content
  before : ∀ {lo hi : Nat}, step.range = some (lo, hi) → ∀ {p : Nat} (side : Int), p < lo → move p side = p
  after : ∀ {lo hi : Nat}, step.range = some (lo, hi) → ∀ {p : Nat} (side : Int), hi < p →
    p ≤ Fragment.size doc.content → move p side + Fragment.size doc.content = p + Fragment.size out.content
  gap : ∀ {lo hi gapFrom gapTo insert : Nat} {slice : Slice} {structure_ : Bool},
    step = .replaceAround lo hi gapFrom gapTo slice insert structure_ → ∀ {p : Nat} (side : Int), gapFrom < p → p < gapTo →
    move p side + gapFrom = p + lo + insert ∧ (tokens out.content)[move p side]? = (tokens doc.content)[p]?
  token : step.replaced ≠ [] → ∀ {p : Nat} (side : Int), p ≤ Fragment.size doc.content →
    (∀ range ∈ step.replaced, Outside range p) → (tokens out.content)[move p side]? = (tokens doc.content)[p]?
  same : step.replaced = [] → (∀ (p : Nat) (side : Int), move p side = p) ∧
    bare (tokens out.content) = bare (tokens doc.content)

theorem ends_stop {start oldSize newSize : Nat} {assoc : Int} (h : oldSize ≠ 0) :
    ends start oldSize newSize (start + oldSize) assoc = start + newSize := by
  simp [ends, sideOf, h]

theorem getElem?_take_append {α : Type} {ts us : List α} {n p : Nat} (hp : p < n) (hn : n ≤ ts.length) :
    (ts.take n ++ us)[p]? = ts[p]? := by
  rw [List.getElem?_append_left (by rw [List.length_take]; omega), List.getElem?_take_of_lt hp]

theorem replace_moves (hdoc : HoldsText S doc.content) (hslice : HoldsText S slice.content)
    (hsmall : Fragment.size doc.content < 2 ^ 63) (hsmall' : Fragment.size out.content < 2 ^ 63) (hle : lo ≤ hi)
    (hsided : slice.Sided) (h : Step.apply S doc (.replace lo hi slice structure_) = .ok out) :
    ∃ move, (∀ pos assoc, pos < 2 ^ 64 → Step.move (.replace lo hi slice structure_) pos assoc = .ok (move pos assoc)) ∧
      Step.MovesWith (.replace lo hi slice structure_) doc out move := by
  obtain ⟨added, hadded, hhi, htokens, -⟩ := replace_parts hdoc hslice hsided h
  have hlength := length_tokens doc.content
  have hsize := congrArg List.length htokens
  rw [length_tokens, List.length_append, List.length_append, List.length_take, List.length_drop] at hsize
  have hmap : Step.map (.replace lo hi slice structure_) = .ok [lo, hi - lo, added.length] := by
    rw [Step.map, ok_bind (sub64_ok.mpr ⟨hle, rfl⟩), ok_bind hadded]
    rfl
  have hafter : ∀ {p : Nat} (side : Int), Outside (lo, hi) p → ¬p < lo → p ≤ Fragment.size doc.content →
      moveOne lo (hi - lo) added.length p side = p + added.length - (hi - lo) := by
    intro p side hout hlo hp
    rw [moveOne, if_neg hlo]
    by_cases hin : p ≤ lo + (hi - lo)
    · obtain ⟨rfl, hlt⟩ : p = hi ∧ lo < hi := by
        rcases hout with h | h | h
        · exact absurd h hlo
        · dsimp only at h
          omega
        · exact h
      have hends := @ends_stop lo (p - lo) added.length side (by omega)
      rw [show lo + (p - lo) = p by omega] at hends ⊢
      rw [if_pos le_rfl, hends]
      omega
    · rw [if_neg hin]
      omega
  refine ⟨moveOne lo (hi - lo) added.length, fun pos assoc _ => ?_, ?_⟩
  · rw [Step.move, ok_bind hmap, map_one (by omega) (by omega)]
  · refine ⟨fun side hpq => moveOne_mono (by omega) (by omega) hpq, fun {p} side hp => ?_, ?_, ?_, by simp,
      fun _ p side hp hout => ?_, by simp [Step.replaced]⟩
    · have hends := ends_le lo (hi - lo) added.length p side
      rw [moveOne]
      split_ifs <;> omega
    · rintro _ _ ⟨⟩ p side hp
      rw [moveOne, if_pos hp]
    · rintro _ _ ⟨⟩ p side hp hle'
      rw [hafter side (.inr (.inl hp)) (by omega) hle']
      omega
    · have hout := hout (lo, hi) (List.mem_singleton.mpr rfl)
      by_cases hlo : p < lo
      · rw [moveOne, if_pos hlo, htokens, List.append_assoc, getElem?_take_append hlo (by omega)]
      · rw [hafter side hout hlo hp, htokens]
        have hhi : hi ≤ p := by
          rcases hout with h | h | h
          · exact absurd h hlo
          · exact h.le
          · exact h.1.ge
        rw [List.getElem?_append_right (by rw [List.length_append, List.length_take]; omega), List.getElem?_drop,
          List.length_append, List.length_take]
        congr 1
        omega

theorem replaceAround_moves {gapFrom : Nat} (hdoc : HoldsText S doc.content) (hslice : HoldsText S slice.content)
    (hsmall : Fragment.size doc.content < 2 ^ 63) (hsmall' : Fragment.size out.content < 2 ^ 63)
    (hle : lo ≤ gapFrom ∧ gapFrom ≤ gapTo ∧ gapTo ≤ hi) (hcloses : Closes slice.openEnd slice.content)
    (hinside : insert + (slice.openStart + slice.openEnd) ≤ Fragment.size slice.content)
    (h : Step.apply S doc (.replaceAround lo hi gapFrom gapTo slice insert structure_) = .ok out) :
    ∃ move, (∀ pos assoc, pos < 2 ^ 64 →
        Step.move (.replaceAround lo hi gapFrom gapTo slice insert structure_) pos assoc = .ok (move pos assoc)) ∧
      Step.MovesWith (.replaceAround lo hi gapFrom gapTo slice insert structure_) doc out move := by
  obtain ⟨front, back, rfl, hadded, hhi, htokens, -⟩ := replaceAround_parts hdoc hslice hle.2.1 hcloses hinside h
  obtain ⟨hfrom, hgap, hto⟩ := hle
  have hlength := length_tokens doc.content
  have hsize := congrArg List.length htokens
  simp only [length_tokens, List.length_append, List.length_take, List.length_drop] at hsize
  have hmap : Step.map (.replaceAround lo hi gapFrom gapTo slice front.length structure_) =
      .ok [lo, gapFrom - lo, front.length, gapTo, hi - gapTo, back.length] := by
    rw [Step.map, ok_bind (sub64_ok.mpr ⟨hfrom, rfl⟩), ok_bind (sub64_ok.mpr ⟨hto, rfl⟩), ok_bind hadded,
      Nat.add_sub_cancel_left]
    rfl
  have hinside : ∀ {p : Nat} (side : Int), gapFrom < p ∨ p = gapFrom ∧ lo < gapFrom → p < gapTo →
      moveTwo lo (gapFrom - lo) front.length gapTo (hi - gapTo) back.length p side + gapFrom = p + lo + front.length := by
    intro p side hp hlt
    rw [moveTwo, if_neg (by omega)]
    by_cases hin : p ≤ lo + (gapFrom - lo)
    · obtain ⟨rfl, hne⟩ : p = gapFrom ∧ lo < gapFrom := by omega
      have hends := @ends_stop lo (p - lo) front.length side (by omega)
      rw [show lo + (p - lo) = p by omega] at hends ⊢
      rw [if_pos le_rfl, hends]
      omega
    · rw [if_neg hin, if_pos hlt]
      omega
  have hafter : ∀ {p : Nat} (side : Int), hi < p ∨ p = hi ∧ gapTo < hi → p ≤ Fragment.size doc.content →
      moveTwo lo (gapFrom - lo) front.length gapTo (hi - gapTo) back.length p side =
        p + front.length + back.length - (gapFrom - lo) - (hi - gapTo) := by
    intro p side hp hle
    rw [moveTwo, if_neg (by omega), if_neg (by omega), if_neg (by omega)]
    by_cases hin : p ≤ gapTo + (hi - gapTo)
    · obtain ⟨rfl, hne⟩ : p = hi ∧ gapTo < hi := by omega
      have hends := @ends_stop gapTo (p - gapTo) back.length side (by omega)
      rw [show gapTo + (p - gapTo) = p by omega] at hends ⊢
      rw [if_pos le_rfl, hends]
      omega
    · rw [if_neg hin]
      omega
  have hgapToken : ∀ {p : Nat} (side : Int), gapFrom < p ∨ p = gapFrom ∧ lo < gapFrom → p < gapTo →
      (tokens out.content)[moveTwo lo (gapFrom - lo) front.length gapTo (hi - gapTo) back.length p side]? =
        (tokens doc.content)[p]? := by
    intro p side hp hlt
    have hmoved := hinside side hp hlt
    have hto : ((tokens doc.content).take lo ++ front).length = lo + front.length := by
      rw [List.length_append, List.length_take]
      omega
    rw [htokens, List.append_assoc, List.append_assoc, List.getElem?_append_right (by omega), hto,
      List.getElem?_append_left (by rw [List.length_drop, List.length_take]; omega), List.getElem?_drop,
      List.getElem?_take_of_lt (by omega)]
    congr 1
    omega
  refine ⟨moveTwo lo (gapFrom - lo) front.length gapTo (hi - gapTo) back.length, fun pos assoc _ => ?_, ?_⟩
  · rw [Step.move, ok_bind hmap, map_two (by omega) (by omega) (by omega)]
  · refine ⟨fun side hpq => moveTwo_mono (by omega) (by omega) (by omega) hpq, fun {p} side hp => ?_, ?_, ?_, ?_,
      fun _ p side hp hout => ?_, by simp [Step.replaced]⟩
    · have hends := ends_le lo (gapFrom - lo) front.length p side
      have hends' := ends_le gapTo (hi - gapTo) back.length p side
      rw [moveTwo]
      split_ifs <;> omega
    · rintro _ _ ⟨⟩ p side hp
      rw [moveTwo, if_pos hp]
    · rintro _ _ ⟨⟩ p side hp hle'
      rw [hafter side (.inl hp) hle']
      omega
    · rintro _ _ _ _ _ _ _ ⟨⟩ p side hp hlt
      exact ⟨hinside side (.inl hp) hlt, hgapToken side (.inl hp) hlt⟩
    · have hleft : Outside (lo, gapFrom) p := hout _ (List.mem_cons_self ..)
      have hright : Outside (gapTo, hi) p := hout _ (List.mem_cons_of_mem _ (List.mem_singleton.mpr rfl))
      simp only [Outside] at hleft hright
      by_cases hlo : p < lo
      · rw [moveTwo, if_pos hlo, htokens, List.append_assoc, List.append_assoc, List.append_assoc,
          getElem?_take_append hlo (by omega)]
      by_cases hlt : p < gapTo
      · exact hgapToken side (by omega) hlt
      · have hend : hi < p ∨ p = hi ∧ gapTo < hi := by omega
        have hbefore : ((tokens doc.content).take lo ++ front ++ ((tokens doc.content).take gapTo).drop gapFrom ++ back).length =
            lo + front.length + (gapTo - gapFrom) + back.length := by
          simp only [List.length_append, List.length_drop, List.length_take]
          omega
        rw [hafter side hend hp, htokens, List.getElem?_append_right (by omega), hbefore, List.getElem?_drop]
        congr 1
        omega

/-- A step that replaces nothing leaves the tokens but for marks and attributes. -/
theorem same_bare {step : Step} (hdoc : HoldsText S doc.content) (htyped : Typed S (tokens doc.content))
    (hforward : step.Forward) (hreal : step.Real doc) (hreplaced : step.replaced = [])
    (h : step.apply S doc = .ok out) :
    bare (tokens out.content) = bare (tokens doc.content) ∧ HoldsText S out.content := by
  cases step with
  | replace => cases hreplaced
  | replaceAround => cases hreplaced
  | addMark lo hi mark => exact addMark_bare hdoc hforward h
  | removeMark lo hi mark => exact removeMark_bare hdoc hforward h
  | addNodeMark pos mark => exact markNode_bare hdoc htyped hreal h
  | removeNodeMark pos mark => exact markNode_bare hdoc htyped hreal h
  | attr pos name value => exact setAttr_bare hdoc hreal h
  | docAttr name value =>
    obtain ⟨attrs, -, h⟩ := bind_ok h
    obtain rfl := Except.ok.inj h
    exact ⟨rfl, hdoc⟩

theorem same_moves {step : Step} (hdoc : HoldsText S doc.content) (htyped : Typed S (tokens doc.content))
    (hforward : step.Forward) (hreal : step.Real doc) (hreplaced : step.replaced = []) (h : step.apply S doc = .ok out) :
    ∃ move, (∀ pos assoc, pos < 2 ^ 64 → step.move pos assoc = .ok (move pos assoc)) ∧ step.MovesWith doc out move := by
  obtain ⟨hbare, -⟩ := same_bare hdoc htyped hforward hreal hreplaced h
  have hsize : Fragment.size out.content = Fragment.size doc.content :=
    size_of_tokens (by rw [← length_bare, hbare, length_bare])
  have hmap : step.map = .ok [] := by
    cases step with
    | replace => cases hreplaced
    | replaceAround => cases hreplaced
    | addMark | removeMark | addNodeMark | removeNodeMark | attr | docAttr => rfl
  refine ⟨fun pos _ => pos, fun pos assoc hpos => ?_, fun _ hpq => hpq, fun _ hp => hp.trans_eq hsize.symm, fun _ _ _ _ => rfl,
    fun _ _ _ _ _ => by rw [hsize], ?_, fun hne => absurd hreplaced hne, fun _ => ⟨fun _ _ => rfl, hbare⟩⟩
  · rw [Step.move, ok_bind hmap, mapFrom, saturatingAdd_zero hpos]
    simp
  · rintro _ _ _ _ _ _ _ rfl
    cases hreplaced

/-- Positions move with the content of a document, across every step that is what it says and that does not run
    backwards. -/
theorem positions_move (S : Schema) (doc out : Node) (step : Step) (hdoc : HoldsText S doc.content)
    (htyped : Typed S (tokens doc.content)) (hslice : ∀ slice ∈ step.slice, HoldsText S slice.content)
    (hsmall : Fragment.size doc.content < 2 ^ 63) (hsmall' : Fragment.size out.content < 2 ^ 63)
    (hforward : step.Forward) (hreal : step.Real doc) (h : step.apply S doc = .ok out) :
    ∃ move, (∀ pos assoc, pos < 2 ^ 64 → step.move pos assoc = .ok (move pos assoc)) ∧ step.MovesWith doc out move := by
  cases step with
  | replace lo hi slice structure_ =>
    exact replace_moves hdoc (hslice slice rfl) hsmall hsmall' hforward hreal h
  | replaceAround lo hi gapFrom gapTo slice insert structure_ =>
    exact replaceAround_moves hdoc (hslice slice rfl) hsmall hsmall' hforward hreal.1 hreal.2 h
  | addMark | removeMark | addNodeMark | removeNodeMark | attr | docAttr =>
    exact same_moves hdoc htyped hforward hreal rfl h

/-- A paragraph is put around the text of another, and the positions in it stay. -/
theorem positions_move_wrap : ∃ out move,
    Step.apply page twoLines (.replaceAround 0 4 1 3 ⟨[paragraph []], 0, 0⟩ 1 true) = .ok out ∧
      Step.MovesWith (.replaceAround 0 4 1 3 ⟨[paragraph []], 0, 0⟩ 1 true) twoLines out move := by
  obtain ⟨out, hout, hsize⟩ := ok_of_toOption (f := fun out : Node => Fragment.size out.content)
    (show (Step.apply page twoLines (.replaceAround 0 4 1 3 ⟨[paragraph []], 0, 0⟩ 1 true)).toOption.map
      (fun out => Fragment.size out.content) = some 8 by decide +kernel)
  have hholds : HoldsText page twoLines.content := by
    simp [HoldsText, Node.HoldsText, twoLines, pageOf, paragraph, words, page, Node.content, Schema.textNode]
  obtain ⟨move, -, hmoves⟩ := positions_move page twoLines out (.replaceAround 0 4 1 3 ⟨[paragraph []], 0, 0⟩ 1 true) hholds
    (typed_of_built twoLines_built) (by
      rintro _ ⟨⟩
      simp [HoldsText, Node.HoldsText, paragraph, page, Schema.textNode])
    (by decide) (by omega) ⟨by decide, by decide, by decide⟩ ⟨trivial, by decide⟩ hout
  exact ⟨out, move, hout, hmoves⟩

/-- A slice that is empty but says that it is open takes more away than the ranges say, and one whose gap goes in its
    open side puts in less: in both documents the end moves to a position that is not there. -/
theorem positions_move_past :
    (∃ out, Step.apply page twoLines (.replace 0 2 ⟨[], 0, 1⟩ false) = .ok out ∧
      ∃ moved, Step.move (.replace 0 2 ⟨[], 0, 1⟩ false) 8 1 = .ok moved ∧ Fragment.size out.content < moved) ∧
    ∃ out, Step.apply page (pageOf [paragraph [words "a"], paragraph [words "x"], paragraph [words "y"]])
        (.replaceAround 2 7 3 6 ⟨[paragraph [], paragraph []], 1, 1⟩ 3 false) = .ok out ∧
      ∃ moved, Step.move (.replaceAround 2 7 3 6 ⟨[paragraph [], paragraph []], 1, 1⟩ 3 false) 9 1 = .ok moved ∧
        Fragment.size out.content < moved := by
  constructor
  · obtain ⟨out, hout, hsize⟩ := ok_of_toOption (f := fun out : Node => Fragment.size out.content)
      (show (Step.apply page twoLines (.replace 0 2 ⟨[], 0, 1⟩ false)).toOption.map
        (fun out => Fragment.size out.content) = some 4 by decide +kernel)
    exact ⟨out, hout, 6, by decide, by omega⟩
  · obtain ⟨out, hout, hsize⟩ := ok_of_toOption (f := fun out : Node => Fragment.size out.content)
      (show (Step.apply page (pageOf [paragraph [words "a"], paragraph [words "x"], paragraph [words "y"]])
        (.replaceAround 2 7 3 6 ⟨[paragraph [], paragraph []], 1, 1⟩ 3 false)).toOption.map
        (fun out => Fragment.size out.content) = some 9 by decide +kernel)
    exact ⟨out, hout, 10, by decide, by omega⟩

end Kodosi.Text
