import Mathlib.Algebra.Group.Nat.Even
import Mathlib.Data.List.Infix
import Mathlib.Tactic.Common

/-! How a line of Markdown is split at its marks for bold and for italic. -/

namespace Kodosi.Docx.Spans

/-- One stretch of a Markdown line with its look. -/
structure Span where
  text : List Char
  bold : Bool
  italic : Bool
  deriving DecidableEq

inductive Mark where
  | bold
  | italic
  deriving DecidableEq

def Mark.chars : Mark → List Char
  | .bold => ['*', '*']
  | .italic => ['*']

/-- The mark that starts at a star, by what stands behind the star. -/
def markAt (tail : List Char) : Mark := if tail.head? = some '*' then .bold else .italic

/-- The span of a text, when it is not empty. -/
def push (text : List Char) (bold italic : Bool) : List Span := if text = [] then [] else [⟨text, bold, italic⟩]

/-- The loop over the rest of a line, with the text so far and the marks that are open. -/
def spansFrom (text : List Char) (bold italic : Bool) (rest : List Char) : List Span :=
  match _h : rest.dropWhile (· ≠ '*') with
  | [] => push (text ++ rest) bold italic
  | _ :: tail =>
    let before := rest.takeWhile (· ≠ '*')
    let mark := markAt tail
    let after := tail.drop (mark.chars.length - 1)
    let isOpen := if mark = .bold then bold else italic
    if isOpen = false ∧ ¬mark.chars <:+: after then spansFrom (text ++ before ++ mark.chars) bold italic after
    else if mark = .bold then push (text ++ before) bold italic ++ spansFrom [] (!bold) italic after
    else push (text ++ before) bold italic ++ spansFrom [] bold (!italic) after
termination_by rest.length
decreasing_by all_goals
  have hle := (List.dropWhile_sublist (l := rest) (· ≠ '*')).length_le
  rw [_h, List.length_cons] at hle
  rw [List.length_drop]
  omega

/-- Splits a Markdown line at its `**` and `*` marks. -/
def spans (line : List Char) : List Span := spansFrom [] false false line

/-- A line whose spans stand between marks that open and close: which of the marks are open before it and behind it. -/
inductive Cut : Bool → Bool → List Char → List Span → Bool → Bool → Prop
  | done {b i : Bool} : Cut b i [] [] b i
  | text {b i b' i' : Bool} {text line : List Char} {out : List Span} : text ≠ [] → Cut b i line out b' i' →
      Cut b i (text ++ line) (⟨text, b, i⟩ :: out) b' i'
  | bold {b i b' i' : Bool} {line : List Char} {out : List Span} : Cut (!b) i line out b' i' →
      Cut b i ('*' :: '*' :: line) out b' i'
  | italic {b i b' i' : Bool} {line : List Char} {out : List Span} : Cut b (!i) line out b' i' →
      Cut b i ('*' :: line) out b' i'

/-- The marks between the spans of a line alternate between opening and closing, and none is left open. -/
def Paired (line : List Char) (out : List Span) : Prop := Cut false false line out false false

/-- The marks of a line: two stars in a row each, and a single star where a row of stars is odd. -/
def marks : List Char → List Mark
  | '*' :: '*' :: rest => .bold :: marks rest
  | '*' :: rest => .italic :: marks rest
  | _ :: rest => marks rest
  | [] => []

variable {text rest line : List Char} {b i b' i' : Bool} {out : List Span}

/-! ### The loop, one character after the other -/

theorem spansFrom_nil : spansFrom text b i [] = push text b i := by
  rw [spansFrom]
  simp

theorem spansFrom_char {c : Char} (h : c ≠ '*') : spansFrom text b i (c :: rest) = spansFrom (text ++ [c]) b i rest := by
  have hdrop : (c :: rest).dropWhile (· ≠ '*') = rest.dropWhile (· ≠ '*') := by simp [h]
  have htake : (c :: rest).takeWhile (· ≠ '*') = c :: rest.takeWhile (· ≠ '*') := by simp [h]
  rw [spansFrom, spansFrom]
  split
  · rename_i hnil
    split
    · simp
    · rename_i hcons
      rw [hdrop, hcons] at hnil
      cases hnil
  · rename_i hcons
    split
    · rename_i hnil
      rw [hdrop, hnil] at hcons
      cases hcons
    · rename_i hcons'
      rw [hdrop, hcons'] at hcons
      obtain ⟨rfl, rfl⟩ := List.cons.inj hcons
      rw [htake]
      simp

theorem spansFrom_bold : spansFrom text b i ('*' :: '*' :: rest) =
    if b = false ∧ ¬['*', '*'] <:+: rest then spansFrom (text ++ ['*', '*']) b i rest
    else push text b i ++ spansFrom [] (!b) i rest := by
  rw [spansFrom]
  split
  · simp_all
  · rename_i h
    obtain ⟨rfl, rfl⟩ : '*' = _ ∧ '*' :: rest = _ := by simpa using h
    simp [markAt, Mark.chars]

theorem spansFrom_italic (hone : rest.head? ≠ some '*') : spansFrom text b i ('*' :: rest) =
    if i = false ∧ ¬['*'] <:+: rest then spansFrom (text ++ ['*']) b i rest
    else push text b i ++ spansFrom [] b (!i) rest := by
  rw [spansFrom]
  split
  · simp_all
  · rename_i h
    obtain ⟨rfl, rfl⟩ : '*' = _ ∧ rest = _ := by simpa using h
    simp [markAt, hone, Mark.chars]

/-! ### Marks that come -/

theorem infix_italic : ['*'] <:+: line ↔ marks line ≠ [] := by
  fun_induction marks line with
  | case1 rest ih | case2 rest _ ih => simp [List.infix_cons_iff, List.cons_prefix_cons]
  | case3 c rest _ hc ih => rw [List.infix_cons_iff, ih, List.cons_prefix_cons, or_iff_right fun h => hc h.1.symm]
  | case4 => simp

theorem infix_bold : ['*', '*'] <:+: line ↔ .bold ∈ marks line := by
  fun_induction marks line with
  | case1 rest ih => simp [List.infix_cons_iff, List.cons_prefix_cons]
  | case2 rest h ih =>
    have hnot : ¬['*', '*'] <+: '*' :: rest := by
      rw [List.cons_prefix_cons]
      rintro ⟨-, tail, rfl⟩
      exact h _ rfl
    rw [List.infix_cons_iff, ih, or_iff_right hnot]
    simp
  | case3 c rest _ hc ih =>
    rw [List.infix_cons_iff, ih, List.cons_prefix_cons, or_iff_right fun h => hc h.1.symm]
  | case4 => simp

/-- Whether italic is open at the end, by the marks that come: the last single star opens when any mark follows it. -/
def leaves : Bool → List Mark → Bool
  | i, [] => i
  | i, .bold :: marks => leaves i marks
  | true, .italic :: marks => leaves false marks
  | false, .italic :: marks => leaves (!marks.isEmpty) marks

theorem leaves_iff {ms : List Mark} : leaves i ms = true ↔
    (Even (ms.count .italic) ↔ i = true) ∧ ms.getLast? ≠ some .italic := by
  induction ms generalizing i with
  | nil => simp [leaves]
  | cons m ms ih =>
    cases m with
    | bold =>
      rw [leaves, ih, List.getLast?_cons, List.count_cons_of_ne (by decide)]
      cases ms.getLast? <;> simp
    | italic => cases i <;> cases ms <;> simp [leaves, ih, List.getLast?_cons_cons, Nat.even_add_one]

theorem Cut.push (h : Cut b i line out b' i') : Cut b i (text ++ line) (push text b i ++ out) b' i' := by
  rw [Spans.push]
  split_ifs with hnil
  · rw [hnil]
    exact h
  · exact .text hnil h

/-- What the loop makes of a line: bold is closed at its end, since a mark for bold opens only when another comes. -/
theorem cut_spansFrom (hb : b = true → .bold ∈ marks rest) :
    Cut b i (text ++ rest) (spansFrom text b i rest) false (leaves i (marks rest)) := by
  fun_induction marks rest generalizing text b i with
  | case1 rest ih =>
    rw [spansFrom_bold, leaves]
    split_ifs with hkeep
    · obtain ⟨rfl, -⟩ := hkeep
      have hcut := @ih (text ++ ['*', '*']) false i (by simp)
      rwa [List.append_assoc] at hcut
    · refine (Cut.bold (@ih [] (!b) i fun hopen => ?_)).push
      cases b with
      | true => cases hopen
      | false => exact infix_bold.mp (Classical.not_not.mp fun hnone => hkeep ⟨rfl, hnone⟩)
  | case2 rest h ih =>
    have hhead : rest.head? ≠ some '*' := fun hstar => (List.head?_eq_some_iff.mp hstar).elim h
    have hb : b = true → .bold ∈ marks rest := by simpa using hb
    rw [spansFrom_italic hhead]
    split_ifs with hkeep
    · obtain ⟨rfl, hnone⟩ := hkeep
      have hnone : marks rest = [] := Classical.not_not.mp (infix_italic.not.mp hnone)
      have hcut := @ih (text ++ ['*']) b false hb
      rw [hnone] at hcut ⊢
      rwa [List.append_assoc] at hcut
    · have hcut := @Cut.push text _ _ _ _ _ _ (.italic (@ih [] b (!i) hb))
      cases i with
      | true => exact hcut
      | false =>
        have hsome : marks rest ≠ [] := infix_italic.mp (Classical.not_not.mp fun hnone => hkeep ⟨rfl, hnone⟩)
        rwa [leaves, List.isEmpty_eq_false_iff.mpr hsome]
  | case3 c rest _ hc ih =>
    rw [spansFrom_char fun h => hc h]
    have hcut := @ih (text ++ [c]) b i hb
    rwa [List.append_assoc] at hcut
  | case4 =>
    have hb : b = false := by simpa using hb
    rw [spansFrom_nil, hb]
    have hcut := @Cut.push text [] false i false i [] .done
    simpa [leaves] using hcut

theorem cut_parity (h : Cut b i line out b' i') :
    Even (line.count '*' + (out.flatMap Span.text).count '*') ↔ i = i' := by
  induction h with
  | done => simp
  | text _ _ ih =>
    rw [← ih, List.flatMap_cons, List.count_append, List.count_append, Nat.add_add_add_comm, Nat.even_add]
    simp
  | bold _ ih =>
    rw [← ih, List.count_cons_self, List.count_cons_self, Nat.add_right_comm, Nat.even_add_one, Nat.add_right_comm,
      Nat.even_add_one, not_not]
  | @italic _ i _ i' _ _ _ ih =>
    rw [List.count_cons_self, Nat.add_right_comm, Nat.even_add_one, ih]
    cases i <;> cases i' <;> simp

theorem paired_iff : Paired line (spans line) ↔ leaves false (marks line) = false := by
  have hcut := @cut_spansFrom [] line false false (by simp)
  constructor
  · intro h
    exact ((cut_parity hcut).mp ((cut_parity h).mpr rfl)).symm
  · intro h
    rw [h] at hcut
    exact hcut

/-- The marks that a line loses come in pairs exactly when its single stars are even in number, or one of them is its last
    mark. -/
theorem spans_pair_iff (line : List Char) : Paired line (spans line) ↔
    Even ((marks line).count .italic) ∨ (marks line).getLast? = some .italic := by
  rw [paired_iff, ← Bool.not_eq_true, leaves_iff]
  simp [or_iff_not_imp_left]

/-- A single star takes half of a double one as its partner: nothing closes italic. -/
theorem star_left_open : ¬Paired "*a**".toList (spans "*a**".toList) := by
  rw [paired_iff]
  decide

end Kodosi.Docx.Spans
