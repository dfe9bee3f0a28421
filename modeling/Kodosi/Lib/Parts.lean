import Mathlib

/-! Messages cut into parts: what the parts join to, and what is left of a message that has not ended. -/

namespace Kodosi.Lib

variable {α : Type}

/-- A part of a message, and whether more parts of it come. -/
structure Piece (α : Type) where
  more : Bool
  data : List α

/-- How many parts of `n` a length takes. -/
def partCount (n length : Nat) : Nat := (length + n - 1) / n

/-- The parts of a message, each as long as it may be. -/
def parts (n : Nat) (message : List α) : List (Piece α) :=
  (List.range (partCount n message.length)).map fun i =>
    ⟨i + 1 < partCount n message.length, (message.drop (i * n)).take n⟩

/-- What parts join to behind the beginning of a message: the messages that end, and the beginning of the next one. -/
def join (filling : List α) : List (Piece α) → List (List α) × List α
  | [] => ([], filling)
  | part :: rest =>
    if part.more then join (filling ++ part.data) rest
    else ((filling ++ part.data) :: (join [] rest).1, (join [] rest).2)

theorem join_append (filling : List α) (ps qs : List (Piece α)) :
    join filling (ps ++ qs) = ((join filling ps).1 ++ (join (join filling ps).2 qs).1, (join (join filling ps).2 qs).2) := by
  induction ps generalizing filling with
  | nil => rfl
  | cons part rest ih =>
    rw [List.cons_append, join, join]
    by_cases hmore : part.more = true
    · rw [if_pos hmore, if_pos hmore, ih]
    · rw [if_neg hmore, if_neg hmore, ih]
      rfl

variable {n : Nat} {message : List α}

theorem partCount_pos (hn : 0 < n) {length : Nat} (h : 0 < length) : 0 < partCount n length :=
  Nat.div_pos (by omega) hn

theorem length_le_parts (hn : 0 < n) (length : Nat) : length ≤ partCount n length * n := by
  have hdiv := Nat.div_add_mod (length + n - 1) n
  have hmod := Nat.mod_lt (length + n - 1) hn
  rw [partCount, Nat.mul_comm]
  omega

theorem partCount_zero (hn : 0 < n) : partCount n 0 = 0 := Nat.div_eq_of_lt (by omega)

/-- From any part on, the rest of the parts gives the message. -/
theorem join_rest (hn : 0 < n) (message : List α) : ∀ (k i : Nat), i + (k + 1) = partCount n message.length →
    join (message.take (i * n)) ((List.range' i (k + 1)).map fun i =>
      (⟨i + 1 < partCount n message.length, (message.drop (i * n)).take n⟩ : Piece α)) = ([message], []) := by
  intro k
  induction k with
  | zero =>
    intro i hi
    have hall : message.take (i * n) ++ (message.drop (i * n)).take n = message := by
      have hlength := length_le_parts hn message.length
      rw [← List.take_add, ← Nat.succ_mul]
      refine List.take_of_length_le ?_
      rw [show i.succ = partCount n message.length by omega]
      exact hlength
    rw [show List.range' i (0 + 1) = [i] from rfl, List.map_cons, List.map_nil, join, if_neg (by simp; omega), hall]
    rfl
  | succ k ih =>
    intro i hi
    have hnext := ih (i + 1) (by omega)
    rw [List.range'_succ, List.map_cons, join, if_pos (by simp; omega), ← List.take_add, ← Nat.succ_mul]
    exact hnext

/-- The parts of a message join to it, except that an empty message has no parts. -/
theorem join_parts (hn : 0 < n) (message : List α) : join [] (parts n message) = ([message].filter (· ≠ []), []) := by
  by_cases hempty : message = []
  · subst hempty
    rw [parts, List.length_nil, partCount_zero hn]
    rfl
  · have hpos := partCount_pos hn (List.length_pos_of_ne_nil hempty)
    obtain ⟨k, hk⟩ := Nat.exists_eq_add_of_lt hpos
    have hrest := join_rest hn message k 0 (by omega)
    rw [Nat.zero_mul, List.take_zero] at hrest
    rw [parts, List.range_eq_range', show partCount n message.length = k + 1 by omega]
    rw [show partCount n message.length = k + 1 by omega] at hrest
    rw [hrest, List.filter_cons_of_pos (by simpa using hempty), List.filter_nil]

/-- What waits to be joined fits into the message that it belongs to. -/
theorem join_fits : ∀ {rest : List (Piece α)} {filling : List α} {messages : List (List α)} {part : Piece α},
    filling ++ part.data ≠ [] → join filling (part :: rest) = (messages, []) →
      ∃ m ∈ messages, filling.length + part.data.length ≤ m.length := by
  intro rest
  induction rest with
  | nil =>
    intro filling messages part hne h
    rw [join] at h
    by_cases hmore : part.more = true
    · rw [if_pos hmore] at h
      exact absurd (Prod.mk.inj h).2 hne
    · rw [if_neg hmore] at h
      obtain ⟨rfl, -⟩ := Prod.mk.inj h
      exact ⟨_, List.mem_cons_self, by rw [List.length_append]⟩
  | cons next rest ih =>
    intro filling messages part hne h
    rw [join] at h
    by_cases hmore : part.more = true
    · rw [if_pos hmore] at h
      obtain ⟨m, hm, hle⟩ := ih (fun hnil => hne (List.append_eq_nil_iff.mp hnil).1) h
      rw [List.length_append] at hle
      exact ⟨m, hm, by omega⟩
    · rw [if_neg hmore] at h
      obtain ⟨rfl, -⟩ := Prod.mk.inj h
      exact ⟨_, List.mem_cons_self, by rw [List.length_append]⟩

end Kodosi.Lib
