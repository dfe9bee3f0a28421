import Kodosi.Lib.Bytes

/-! A log of records, each written so that a reader knows where it ends. Of a log that is cut anywhere, a reader finds
    the records that are whole in front of the cut. -/

namespace Kodosi.Lib

variable {α β : Type*} {next : List UInt8 → Option (β × List UInt8)} {fits : α → Prop} {value : α → β}
  {write : α → List UInt8}

/-- A reader that gives the value of a record where a whole one stands in front, and nothing where only a part of one
    is left. -/
structure Delimits (next : List UInt8 → Option (β × List UInt8)) (fits : α → Prop) (value : α → β)
    (write : α → List UInt8) : Prop where
  whole : ∀ a, fits a → ∀ rest, next (write a ++ rest) = some (value a, rest)
  torn : ∀ a, fits a → ∀ n, n < (write a).length → next ((write a).take n) = none
  done : next [] = none

/-- The bytes of a log. -/
def logged (write : α → List UInt8) (as : List α) : List UInt8 := as.flatMap write

/-- The records that are whole in the first `n` bytes of a log. -/
def wholeIn (write : α → List UInt8) : List α → Nat → List α
  | [], _ => []
  | a :: as, n => if (write a).length ≤ n then a :: wholeIn write as (n - (write a).length) else []

@[simp] theorem logged_nil : logged write [] = [] := rfl

@[simp] theorem logged_cons (a : α) (as : List α) : logged write (a :: as) = write a ++ logged write as :=
  List.flatMap_cons

@[simp] theorem logged_append (as bs : List α) : logged write (as ++ bs) = logged write as ++ logged write bs :=
  List.flatMap_append

theorem logged_singleton (a : α) : logged write [a] = write a := List.append_nil _

/-! ### Where a log is cut -/

theorem wholeIn_sub : ∀ (as : List α) (n : Nat), wholeIn write as n <+: as
  | [], _ => List.prefix_refl []
  | a :: as, n => by
    rw [wholeIn]
    by_cases h : (write a).length ≤ n
    · rw [if_pos h]
      exact List.cons_prefix_cons.mpr ⟨rfl, wholeIn_sub as _⟩
    · rw [if_neg h]
      exact List.nil_prefix

theorem length_wholeIn_le : ∀ (as : List α) (n : Nat), (logged write (wholeIn write as n)).length ≤ n
  | [], _ => Nat.zero_le _
  | a :: as, n => by
    rw [wholeIn]
    by_cases h : (write a).length ≤ n
    · have hrest := length_wholeIn_le as (n - (write a).length)
      rw [if_pos h, logged_cons, List.length_append]
      omega
    · rw [if_neg h]
      exact Nat.zero_le n

/-- No longer run of whole records fits. -/
theorem wholeIn_longest : ∀ {as bs : List α} {n : Nat}, bs <+: as → (logged write bs).length ≤ n →
    bs <+: wholeIn write as n
  | _, [], _, _, _ => List.nil_prefix
  | [], b :: bs, _, h, _ => absurd (List.prefix_nil.mp h) (List.cons_ne_nil b bs)
  | a :: as, b :: bs, n, h, hn => by
    obtain ⟨rfl, hbs⟩ := List.cons_prefix_cons.mp h
    rw [logged_cons, List.length_append] at hn
    rw [wholeIn, if_pos (by omega)]
    exact List.cons_prefix_cons.mpr ⟨rfl, wholeIn_longest hbs (by omega)⟩

/-- A log that is not cut is whole. -/
theorem wholeIn_all {as : List α} {n : Nat} (h : (logged write as).length ≤ n) : wholeIn write as n = as :=
  (wholeIn_sub as n).eq_of_length_le (wholeIn_longest (List.prefix_refl as) h).length_le

/-- One record from the front of a log that is cut. -/
theorem Delimits.next_cut (h : Delimits next fits value write) {a : α} (ha : fits a) (as : List α) (n : Nat) :
    next ((logged write (a :: as)).take n) =
      if (write a).length ≤ n then some (value a, (logged write as).take (n - (write a).length)) else none := by
  rw [logged_cons, List.take_append]
  by_cases hn : (write a).length ≤ n
  · rw [if_pos hn, List.take_of_length_le hn, h.whole a ha]
  · rw [if_neg hn, Nat.sub_eq_zero_of_le (by omega), List.take_zero, List.append_nil, h.torn a ha n (by omega)]

end Kodosi.Lib
