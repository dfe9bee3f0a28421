import Mathlib

/-! Numerals: those without a zero digit, whose digits go from one to the base, and decimal ones. -/

namespace Kodosi.Lib

/-! ### Numerals without a zero -/

/-- The number that digits from one to the base stand for. -/
def ofBijective (base : Nat) (digits : List Nat) : Nat := digits.foldl (fun n d => n * base + d) 0

theorem ofBijective_concat (base : Nat) (digits : List Nat) (d : Nat) :
    ofBijective base (digits ++ [d]) = ofBijective base digits * base + d := by
  rw [ofBijective, List.foldl_append]
  rfl

/-- Where the last digit goes from one to the base, a number has one last digit and one rest. -/
theorem last_unique {base n m d e : Nat} (hd : 1 ≤ d ∧ d ≤ base) (he : 1 ≤ e ∧ e ≤ base)
    (h : n * base + d = m * base + e) : n = m ∧ d = e := by
  have hbase : 0 < base := by omega
  have hless : n * base + (d - 1) = m * base + (e - 1) := by omega
  have hdiv := congrArg (· / base) hless
  rw [Nat.mul_comm n, Nat.mul_comm m, Nat.mul_add_div hbase, Nat.mul_add_div hbase,
    Nat.div_eq_of_lt (by omega), Nat.div_eq_of_lt (by omega)] at hdiv
  obtain rfl : n = m := hdiv
  exact ⟨rfl, by omega⟩

/-- No two numerals without a zero stand for one number. -/
theorem ofBijective_inj {base : Nat} {digits others : List Nat} (hdigits : ∀ d ∈ digits, 1 ≤ d ∧ d ≤ base)
    (hothers : ∀ d ∈ others, 1 ≤ d ∧ d ≤ base) (h : ofBijective base digits = ofBijective base others) :
    digits = others := by
  induction digits using List.reverseRecOn generalizing others with
  | nil =>
    rcases List.eq_nil_or_concat others with rfl | ⟨rest, e, rfl⟩
    · rfl
    · rw [List.concat_eq_append] at hothers h
      have he := hothers e (by simp)
      rw [ofBijective_concat] at h
      have hzero : ofBijective base [] = 0 := rfl
      omega
  | append_singleton digits d ih =>
    have hd := hdigits d (by simp)
    rw [ofBijective_concat] at h
    rcases List.eq_nil_or_concat others with rfl | ⟨rest, e, rfl⟩
    · have hzero : ofBijective base [] = 0 := rfl
      omega
    · rw [List.concat_eq_append] at hothers h ⊢
      rw [ofBijective_concat] at h
      obtain ⟨hrest, rfl⟩ := last_unique hd (hothers e (by simp)) h
      rw [ih (fun c hc => hdigits c (List.mem_append_left _ hc)) (fun c hc => hothers c (List.mem_append_left _ hc)) hrest]

/-! ### Decimal numerals -/

theorem digitChar_digit {c : Char} (h : c.isDigit = true) : (c.toNat - '0'.toNat).digitChar = c ∧
    c.toNat - '0'.toNat < 10 := by
  have hrange : 48 ≤ c.toNat ∧ c.toNat ≤ 57 := Char.isDigit_iff_toNat.mp h
  have hzero : '0'.toNat = 48 := rfl
  have hlt : c.toNat - '0'.toNat < 10 := by omega
  refine ⟨Char.toNat_inj.mp ?_, hlt⟩
  rw [Nat.toNat_digitChar_of_lt_ten hlt]
  omega

/-- Digits behind a number that is not zero are the digits of the number that both make. -/
theorem toDigits_append_digits : ∀ {cs : List Char} {n : Nat}, (∀ c ∈ cs, c.isDigit = true) → 0 < n →
    Nat.toDigits 10 n ++ cs = Nat.toDigits 10 (Nat.ofDigitChars 10 cs n)
  | [], n, _, _ => by rw [List.append_nil, Nat.ofDigitChars_nil]
  | c :: cs, n, hdigits, hn => by
    obtain ⟨hc, hcs⟩ := List.forall_mem_cons.mp hdigits
    obtain ⟨hchar, hlt⟩ := digitChar_digit hc
    have hone := Nat.toDigits_append_toDigits (b := 10) (by decide) hn hlt
    rw [Nat.toDigits_of_lt_base hlt, hchar] at hone
    rw [Nat.ofDigitChars_cons, ← toDigits_append_digits hcs (by omega), ← hone, List.append_assoc]
    rfl

/-- Digits are those of the number that they stand for, behind zeros. -/
theorem zeros_toDigits : ∀ {cs : List Char}, (∀ c ∈ cs, c.isDigit = true) → 0 < Nat.ofDigitChars 10 cs 0 →
    ∃ zeros, cs = List.replicate zeros '0' ++ Nat.toDigits 10 (Nat.ofDigitChars 10 cs 0)
  | [], _, hpos => by simp at hpos
  | c :: cs, hdigits, hpos => by
    obtain ⟨hc, hcs⟩ := List.forall_mem_cons.mp hdigits
    obtain ⟨hchar, hlt⟩ := digitChar_digit hc
    rw [Nat.ofDigitChars_cons, Nat.mul_zero, Nat.zero_add] at hpos ⊢
    by_cases hzero : c.toNat - '0'.toNat = 0
    · rw [hzero] at hpos ⊢
      obtain ⟨zeros, hrest⟩ := zeros_toDigits hcs hpos
      rw [hzero] at hchar
      obtain rfl : '0' = c := hchar
      exact ⟨zeros + 1, by rw [List.replicate_succ, List.cons_append, ← hrest]⟩
    · refine ⟨0, ?_⟩
      rw [← toDigits_append_digits hcs (by omega), Nat.toDigits_of_lt_base hlt, hchar]
      rfl

end Kodosi.Lib
