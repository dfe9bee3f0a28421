import Kodosi.Lib.Rounding
import Kodosi.Wire.Codec

/-! The padding of a frame hides its size within a bound that grows with the size. The step that a length is
    rounded to is a power of two of its bit length, so each change of the step is at a power of two, which
    all smaller steps divide. -/

namespace Kodosi.Wire
open Kodosi.Lib

variable {length m : Nat}

/-! ### The step -/

/-- The step that `padded` rounds a length above 1024 to. -/
def stepOf (exponent : Nat) : Nat := 2 ^ (exponent - (exponent.log2 + 1))

theorem stepOf_pos (exponent : Nat) : 0 < stepOf exponent := Nat.two_pow_pos _

theorem stepOf_dvd (exponent : Nat) : stepOf exponent ∣ 2 ^ exponent := Nat.pow_dvd_pow 2 (Nat.sub_le _ _)

/-- From the exponent 4 on a step is at most an eighth of its power of two. -/
theorem stepOf_le {exponent : Nat} (h : 4 ≤ exponent) : 8 * stepOf exponent ≤ 2 ^ exponent := by
  have hbits : 2 ≤ exponent.log2 := (Nat.le_log2 (by omega)).mpr (by omega)
  have hle : exponent.log2 + 1 ≤ exponent := (Nat.log2_lt (by omega)).mpr Nat.lt_two_pow_self
  calc 8 * stepOf exponent = 2 ^ (3 + (exponent - (exponent.log2 + 1))) := by rw [stepOf, Nat.pow_add]
    _ ≤ 2 ^ exponent := Nat.pow_le_pow_right (by omega) (by omega)

theorem padded_short (h : length ≤ 1024) : padded length = roundUp 64 length := if_pos h

theorem padded_long (h : 1024 < length) : padded length = roundUp (stepOf length.log2) length :=
  if_neg (by omega)

theorem ten_le_log2 (h : 1024 < length) : 10 ≤ length.log2 := (Nat.le_log2 (by omega)).mpr (by omega)

/-! ### The bounds -/

theorem le_padded (length : Nat) : length ≤ padded length := by
  rcases Nat.lt_or_ge 1024 length with h | h
  · rw [padded_long h]
    exact le_roundUp (stepOf_pos _)
  · rw [padded_short h]
    exact le_roundUp (by omega)

theorem padded_excess (h : 1024 < length) : 8 * (padded length - length) ≤ length := by
  have hlt := roundUp_lt (n := length) (stepOf_pos length.log2)
  have hstep := stepOf_le (show 4 ≤ length.log2 by have := ten_le_log2 h; omega)
  have hself := Nat.log2_self_le (n := length) (by omega)
  rw [padded_long h]
  omega

/-- A length is not padded past the next power of two, where the step changes. -/
theorem padded_le_pow (h : 1024 < length) : padded length ≤ 2 ^ (length.log2 + 1) := by
  rw [padded_long h]
  exact roundUp_le Nat.lt_log2_self.le ((stepOf_dvd _).trans (Nat.pow_dvd_pow 2 (by omega)))

theorem padded_mono (h : length ≤ m) : padded length ≤ padded m := by
  rcases Nat.lt_or_ge 1024 length with hlong | hshort
  · have hm : 1024 < m := by omega
    have hlog : length.log2 ≤ m.log2 := (Nat.le_log2 (by omega)).mpr ((Nat.log2_self_le (by omega)).trans h)
    rcases hlog.lt_or_eq with hlt | heq
    · calc padded length ≤ 2 ^ (length.log2 + 1) := padded_le_pow hlong
        _ ≤ 2 ^ m.log2 := Nat.pow_le_pow_right (by omega) hlt
        _ ≤ m := Nat.log2_self_le (by omega)
        _ ≤ padded m := le_padded m
    · rw [padded_long hlong, padded_long hm, heq]
      exact roundUp_mono h
  · rw [padded_short hshort]
    rcases Nat.lt_or_ge 1024 m with hm | hm
    · calc roundUp 64 length ≤ 1024 := roundUp_le hshort (by norm_num)
        _ ≤ m := hm.le
        _ ≤ padded m := le_padded m
    · rw [padded_short hm]
      exact roundUp_mono h

theorem padded_padded (length : Nat) : padded (padded length) = padded length := by
  rcases Nat.lt_or_ge 1024 length with h | h
  · have hle := le_padded length
    have hlong : 1024 < padded length := by omega
    have hmost := padded_le_pow h
    have hpow := Nat.log2_self_le (n := length) (by omega)
    rw [padded_long hlong]
    refine roundUp_of_dvd ?_
    -- Either the step stays, or the length grew to the power of two where the next step begins.
    rcases hmost.lt_or_eq with hlt | heq
    · have hlog : (padded length).log2 = length.log2 := (Nat.log2_eq_iff (by omega)).mpr ⟨by omega, hlt⟩
      rw [hlog, padded_long h]
      exact dvd_roundUp
    · have hlog : (padded length).log2 = length.log2 + 1 :=
        (Nat.log2_eq_iff (by omega)).mpr ⟨by omega, by rw [heq]; exact Nat.pow_lt_pow_right (by omega) (by omega)⟩
      rw [hlog, heq]
      exact stepOf_dvd _
  · have hle : padded length ≤ 1024 := by
      rw [padded_short h]
      exact roundUp_le h (by norm_num)
    rw [padded_short hle, padded_short h]
    exact roundUp_of_dvd dvd_roundUp

/-! ### The machine's words -/

abbrev Usize := BitVec 64

def divCeil (a b : Usize) : Usize := a / b + if a % b = 0 then 0 else 1

def bitWidth (x : Usize) : Usize := 64 - x.clz

/-- `padded` with the operations of the code on words: shifts, a mask and its complement. -/
def paddedWord (length : Usize) : Usize :=
  if length ≤ 1024 then divCeil length 64 * 64
  else
    let exponent := 64 - 1 - length.clz
    let bits := bitWidth exponent
    let mask : Usize := ((1 : Usize) <<< (exponent - bits)) - 1
    (length + mask) &&& ~~~mask

variable {x : Usize}

theorem toNat_clz (h : x ≠ 0) : x.clz.toNat = 63 - x.toNat.log2 ∧ x.toNat.log2 ≤ 63 := by
  have hlo := BitVec.two_pow_sub_clz_le_toNat_of_ne_zero (by omega) h
  have hhi := BitVec.toNat_lt_two_pow_sub_clz (x := x)
  have hlt : x.clz.toNat < 64 := by simpa [BitVec.lt_def] using BitVec.clz_lt_iff_ne_zero.mpr h
  have hne : x.toNat ≠ 0 := fun h' => h (BitVec.eq_of_toNat_eq (by simpa using h'))
  have hlog : x.toNat.log2 = 63 - x.clz.toNat := by
    refine (Nat.log2_eq_iff hne).mpr ⟨?_, ?_⟩
    · convert hlo using 2
    · convert hhi using 2; omega
  omega

theorem toNat_bitWidth (h : x ≠ 0) : (bitWidth x).toNat = x.toNat.log2 + 1 := by
  have hclz := toNat_clz h
  rw [bitWidth, BitVec.toNat_sub, show (64 : Usize).toNat = 64 from rfl]
  omega

/-- Clearing the low bits of a word rounds it down. -/
theorem and_not_mask (x : Usize) {k : Nat} (h : k < 64) :
    (x &&& ~~~((1 : Usize) <<< k - 1)).toNat = x.toNat / 2 ^ k * 2 ^ k := by
  have hpow : 2 ^ k < 2 ^ 64 := Nat.pow_lt_pow_right (by omega) h
  have hmask : (1 : Usize) <<< k - 1 = BitVec.ofNat 64 (2 ^ k - 1) := by
    apply BitVec.eq_of_toNat_eq
    rw [BitVec.toNat_sub, BitVec.toNat_shiftLeft, BitVec.toNat_ofNat]
    have hpos := Nat.two_pow_pos k
    simp only [Nat.one_shiftLeft, show (1 : Usize).toNat = 1 from rfl]
    omega
  have hshift : x &&& ~~~(BitVec.ofNat 64 (2 ^ k - 1)) = (x >>> k) <<< k := by
    apply BitVec.eq_of_getLsbD_eq
    intro i hi
    have hbit : (BitVec.ofNat 64 (2 ^ k - 1)).getLsbD i = decide (i < k) := by
      rw [BitVec.getLsbD_ofNat, Nat.testBit_two_pow_sub_one, decide_eq_true hi, Bool.true_and]
    rw [BitVec.getLsbD_and, BitVec.getLsbD_not, hbit, BitVec.getLsbD_shiftLeft, BitVec.getLsbD_ushiftRight]
    by_cases hik : i < k
    · simp [hi, hik]
    · simp [hi, hik, Nat.add_sub_cancel' (Nat.le_of_not_lt hik)]
  rw [hmask, hshift, BitVec.toNat_shiftLeft, BitVec.toNat_ushiftRight, Nat.shiftLeft_eq, Nat.shiftRight_eq_div_pow]
  exact Nat.mod_eq_of_lt ((Nat.div_mul_le_self _ _).trans_lt x.isLt)

theorem toNat_divCeil (h : x.toNat ≤ 1024) : (divCeil x 64 * 64).toNat = roundUp 64 x.toNat := by
  have hdiv : (divCeil x 64).toNat = x.toNat / 64 + if x.toNat % 64 = 0 then 0 else 1 := by
    have hmod : x % 64 = 0 ↔ x.toNat % 64 = 0 := by
      rw [← BitVec.toNat_inj, BitVec.toNat_umod]
      rfl
    rw [divCeil, BitVec.toNat_add, BitVec.toNat_udiv, show (64 : Usize).toNat = 64 from rfl]
    simp only [hmod]
    split
    · rw [show (0 : Usize).toNat = 0 from rfl]
      omega
    · rw [show (1 : Usize).toNat = 1 from rfl]
      omega
  rw [BitVec.toNat_mul, hdiv, roundUp, show (64 : Usize).toNat = 64 from rfl]
  split <;> omega

/-- On words no operation overflows, and they give the padded length. -/
theorem toNat_paddedWord (h : x.toNat ≤ FRAME_LIMIT) : (paddedWord x).toNat = padded x.toNat := by
  rcases Nat.lt_or_ge 1024 x.toNat with hlong | hshort
  · have hx : x ≠ 0 := by rintro rfl; simp at hlong
    have hclz := toNat_clz hx
    have hlimit : FRAME_LIMIT < 2 ^ 21 := by decide
    have hten := ten_le_log2 hlong
    have hexp : (64 - 1 - x.clz).toNat = x.toNat.log2 := by
      rw [BitVec.toNat_sub, show (64 - 1 : Usize).toNat = 63 from rfl]
      omega
    have hlog : x.toNat.log2 < 21 := (Nat.log2_lt (by omega)).mpr (by omega)
    have hbits : (bitWidth (64 - 1 - x.clz)).toNat = x.toNat.log2.log2 + 1 := by
      rw [toNat_bitWidth (fun h0 => by rw [h0] at hexp; simp at hexp; omega), hexp]
    have hwidth : x.toNat.log2.log2 + 1 ≤ x.toNat.log2 := (Nat.log2_lt (by omega)).mpr Nat.lt_two_pow_self
    have hshift : (64 - 1 - x.clz - bitWidth (64 - 1 - x.clz)).toNat = x.toNat.log2 - (x.toNat.log2.log2 + 1) := by
      rw [BitVec.toNat_sub, hexp, hbits]
      omega
    have hstep := stepOf_le (show 4 ≤ x.toNat.log2 by omega)
    have hself := Nat.log2_self_le (n := x.toNat) (by omega)
    have hpos := stepOf_pos x.toNat.log2
    have hmask : ((1 : Usize) <<< (x.toNat.log2 - (x.toNat.log2.log2 + 1)) - 1).toNat = stepOf x.toNat.log2 - 1 := by
      rw [BitVec.toNat_sub, BitVec.toNat_shiftLeft, show (1 : Usize).toNat = 1 from rfl, Nat.one_shiftLeft,
        ← stepOf]
      omega
    rw [padded_long hlong, paddedWord, if_neg (by simpa [BitVec.le_def] using hlong)]
    simp only [BitVec.shiftLeft_eq', hshift]
    rw [and_not_mask _ (by omega), BitVec.toNat_add, hmask, ← stepOf, roundUp]
    rw [Nat.mod_eq_of_lt (by omega)]
  · rw [padded_short hshort, paddedWord, if_pos (by simpa [BitVec.le_def] using hshort)]
    exact toNat_divCeil hshort

/-- Padding hides the size of a frame within its bound: a length is never cut, grows by less than 64 bytes up to
    1 KiB and by at most an eighth above, keeps the order of lengths, and padding it again changes nothing. -/
theorem padding_hides {length : Nat} (h : length ≤ FRAME_LIMIT) :
    (paddedWord (BitVec.ofNat 64 length)).toNat = padded length ∧ length ≤ padded length ∧
      (length ≤ 1024 → padded length < length + 64) ∧ (1024 < length → 8 * (padded length - length) ≤ length) ∧
      (∀ m, length ≤ m → m ≤ FRAME_LIMIT → padded length ≤ padded m) ∧ padded (padded length) = padded length := by
  have hlimit : FRAME_LIMIT < 2 ^ 64 := by decide
  have hnat : (BitVec.ofNat 64 length).toNat = length := Nat.mod_eq_of_lt (by omega)
  have hword := toNat_paddedWord (x := BitVec.ofNat 64 length) (by omega)
  rw [hnat] at hword
  refine ⟨hword, le_padded length, fun hshort => ?_, padded_excess, fun _ hm _ => padded_mono hm, padded_padded length⟩
  rw [padded_short hshort]
  exact roundUp_lt (by omega)

theorem padding_hides_last : FRAME_LIMIT - 1 ≤ FRAME_LIMIT ∧ padded (FRAME_LIMIT - 1) = FRAME_LIMIT ∧
    padded (padded (FRAME_LIMIT - 1)) = padded (FRAME_LIMIT - 1) :=
  ⟨by decide, by decide +kernel, (padding_hides (show FRAME_LIMIT - 1 ≤ FRAME_LIMIT by decide)).2.2.2.2.2⟩

end Kodosi.Wire
