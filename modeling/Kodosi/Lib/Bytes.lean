import Mathlib

/-! Bytes of numbers and of texts: a number as so many big-endian bytes, a text as its UTF-8 bytes or as
    hexadecimal digits of bytes, and the way back. -/

namespace Kodosi.Lib

/-- The last `k` bytes of a number, the highest one first. -/
def toBe : Nat → Nat → List UInt8
  | 0, _ => []
  | k + 1, n => toBe k (n / 256) ++ [UInt8.ofNat n]

/-- The number that big-endian bytes stand for. -/
def ofBe (bytes : List UInt8) : Nat := bytes.foldl (fun n b => n * 256 + b.toNat) 0

@[simp] theorem length_toBe : ∀ k n, (toBe k n).length = k
  | 0, _ => rfl
  | k + 1, n => by rw [toBe, List.length_append, length_toBe k, List.length_singleton]

theorem ofBe_toBe : ∀ k n, n < 256 ^ k → ofBe (toBe k n) = n
  | 0, n, h => by
    have : n = 0 := by simpa using h
    rw [this]
    rfl
  | k + 1, n, h => by
    have hdiv : n / 256 < 256 ^ k := Nat.div_lt_of_lt_mul (by rw [Nat.pow_succ] at h; omega)
    have hrest := ofBe_toBe k (n / 256) hdiv
    rw [ofBe] at hrest
    rw [toBe, ofBe, List.foldl_append, hrest, List.foldl_cons, List.foldl_nil]
    have : (UInt8.ofNat n).toNat = n % 256 := by simp
    omega

/-- The UTF-8 bytes of a text. -/
def utf8 (s : String) : List UInt8 := s.toUTF8.data.toList

/-- The text of UTF-8 bytes, when they are ones. -/
def ofUtf8 (bytes : List UInt8) : Option String := String.fromUTF8? ⟨bytes.toArray⟩

@[simp] theorem ofUtf8_utf8 (s : String) : ofUtf8 (utf8 s) = some s := by
  have : (⟨s.toByteArray.data.toList.toArray⟩ : ByteArray) = s.toByteArray := by simp
  rw [ofUtf8, utf8, String.toUTF8_eq_toByteArray, this, String.fromUTF8?, dif_pos s.isValidUTF8]
  rfl

def hexValue (c : Char) : Option Nat :=
  if '0' ≤ c ∧ c ≤ '9' then some (c.toNat - '0'.toNat)
  else if 'a' ≤ c ∧ c ≤ 'f' then some (c.toNat - 'a'.toNat + 10)
  else if 'A' ≤ c ∧ c ≤ 'F' then some (c.toNat - 'A'.toNat + 10)
  else none

/-- The bytes of pairs of hexadecimal characters. A plus may stand before a single one. -/
def hexPairs : List Char → Option (List UInt8)
  | [] => some []
  | '+' :: low :: rest => do
    let low ← hexValue low
    let rest ← hexPairs rest
    pure (low.toUInt8 :: rest)
  | high :: low :: rest => do
    let high ← hexValue high
    let low ← hexValue low
    let rest ← hexPairs rest
    pure ((high * 16 + low).toUInt8 :: rest)
  | [_] => none

/-- The white space of Unicode. -/
def isWhitespace (c : Char) : Bool :=
  let n := c.toNat
  (9 ≤ n && n ≤ 13) || n == 0x20 || n == 0x85 || n == 0xA0 || n == 0x1680 ||
    (0x2000 ≤ n && n ≤ 0x200A) || n == 0x2028 || n == 0x2029 || n == 0x202F || n == 0x205F || n == 0x3000

end Kodosi.Lib
