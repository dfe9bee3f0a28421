import Mathlib

/-! Standard base64 with its padding: three bytes in four characters. The decoder takes exactly the texts
    that the encoder writes for some bytes. -/

namespace Kodosi.Lib.Base64

def alphabet : List Char :=
  "ABCDEFGHIJKLMNOPQRSTUVWXYZabcdefghijklmnopqrstuvwxyz0123456789+/".toList

/-- The character of a number below 64. -/
def digit (n : Nat) : Char := alphabet.getD n '='

/-- The number of a character of the alphabet. -/
def value (c : Char) : Option Nat := (alphabet.zipIdx.find? (·.1 == c)).map (·.2)

def encodeList : List UInt8 → List Char
  | [] => []
  | [x] => [digit (x.toNat / 4), digit (x.toNat % 4 * 16), '=', '=']
  | [x, y] => [digit (x.toNat / 4), digit (x.toNat % 4 * 16 + y.toNat / 16),
      digit (y.toNat % 16 * 4), '=']
  | x :: y :: z :: rest => digit (x.toNat / 4) :: digit (x.toNat % 4 * 16 + y.toNat / 16) ::
      digit (y.toNat % 16 * 4 + z.toNat / 64) :: digit (z.toNat % 64) :: encodeList rest

/-- The bytes of four characters that have these numbers. -/
def bytes (a b c d : Nat) : List UInt8 :=
  [UInt8.ofNat (a * 4 + b / 16), UInt8.ofNat (b % 16 * 16 + c / 4), UInt8.ofNat (c % 4 * 64 + d)]

/-- The last four characters may end in padding; the bits that it stands for must be zero. -/
def decodeLast (a b c d : Char) : Option (List UInt8) := do
  let a ← value a
  let b ← value b
  if c = '=' ∧ d = '=' then
    if b % 16 = 0 then some ((bytes a b 0 0).take 1) else none
  else
    let c ← value c
    if d = '=' then
      if c % 4 = 0 then some ((bytes a b c 0).take 2) else none
    else
      let d ← value d
      return bytes a b c d

def decodeList : List Char → Option (List UInt8)
  | [] => some []
  | [a, b, c, d] => decodeLast a b c d
  | a :: b :: c :: d :: rest => do
    let a ← value a
    let b ← value b
    let c ← value c
    let d ← value d
    let rest ← decodeList rest
    return bytes a b c d ++ rest
  | _ => none

def encode (bytes : List UInt8) : String := String.ofList (encodeList bytes)

def decode (text : String) : Option (List UInt8) := decodeList text.toList

theorem value_digit : ∀ n < 64, value (digit n) = some n := by decide +kernel

theorem digit_ne : ∀ n < 64, digit n ≠ '=' := by decide +kernel

theorem digit_ascii : ∀ n < 64, (digit n).utf8Size = 1 := by decide +kernel

theorem ofNat_toNat {x : UInt8} {n : Nat} (h : n = x.toNat) : UInt8.ofNat n = x := by
  rw [h, UInt8.ofNat_toNat]

theorem bytes_eq (x y z : UInt8) : bytes (x.toNat / 4) (x.toNat % 4 * 16 + y.toNat / 16)
    (y.toNat % 16 * 4 + z.toNat / 64) (z.toNat % 64) = [x, y, z] := by
  have hx := x.toNat_lt
  have hy := y.toNat_lt
  have hz := z.toNat_lt
  rw [bytes, ofNat_toNat (x := x) (by omega), ofNat_toNat (x := y) (by omega),
    ofNat_toNat (x := z) (by omega)]

theorem decodeLast_encode (x y z : UInt8) : decodeLast (digit (x.toNat / 4))
    (digit (x.toNat % 4 * 16 + y.toNat / 16)) (digit (y.toNat % 16 * 4 + z.toNat / 64))
    (digit (z.toNat % 64)) = some [x, y, z] := by
  have hx := x.toNat_lt
  have hy := y.toNat_lt
  have hz := z.toNat_lt
  simp only [decodeLast, value_digit _ (show x.toNat / 4 < 64 by omega),
    value_digit _ (show x.toNat % 4 * 16 + y.toNat / 16 < 64 by omega),
    value_digit _ (show y.toNat % 16 * 4 + z.toNat / 64 < 64 by omega),
    value_digit _ (show z.toNat % 64 < 64 by omega), bind, Option.bind,
    digit_ne _ (show z.toNat % 64 < 64 by omega), and_false, if_false, bytes_eq]
  rfl

theorem decodeList_encodeList : ∀ bs, decodeList (encodeList bs) = some bs
  | [] => rfl
  | [x] => by
    have hx := x.toNat_lt
    simp only [encodeList, decodeList, decodeLast, value_digit _ (show x.toNat / 4 < 64 by omega),
      value_digit _ (show x.toNat % 4 * 16 < 64 by omega), bind, Option.bind, bytes, and_self,
      if_true, if_pos (show x.toNat % 4 * 16 % 16 = 0 by omega), List.take]
    rw [ofNat_toNat (x := x) (by omega)]
  | [x, y] => by
    have hx := x.toNat_lt
    have hy := y.toNat_lt
    simp only [encodeList, decodeList, decodeLast, value_digit _ (show x.toNat / 4 < 64 by omega),
      value_digit _ (show x.toNat % 4 * 16 + y.toNat / 16 < 64 by omega),
      value_digit _ (show y.toNat % 16 * 4 < 64 by omega), bind, Option.bind, bytes,
      digit_ne _ (show y.toNat % 16 * 4 < 64 by omega), false_and, if_false, if_true,
      if_pos (show y.toNat % 16 * 4 % 4 = 0 by omega), List.take]
    rw [ofNat_toNat (x := x) (by omega), ofNat_toNat (x := y) (by omega)]
  | [x, y, z] => decodeLast_encode x y z
  | x :: y :: z :: w :: rest => by
    have hx := x.toNat_lt
    have hy := y.toNat_lt
    have hz := z.toNat_lt
    have ih := decodeList_encodeList (w :: rest)
    have hne : encodeList (w :: rest) ≠ [] := by
      rcases rest with _ | ⟨_, _ | ⟨_, _⟩⟩ <;> simp [encodeList]
    rw [encodeList]
    obtain ⟨e, es, he⟩ := List.exists_cons_of_ne_nil hne
    rw [he] at ih ⊢
    simp only [decodeList, value_digit _ (show x.toNat / 4 < 64 by omega),
      value_digit _ (show x.toNat % 4 * 16 + y.toNat / 16 < 64 by omega),
      value_digit _ (show y.toNat % 16 * 4 + z.toNat / 64 < 64 by omega),
      value_digit _ (show z.toNat % 64 < 64 by omega), bind, Option.bind, ih, bytes_eq]
    rfl

/-- What was encoded decodes to the bytes. -/
theorem decode_encode (bs : List UInt8) : decode (encode bs) = some bs := by
  rw [decode, encode, String.toList_ofList, decodeList_encodeList]

theorem size_encodeList : ∀ bs, (encodeList bs).map Char.utf8Size = List.replicate ((bs.length + 2) / 3 * 4) 1
  | [] => rfl
  | [x] => by
    have hx := x.toNat_lt
    simp [encodeList, digit_ascii _ (show x.toNat / 4 < 64 by omega),
      digit_ascii _ (show x.toNat % 4 * 16 < 64 by omega)]
    decide
  | [x, y] => by
    have hx := x.toNat_lt
    have hy := y.toNat_lt
    simp [encodeList, digit_ascii _ (show x.toNat / 4 < 64 by omega),
      digit_ascii _ (show x.toNat % 4 * 16 + y.toNat / 16 < 64 by omega),
      digit_ascii _ (show y.toNat % 16 * 4 < 64 by omega)]
    decide
  | x :: y :: z :: rest => by
    have hx := x.toNat_lt
    have hy := y.toNat_lt
    have hz := z.toNat_lt
    have ih := size_encodeList rest
    have hlen : ((x :: y :: z :: rest).length + 2) / 3 * 4 = (rest.length + 2) / 3 * 4 + 4 := by
      simp only [List.length_cons]
      omega
    rw [hlen, List.replicate_succ, List.replicate_succ, List.replicate_succ, List.replicate_succ]
    simp [encodeList, digit_ascii _ (show x.toNat / 4 < 64 by omega),
      digit_ascii _ (show x.toNat % 4 * 16 + y.toNat / 16 < 64 by omega),
      digit_ascii _ (show y.toNat % 16 * 4 + z.toNat / 64 < 64 by omega),
      digit_ascii _ (show z.toNat % 64 < 64 by omega), ih]

theorem utf8ByteSize_ofList : ∀ cs : List Char, (String.ofList cs).utf8ByteSize = (cs.map Char.utf8Size).sum
  | [] => rfl
  | c :: cs => by
    have : c :: cs = [c] ++ cs := rfl
    rw [this, String.ofList_append, String.utf8ByteSize_append, utf8ByteSize_ofList cs,
      List.map_append, List.sum_append]
    simp

/-- Three bytes take four characters. -/
theorem utf8ByteSize_encode (bs : List UInt8) : (encode bs).utf8ByteSize = (bs.length + 2) / 3 * 4 := by
  rw [encode, utf8ByteSize_ofList, size_encodeList, List.sum_replicate, smul_eq_mul, mul_one]

end Kodosi.Lib.Base64
