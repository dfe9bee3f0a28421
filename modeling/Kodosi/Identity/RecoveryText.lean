import Kodosi.Lib.Bytes

/-! The text of a recovery key: the 160 bits of a secret as 32 letters of five bits, in groups of four, and the
    way back from what a person types. Both are seen through the bits of the secret, the highest one first. -/

namespace Kodosi.Identity
open Lib

def ALPHABET : List Char := "0123456789ABCDEFGHJKMNPQRSTVWXYZ".toList
def SYMBOLS : Nat := 32
def SECRET_BYTES : Nat := SYMBOLS * 5 / 8

abbrev Secret := Vector (BitVec 8) SECRET_BYTES

/-! ### The code -/

/-- The number of the letter at an index: five bits out of two bytes next to each other. -/
def valueAt (secret : Secret) (index : Nat) : BitVec 16 :=
  let bit := index * 5
  let pair : BitVec 16 := secret[bit / 8]?.getD 0 ++ secret[bit / 8 + 1]?.getD 0
  pair >>> (11 - bit % 8) &&& 31

def letterAt (secret : Secret) (index : Nat) : Char := ALPHABET.getD (valueAt secret index).toNat '0'

/-- A letter of the text, with a dash before each group of four but the first. -/
def placed (index : Nat) (letter : Char) : List Char :=
  if 0 < index ∧ index % 4 = 0 then ['-', letter] else [letter]

def textOf (secret : Secret) : String :=
  String.ofList ((List.range SYMBOLS).flatMap fun index => placed index (letterAt secret index))

/-- A typed letter as one of the alphabet: in upper case, and a look-alike as the digit that it stands for. -/
def symbolOf (symbol : Char) : Char :=
  match symbol.toUpper with
  | 'O' => '0'
  | 'I' => '1'
  | 'L' => '1'
  | other => other

variable {count : Nat}

theorem place_lt (h : count < SYMBOLS) : count * 5 / 8 < SECRET_BYTES := by
  simp only [SYMBOLS, SECRET_BYTES] at *
  omega

/-- Puts five bits into the secret. Those that do not fit into the byte go into the next one. -/
def putValue (secret : Secret) (count value : Nat) (h : count < SYMBOLS) : Secret :=
  let bit := count * 5
  have hbit : bit / 8 < SECRET_BYTES := place_lt h
  let shifted : BitVec 16 := BitVec.ofNat 16 value <<< (11 - bit % 8)
  let secret := secret.set (bit / 8) (secret[bit / 8] ||| shifted.extractLsb' 8 8)
  if h : bit / 8 + 1 < SECRET_BYTES then
    secret.set (bit / 8 + 1) (secret[bit / 8 + 1] ||| shifted.extractLsb' 0 8)
  else secret

/-- Takes the next letter: its five bits go behind those before it. -/
def takeSymbol : Secret × Nat → Char → Option (Secret × Nat)
  | (secret, count), symbol => do
    let value ← ALPHABET.idxOf? (symbolOf symbol)
    if h : count < SYMBOLS then return (putValue secret count value h, count + 1) else none

/-- The letters of a typed text, without white space and dashes. -/
def lettersOf (text : String) : List Char := text.toList.filter fun c => !isWhitespace c && c ≠ '-'

def secretOf (text : String) : Option Secret := do
  let (secret, count) ← (lettersOf text).foldlM takeSymbol (Vector.replicate SECRET_BYTES 0, 0)
  if count = SYMBOLS then some secret else none

/-! ### The bits -/

/-- The bits of a secret, the highest bit of the first byte first. -/
def bitOf (secret : Secret) (i : Nat) : Bool := (secret[i / 8]?.getD 0).getMsbD (i % 8)

theorem secret_ext {s t : Secret} (h : ∀ i < SYMBOLS * 5, bitOf s i = bitOf t i) : s = t := by
  apply Vector.ext
  intro i hi
  apply BitVec.eq_of_getMsbD_eq
  intro j hj
  have := h (i * 8 + j) (by simp only [SECRET_BYTES, SYMBOLS] at *; omega)
  have hdiv : (i * 8 + j) / 8 = i := by omega
  have hmod : (i * 8 + j) % 8 = j := by omega
  rwa [bitOf, bitOf, hdiv, hmod, Vector.getElem?_eq_getElem hi, Vector.getElem?_eq_getElem hi, Option.getD_some,
    Option.getD_some] at this

theorem valueAt_lt (secret : Secret) (index : Nat) : (valueAt secret index).toNat < 32 := by
  rw [valueAt, BitVec.toNat_and]
  exact lt_of_le_of_lt Nat.and_le_right (by decide)

/-- A letter is five bits of the secret one after the other. -/
theorem valueAt_bit (secret : Secret) (index k : Nat) :
    (valueAt secret index).getLsbD k = (decide (k < 5) && bitOf secret (index * 5 + (4 - k))) := by
  have hmask : (31 : BitVec 16).getLsbD k = decide (k < 5) := by
    by_cases hk : k < 5
    · interval_cases k <;> rfl
    · rw [decide_eq_false hk]
      exact Nat.testBit_lt_two_pow (lt_of_lt_of_le (by decide) (Nat.pow_le_pow_right (by omega) (Nat.le_of_not_lt hk)))
  rw [valueAt, BitVec.getLsbD_and, hmask, Bool.and_comm]
  by_cases hk : k < 5
  · rw [decide_eq_true hk, Bool.true_and, Bool.true_and, BitVec.getLsbD_ushiftRight, BitVec.getLsbD_append, bitOf,
      BitVec.getMsbD_eq_getLsbD]
    have hb := Nat.mod_lt (index * 5) (y := 8) (by omega)
    -- The bits of the letter lie in the byte of the first one, or go on in the next byte.
    by_cases hlow : 11 - index * 5 % 8 + k < 8
    · have hdiv : (index * 5 + (4 - k)) / 8 = index * 5 / 8 + 1 := by omega
      have hmod : 8 - 1 - (index * 5 + (4 - k)) % 8 = 11 - index * 5 % 8 + k := by omega
      rw [if_pos hlow, hdiv, hmod, decide_eq_true (Nat.mod_lt _ (by omega)), Bool.true_and]
    · have hdiv : (index * 5 + (4 - k)) / 8 = index * 5 / 8 := by omega
      have hmod : 8 - 1 - (index * 5 + (4 - k)) % 8 = 11 - index * 5 % 8 + k - 8 := by omega
      rw [if_neg hlow, hdiv, hmod, decide_eq_true (Nat.mod_lt _ (by omega)), Bool.true_and]
  · rw [decide_eq_false hk, Bool.false_and, Bool.false_and]

variable {secret : Secret}

theorem bitOf_set {n : Nat} (h : n < SECRET_BYTES) (byte : BitVec 8) (i : Nat) :
    bitOf (secret.set n (secret[n] ||| byte)) i = (bitOf secret i || (decide (i / 8 = n) && byte.getMsbD (i % 8))) := by
  rw [bitOf, bitOf, Vector.getElem?_set]
  by_cases hi : n = i / 8
  · rw [if_pos hi, Option.getD_some, BitVec.getMsbD_or, ← hi, Vector.getElem?_eq_getElem h, Option.getD_some,
      decide_eq_true rfl, Bool.true_and]
  · rw [if_neg hi, decide_eq_false (Ne.symm hi), Bool.false_and, Bool.or_false]

variable {value : Nat}

/-- A value that is moved up in a word, bit by bit from the highest one. -/
theorem shifted_bit {n : Nat} (hvalue : value < 32) (k : Nat) (hk : k < 16) :
    (BitVec.ofNat 16 value <<< n).getLsbD k = (decide (n ≤ k ∧ k < n + 5) && value.testBit (k - n)) := by
  rw [BitVec.getLsbD_shiftLeft, BitVec.getLsbD_ofNat, decide_eq_true hk, Bool.true_and]
  by_cases hlow : n ≤ k
  · by_cases hhigh : k < n + 5
    · simp [hlow, hhigh, show k - n < 16 by omega]
    · have hzero : value.testBit (k - n) = false :=
        Nat.testBit_lt_two_pow (lt_of_lt_of_le hvalue (Nat.pow_le_pow_right (Nat.two_pos) (show 5 ≤ k - n by omega)))
      simp [hzero]
  · simp [hlow, show k < n by omega]

theorem highByte_bit (word : BitVec 16) {j : Nat} (h : j < 8) :
    (word.extractLsb' 8 8).getMsbD j = word.getLsbD (15 - j) := by
  rw [BitVec.getMsbD_eq_getLsbD, BitVec.getLsbD_extractLsb', decide_eq_true h, Bool.true_and,
    decide_eq_true (show 8 - 1 - j < 8 by omega), Bool.true_and]
  congr 1
  omega

theorem lowByte_bit (word : BitVec 16) {j : Nat} (h : j < 8) :
    (word.extractLsb' 0 8).getMsbD j = word.getLsbD (7 - j) := by
  rw [BitVec.getMsbD_eq_getLsbD, BitVec.getLsbD_extractLsb', decide_eq_true h, Bool.true_and,
    decide_eq_true (show 8 - 1 - j < 8 by omega), Bool.true_and, Nat.zero_add]

/-- What `putValue` puts in: five bits behind those before. -/
theorem putValue_bit (h : count < SYMBOLS) (hvalue : value < 32) (i : Nat) :
    bitOf (putValue secret count value h) i =
      (bitOf secret i || (decide (count * 5 ≤ i ∧ i < count * 5 + 5) && value.testBit (4 - (i - count * 5)))) := by
  have hb := Nat.mod_lt (count * 5) (y := 8) (by omega)
  have hi := Nat.mod_lt i (y := 8) (by omega)
  have hlast := place_lt h
  simp only [putValue]
  by_cases hin : count * 5 ≤ i ∧ i < count * 5 + 5
  · rw [decide_eq_true hin, Bool.true_and]
    -- The bit goes into the first of the two bytes or into the second one.
    rcases (show i / 8 = count * 5 / 8 ∨ i / 8 = count * 5 / 8 + 1 by omega) with hfirst | hsecond
    · have hbit : 15 - i % 8 - (11 - count * 5 % 8) = 4 - (i - count * 5) := by omega
      have hput : 11 - count * 5 % 8 ≤ 15 - i % 8 ∧ 15 - i % 8 < 11 - count * 5 % 8 + 5 := by omega
      split
      · rw [bitOf_set, bitOf_set, highByte_bit _ hi, shifted_bit hvalue _ (by omega), hbit, decide_eq_true hput,
          decide_eq_true hfirst, decide_eq_false (show ¬ i / 8 = count * 5 / 8 + 1 by omega), Bool.false_and,
          Bool.or_false, Bool.true_and, Bool.true_and]
      · rw [bitOf_set, highByte_bit _ hi, shifted_bit hvalue _ (by omega), hbit, decide_eq_true hput,
          decide_eq_true hfirst, Bool.true_and, Bool.true_and]
    · have hroom : count * 5 / 8 + 1 < SECRET_BYTES := by
        simp only [SYMBOLS, SECRET_BYTES] at *
        omega
      have hbit : 7 - i % 8 - (11 - count * 5 % 8) = 4 - (i - count * 5) := by omega
      have hput : 11 - count * 5 % 8 ≤ 7 - i % 8 ∧ 7 - i % 8 < 11 - count * 5 % 8 + 5 := by omega
      rw [dif_pos hroom, bitOf_set, bitOf_set, lowByte_bit _ hi, shifted_bit hvalue (7 - i % 8) (by omega), hbit,
        decide_eq_true hput, decide_eq_true hsecond, decide_eq_false (show ¬ i / 8 = count * 5 / 8 by omega),
        Bool.false_and, Bool.or_false, Bool.true_and, Bool.true_and]
  · have hfirst : (decide (i / 8 = count * 5 / 8) &&
        decide (11 - count * 5 % 8 ≤ 15 - i % 8 ∧ 15 - i % 8 < 11 - count * 5 % 8 + 5)) = false := by
      rw [← Bool.decide_and, decide_eq_false_iff_not]
      omega
    have hsecond : (decide (i / 8 = count * 5 / 8 + 1) &&
        decide (11 - count * 5 % 8 ≤ 7 - i % 8 ∧ 7 - i % 8 < 11 - count * 5 % 8 + 5)) = false := by
      rw [← Bool.decide_and, decide_eq_false_iff_not]
      omega
    rw [decide_eq_false hin, Bool.false_and, Bool.or_false]
    split
    · rw [bitOf_set, bitOf_set, highByte_bit _ hi, lowByte_bit _ hi, shifted_bit hvalue _ (by omega),
        shifted_bit hvalue _ (by omega), ← Bool.and_assoc, ← Bool.and_assoc, hfirst, hsecond, Bool.false_and,
        Bool.false_and, Bool.or_false, Bool.or_false]
    · rw [bitOf_set, highByte_bit _ hi, shifted_bit hvalue _ (by omega), ← Bool.and_assoc, hfirst, Bool.false_and,
        Bool.or_false]

/-! ### There and back -/

/-- The number of a typed letter. -/
def valueOf (letter : Char) : Option Nat := ALPHABET.idxOf? (symbolOf letter)

theorem valueOf_some {letter : Char} (h : valueOf letter = some value) :
    value < 32 ∧ ALPHABET.getD value '0' = symbolOf letter := by
  obtain ⟨hlt, hget, -⟩ := List.findIdx?_eq_some_iff_getElem.mp h
  refine ⟨hlt, ?_⟩
  rw [List.getD_eq_getElem?_getD, List.getElem?_eq_getElem hlt, Option.getD_some]
  exact eq_of_beq hget

/-- The letters of the alphabet are read as themselves, and none is left out as a dash or white space. -/
theorem valueOf_alphabet : ∀ value < 32, valueOf (ALPHABET.getD value '0') = some value ∧
    isWhitespace (ALPHABET.getD value '0') = false ∧ ALPHABET.getD value '0' ≠ '-' := by
  decide +kernel

/-- The secret holds the five bits of each value, one behind the other, and no other bits. -/
def Holds (values : List Nat) (secret : Secret) : Prop :=
  ∀ i, bitOf secret i = (values[i / 5]?).elim false fun value => value.testBit (4 - i % 5)

variable {values : List Nat}

theorem Holds.unique {s t : Secret} (hs : Holds values s) (ht : Holds values t) : s = t :=
  secret_ext fun i _ => (hs i).trans (ht i).symm

theorem holds_empty : Holds [] (Vector.replicate SECRET_BYTES 0) := by
  intro i
  rw [bitOf, Vector.getElem?_replicate]
  split <;> simp

theorem Holds.put (hs : Holds values secret) (h : values.length < SYMBOLS) (hvalue : value < 32) :
    Holds (values ++ [value]) (putValue secret values.length value h) := by
  intro i
  rw [putValue_bit h hvalue, hs i]
  rcases Nat.lt_trichotomy (i / 5) values.length with hlt | heq | hgt
  · rw [List.getElem?_append_left hlt, decide_eq_false (by omega), Bool.false_and, Bool.or_false]
  · have hbit : 4 - (i - values.length * 5) = 4 - i % 5 := by omega
    rw [heq, List.getElem?_concat_length, List.getElem?_eq_none (Nat.le_refl _), hbit, decide_eq_true (by omega)]
    rfl
  · rw [List.getElem?_eq_none (by omega), List.getElem?_eq_none (by rw [List.length_append, List.length_singleton]; omega),
      decide_eq_false (by omega)]
    rfl

theorem takeSymbol_some {letter : Char} {r : Secret × Nat} :
    takeSymbol (secret, count) letter = some r ↔
      ∃ value, valueOf letter = some value ∧ ∃ h : count < SYMBOLS, r = (putValue secret count value h, count + 1) := by
  have hvalue : ALPHABET.idxOf? (symbolOf letter) = valueOf letter := rfl
  simp only [takeSymbol, hvalue, Option.bind_eq_bind, Option.bind_eq_some_iff]
  refine exists_congr fun value => and_congr_right fun _ => ?_
  split
  · next h => exact ⟨fun hr => ⟨h, (Option.some.inj hr).symm⟩, fun ⟨_, hr⟩ => congrArg some hr.symm⟩
  · next h => exact ⟨nofun, fun ⟨h', _⟩ => absurd h' h⟩

/-- Reading letters one after the other: each is one of the alphabet, there are not too many, and the secret holds
    their values behind those that it held. -/
theorem foldlM_takeSymbol : ∀ {letters : List Char} {values : List Nat} {secret t : Secret} {count : Nat},
    Holds values secret → values.length ≤ SYMBOLS →
      (letters.foldlM takeSymbol (secret, values.length) = some (t, count) ↔
        ∃ more, List.Forall₂ (fun letter value => valueOf letter = some value) letters more ∧
          (values ++ more).length = count ∧ count ≤ SYMBOLS ∧ Holds (values ++ more) t)
  | [], values, secret, t, count, hs, hroom => by
    refine ⟨fun h => ?_, fun ⟨more, hmore, hcount, _, ht⟩ => ?_⟩
    · obtain ⟨rfl, rfl⟩ := Prod.mk.inj (Option.some.inj h)
      exact ⟨[], .nil, by rw [List.append_nil], hroom, by rwa [List.append_nil]⟩
    · cases hmore
      rw [List.append_nil] at hcount ht
      rw [hs.unique ht, hcount]
      rfl
  | letter :: letters, values, secret, t, count, hs, hroom => by
    rw [List.foldlM_cons, Option.bind_eq_bind, Option.bind_eq_some_iff]
    refine ⟨fun ⟨r, hr, hrest⟩ => ?_, fun ⟨more, hmore, hcount, hlimit, ht⟩ => ?_⟩
    · obtain ⟨value, hvalue, h, rfl⟩ := takeSymbol_some.mp hr
      have hlength : values.length + 1 = (values ++ [value]).length := by simp
      rw [hlength] at hrest
      obtain ⟨more, hmore, hcount, hlimit, ht⟩ :=
        (foldlM_takeSymbol (hs.put h (valueOf_some hvalue).1) (by rw [← hlength]; omega)).mp hrest
      rw [List.append_assoc] at hcount ht
      exact ⟨value :: more, .cons hvalue hmore, hcount, hlimit, ht⟩
    · cases hmore with
      | @cons _ value _ more hvalue hmore =>
        have hlength : values.length + 1 = (values ++ [value]).length := by simp
        have h : values.length < SYMBOLS := by
          rw [List.length_append, List.length_cons] at hcount
          omega
        refine ⟨_, takeSymbol_some.mpr ⟨value, hvalue, h, rfl⟩, ?_⟩
        rw [hlength]
        refine (foldlM_takeSymbol (hs.put h (valueOf_some hvalue).1) (by rw [← hlength]; omega)).mpr
          ⟨more, hmore, ?_, hlimit, ?_⟩
        · rwa [List.append_assoc]
        · rwa [List.append_assoc]

theorem secretOf_some {text : String} : secretOf text = some secret ↔
    ∃ values, List.Forall₂ (fun letter value => valueOf letter = some value) (lettersOf text) values ∧
      values.length = SYMBOLS ∧ Holds values secret := by
  rw [secretOf, Option.bind_eq_bind, Option.bind_eq_some_iff]
  refine ⟨fun ⟨⟨t, count⟩, hread, hwhole⟩ => ?_, fun ⟨values, hread, hlength, hs⟩ => ?_⟩
  · obtain ⟨values, hvalues, hlength, -, ht⟩ := (foldlM_takeSymbol holds_empty (Nat.zero_le _)).mp hread
    rw [List.nil_append] at hlength ht
    have hcount : count = SYMBOLS ∧ t = secret := by simpa using hwhole
    exact ⟨values, hvalues, hlength.trans hcount.1, hcount.2 ▸ ht⟩
  · refine ⟨(secret, SYMBOLS), (foldlM_takeSymbol holds_empty (Nat.zero_le _)).mpr
      ⟨values, hread, ?_, Nat.le_refl _, ?_⟩, if_pos rfl⟩
    · rwa [List.nil_append]
    · rwa [List.nil_append]

/-! ### The canonical text -/

/-- Letters in groups of four. -/
def grouped (letters : List Char) : String := String.ofList (letters.mapIdx placed).flatten

/-- The canonical form of a typed text: its letters in upper case, look-alikes as digits, in groups of four. -/
def canonicalOf (text : String) : String := grouped ((lettersOf text).map symbolOf)

theorem textOf_eq (secret : Secret) : textOf secret = grouped ((List.range SYMBOLS).map (letterAt secret)) := by
  rw [textOf, grouped, List.flatMap_def]
  refine congrArg (fun letters => String.ofList letters.flatten) (List.ext_getElem ?_ fun i h h' => ?_)
  · rw [List.length_map, List.length_mapIdx, List.length_map]
  · rw [List.getElem_map, List.getElem_mapIdx, List.getElem_map, List.getElem_range]

theorem lettersOf_textOf (secret : Secret) : lettersOf (textOf secret) = (List.range SYMBOLS).map (letterAt secret) := by
  rw [lettersOf, textOf, String.toList_ofList, List.filter_flatMap, List.map_eq_flatMap]
  refine congrArg (fun f => List.flatMap f _) (funext fun index => ?_)
  obtain ⟨-, hspace, hdash⟩ := valueOf_alphabet _ (valueAt_lt secret index)
  rw [← letterAt] at hspace hdash
  have hkept : ((!isWhitespace (letterAt secret index)) && decide (letterAt secret index ≠ '-')) = true := by
    simp [hspace, hdash]
  rw [placed]
  split
  · rw [List.filter_cons_of_neg (by simp), List.filter_cons, if_pos hkept, List.filter_nil]
  · rw [List.filter_cons, if_pos hkept, List.filter_nil]

/-- A secret holds the values of its own letters. -/
theorem holds_own (secret : Secret) : Holds ((List.range SYMBOLS).map fun index => (valueAt secret index).toNat) secret := by
  intro i
  rw [List.getElem?_map]
  by_cases h : i / 5 < SYMBOLS
  · have hbit := valueAt_bit secret (i / 5) (4 - i % 5)
    have hplace : i / 5 * 5 + (4 - (4 - i % 5)) = i := by omega
    rw [decide_eq_true (show 4 - i % 5 < 5 by omega), Bool.true_and, hplace] at hbit
    rw [List.getElem?_range h, ← hbit]
    rfl
  · rw [List.getElem?_eq_none (by rw [List.length_range]; omega), bitOf, Vector.getElem?_eq_none]
    · simp
    · simp only [SYMBOLS, SECRET_BYTES] at *
      omega

theorem secretOf_textOf (secret : Secret) : secretOf (textOf secret) = some secret := by
  refine secretOf_some.mpr ⟨_, ?_, ?_, holds_own secret⟩
  · rw [lettersOf_textOf, List.forall₂_map_left_iff, List.forall₂_map_right_iff, List.forall₂_same]
    exact fun index _ => (valueOf_alphabet _ (valueAt_lt secret index)).1
  · rw [List.length_map, List.length_range]

/-- The values that a secret holds are those of its letters. -/
theorem Holds.valueAt (hs : Holds values secret) (hsmall : ∀ v ∈ values, v < 32) {index : Nat}
    (h : index < values.length) : (valueAt secret index).toNat = values[index] := by
  apply Nat.eq_of_testBit_eq
  intro k
  rw [BitVec.testBit_toNat, valueAt_bit, hs]
  by_cases hk : k < 5
  · have hdiv : (index * 5 + (4 - k)) / 5 = index := by omega
    have hmod : 4 - (index * 5 + (4 - k)) % 5 = k := by omega
    rw [decide_eq_true hk, Bool.true_and, hdiv, hmod, List.getElem?_eq_getElem h]
    rfl
  · have hzero : values[index].testBit k = false :=
      Nat.testBit_lt_two_pow ((hsmall _ (List.getElem_mem h)).trans_le (Nat.pow_le_pow_right Nat.two_pos (show 5 ≤ k by omega)))
    rw [decide_eq_false hk, Bool.false_and, hzero]

theorem textOf_secretOf {text : String} (h : secretOf text = some secret) : textOf secret = canonicalOf text := by
  obtain ⟨values, hread, hlength, hs⟩ := secretOf_some.mp h
  have hcount := hread.length_eq
  have hsmall : ∀ v ∈ values, v < 32 := by
    intro v hv
    obtain ⟨i, hi, rfl⟩ := List.getElem_of_mem hv
    exact (valueOf_some (hread.get (by omega) hi)).1
  rw [textOf_eq, canonicalOf]
  congr 1
  apply List.ext_getElem
  · rw [List.length_map, List.length_map, List.length_range]
    omega
  · intro i hi hi'
    rw [List.length_map, List.length_range] at hi
    rw [List.getElem_map, List.getElem_map, List.getElem_range, letterAt, hs.valueAt hsmall (by omega)]
    exact (valueOf_some (hread.get (by omega) (by omega))).2

/-- The text of a recovery key is faithful: reading it gives the secret back, writing the secret of a text that is read
    gives the text in its canonical form, and two secrets have two texts. -/
theorem recovery_text_faithful : (∀ secret, secretOf (textOf secret) = some secret) ∧
    (∀ text secret, secretOf text = some secret → textOf secret = canonicalOf text) ∧
    ∀ s t : Secret, s ≠ t → textOf s ≠ textOf t := by
  refine ⟨secretOf_textOf, fun _ _ => textOf_secretOf, fun s t hne heq => hne ?_⟩
  have hs := secretOf_textOf s
  rw [heq, secretOf_textOf] at hs
  exact (Option.some.inj hs).symm

theorem recovery_text_faithful_typed :
    secretOf "oil1-oil1 OIL1oil1\toil1oil1\noil1oil1" ≠ none ∧
      ∀ secret, secretOf "oil1-oil1 OIL1oil1\toil1oil1\noil1oil1" = some secret →
        textOf secret = "0111-0111-0111-0111-0111-0111-0111-0111" :=
  ⟨by decide +kernel, fun secret h =>
    (recovery_text_faithful.2.1 _ secret h).trans (by decide +kernel)⟩

end Kodosi.Identity
