import Kodosi.Lib.Bytes
import Kodosi.Lib.Checks

/-! Readers that take bytes from the front. A reader fits a writer when it gives a value exactly where what
    the writer wrote for the value stands in front; two readers that fit one writer then agree. -/

namespace Kodosi.Lib

variable {ε α β : Type}

/-! ### Numbers -/

theorem ofBe_snoc (bytes : List UInt8) (b : UInt8) : ofBe (bytes ++ [b]) = ofBe bytes * 256 + b.toNat := by
  rw [ofBe, List.foldl_append]
  rfl

theorem toBe_ofBe (bytes : List UInt8) : toBe bytes.length (ofBe bytes) = bytes := by
  induction bytes using List.reverseRecOn with
  | nil => rfl
  | append_singleton bytes b ih =>
    have hlt := b.toNat_lt
    have hdiv : (ofBe bytes * 256 + b.toNat) / 256 = ofBe bytes := by omega
    have hlast : UInt8.ofNat (ofBe bytes * 256 + b.toNat) = b := by
      apply UInt8.toNat_inj.mp
      rw [UInt8.toNat_ofNat']
      omega
    rw [List.length_append, List.length_singleton, toBe, ofBe_snoc, hdiv, ih, hlast]

theorem ofBe_lt (bytes : List UInt8) : ofBe bytes < 256 ^ bytes.length := by
  induction bytes using List.reverseRecOn with
  | nil => simp [ofBe]
  | append_singleton bytes b ih =>
    have hlt := b.toNat_lt
    rw [ofBe_snoc, List.length_append, List.length_singleton, Nat.pow_succ]
    omega

theorem toBe_inj {k m n : Nat} (hm : m < 256 ^ k) (hn : n < 256 ^ k) (h : toBe k m = toBe k n) : m = n := by
  rw [← ofBe_toBe k m hm, h, ofBe_toBe k n hn]

/-! ### Texts -/

theorem utf8_inj {s t : String} (h : utf8 s = utf8 t) : s = t := by
  have hs := ofUtf8_utf8 s
  rw [h, ofUtf8_utf8] at hs
  exact (Option.some.inj hs).symm

theorem ofUtf8_iff {bytes : List UInt8} {s : String} : ofUtf8 bytes = some s ↔ bytes = utf8 s := by
  constructor
  · intro h
    rw [ofUtf8, String.fromUTF8?] at h
    split at h
    · rename_i hvalid
      obtain rfl := Option.some.inj h
      simp [utf8, String.toUTF8]
      rfl
    · simp at h
  · rintro rfl
    exact ofUtf8_utf8 s

/-! ### Readers -/

abbrev ByteReader (ε : Type) := StateT (List UInt8) (Except ε)

/-- A reader that gives `a` exactly where `write a` stands in front, for each `a` that fits. -/
def Reads (read : ByteReader ε α) (fits : α → Prop) (write : α → List UInt8) : Prop :=
  ∀ bytes a rest, read bytes = .ok (a, rest) ↔ fits a ∧ bytes = write a ++ rest

theorem bind_reads {read : ByteReader ε α} {next : α → ByteReader ε β} {bytes rest : List UInt8} {b : β} :
    (read >>= next) bytes = .ok (b, rest) ↔ ∃ a mid, read bytes = .ok (a, mid) ∧ next a mid = .ok (b, rest) := by
  constructor
  · intro h
    obtain ⟨⟨a, mid⟩, hread, hnext⟩ := bind_ok (x := read bytes) (f := fun p => next p.1 p.2) h
    exact ⟨a, mid, hread, hnext⟩
  · rintro ⟨a, mid, hread, hnext⟩
    have : (read >>= next) bytes = read bytes >>= fun p => next p.1 p.2 := rfl
    rw [this, hread]
    exact hnext

theorem pure_reads {a b : α} {bytes rest : List UInt8} :
    (pure a : ByteReader ε α) bytes = .ok (b, rest) ↔ a = b ∧ bytes = rest := by
  have : (pure a : ByteReader ε α) bytes = .ok (a, bytes) := rfl
  rw [this]
  simp

/-- After a field that fits a writer, reading goes on behind it. -/
theorem Reads.next {read : ByteReader ε α} {fits : α → Prop} {write : α → List UInt8} (h : Reads read fits write)
    {next : α → ByteReader ε β} {bytes rest : List UInt8} {b : β} :
    (read >>= next) bytes = .ok (b, rest) ↔
      ∃ a mid, (fits a ∧ bytes = write a ++ mid) ∧ next a mid = .ok (b, rest) := by
  rw [bind_reads]
  simp only [h _ _ _]

end Kodosi.Lib
