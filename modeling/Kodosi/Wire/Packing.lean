import Kodosi.Wire.Codec

/-! Packed data of a frame, and the loop that unpacks it with the decompressor of a library. Each round takes
    some input and gives some output, so the loop ends; it ends well only where the stream ends with the input. -/

namespace Kodosi.Wire
open Kodosi.Lib

/-- What one call of the decompressor does: how much of the input it takes, what it gives, and whether the
    stream ends there. -/
structure Inflated (σ : Type) where
  used : Nat
  output : Bytes
  ended : Bool
  next : σ

/-- The decompressor of the library. A call has the rest of the input and so much room for output. -/
structure Decompress (σ : Type) where
  new : σ
  decompressVec : σ → Bytes → Nat → Option (Inflated σ)

/-- A call takes no more than there is and gives no more than there is room for. -/
structure Decompress.Lawful {σ : Type} (S : Decompress σ) : Prop where
  used : ∀ {stream : σ} {input : Bytes} {room : Nat} {step : Inflated σ},
    S.decompressVec stream input room = some step → step.used ≤ input.length
  room : ∀ {stream : σ} {input : Bytes} {room : Nat} {step : Inflated σ},
    S.decompressVec stream input room = some step → step.output.length ≤ room

namespace Decompress

variable {σ : Type} (S : Decompress σ)

def corrupt : Fault := .invalid "Remote terminal data could not be unpacked."

/-- The room of the next call: what is left of it, or so much more when nothing is. -/
def reserve (limit length spare : Nat) : Nat :=
  if spare = 0 then min (max length 256) (limit + 1 - length) else spare

/-- The rounds of `inflate`. `spare` is the room that the output has left. -/
def inflateFrom (limit : Nat) (stream : σ) (input output : Bytes) (spare : Nat) : Except Fault Bytes :=
  if spare = 0 ∧ limit + 1 < output.length then .error .panic
  else
    match S.decompressVec stream input (reserve limit output.length spare) with
    | none => .error corrupt
    | some step =>
      if limit < output.length + step.output.length then
        .error (.invalid "Remote terminal data exceeds its bound.")
      else if input.length < step.used then .error .panic
      else if step.ended then
        if input.drop step.used = [] then .ok (output ++ step.output) else .error corrupt
      else if input.drop step.used = [] ∧ step.output.length < reserve limit output.length spare then
        .error corrupt
      else if step.used = 0 ∧ step.output.length = 0 ∧
          step.output.length < reserve limit output.length spare then .error corrupt
      else inflateFrom limit step.next (input.drop step.used) (output ++ step.output)
        (reserve limit output.length spare - step.output.length)
termination_by input.length + (limit - output.length)
decreasing_by
  have hroom : spare = 0 → reserve limit output.length spare = min (max output.length 256) (limit + 1 - output.length) :=
    fun h => if_pos h
  have hkept : spare ≠ 0 → reserve limit output.length spare = spare := fun h => if_neg h
  rw [List.length_drop, List.length_append]
  omega

def unpack (packed : Bytes) (limit : Nat) : Except Fault Bytes :=
  S.inflateFrom limit S.new packed [] (min (packed.length * 4 + 256) (limit + 1))

/-! ### What comes out -/

/-- The decompressor gives the output, call by call, and ends behind the last byte of the input. -/
inductive Inflates : σ → Bytes → Bytes → Prop
  | last {stream : σ} {input : Bytes} {room : Nat} {step : Inflated σ}
    (hstep : S.decompressVec stream input room = some step) (hused : step.used = input.length)
    (hended : step.ended = true) : Inflates stream input step.output
  | more {stream : σ} {input rest : Bytes} {room : Nat} {step : Inflated σ}
    (hstep : S.decompressVec stream input room = some step) (hused : step.used ≤ input.length)
    (hopen : step.ended = false) (hrest : Inflates step.next (input.drop step.used) rest) :
    Inflates stream input (step.output ++ rest)

variable {S}

theorem inflateFrom_ok {limit spare : Nat} {stream : σ} {input output out : Bytes}
    (h : S.inflateFrom limit stream input output spare = .ok out) :
    out.length ≤ limit ∧ ∃ rest, out = output ++ rest ∧ S.Inflates stream input rest := by
  fun_induction S.inflateFrom limit stream input output spare with
  | case1 => cases h
  | case2 => cases h
  | case3 => cases h
  | case4 => cases h
  | case5 stream input output spare _ step hstep hlimit hused hended hempty =>
    obtain rfl := Except.ok.inj h
    have hlength := List.drop_eq_nil_iff.mp hempty
    rw [List.length_append]
    exact ⟨by omega, step.output, rfl, .last hstep (by omega) hended⟩
  | case6 => cases h
  | case7 => cases h
  | case8 => cases h
  | case9 stream input output spare _ step hstep hlimit hused hended _ _ ih =>
    obtain ⟨hlength, rest, rfl, hrest⟩ := ih h
    exact ⟨hlength, step.output ++ rest, by rw [List.append_assoc],
      .more hstep (by omega) (Bool.eq_false_iff.mpr hended) hrest⟩

/-- The loop ends without an index out of range. -/
theorem inflateFrom_safe (hS : S.Lawful) {limit spare : Nat} {stream : σ} {input output : Bytes}
    (houtput : output.length ≤ limit) : S.inflateFrom limit stream input output spare ≠ .error .panic := by
  fun_induction S.inflateFrom limit stream input output spare with
  | case1 stream input output spare hroom => omega
  | case2 => nofun
  | case3 => nofun
  | case4 stream input output spare _ step hstep _ hused =>
    have := hS.used hstep
    omega
  | case5 => nofun
  | case6 => nofun
  | case7 => nofun
  | case8 => nofun
  | case9 stream input output spare _ step hstep hlimit _ _ _ _ ih =>
    exact ih (by rw [List.length_append]; omega)

/-- What is unpacked fits the limit, and nothing of the packed data is left over. -/
theorem unpack_ok {packed plain : Bytes} {limit : Nat} (h : S.unpack packed limit = .ok plain) :
    plain.length ≤ limit ∧ S.Inflates S.new packed plain := by
  obtain ⟨hlength, rest, rfl, hrest⟩ := inflateFrom_ok h
  exact ⟨hlength, hrest⟩

theorem unpack_safe (hS : S.Lawful) (packed : Bytes) (limit : Nat) : S.unpack packed limit ≠ .error .panic :=
  inflateFrom_safe hS (Nat.zero_le _)

end Decompress

end Kodosi.Wire
