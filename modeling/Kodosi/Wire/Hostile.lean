import Kodosi.Lib.Reads
import Kodosi.Wire.Packing
import Kodosi.Wire.Stream

/-! Bytes of a stranger. The reader of frames takes every buffer: no index and no length goes out of range, what
    is no frame stays in the buffer, and of a frame that is taken each byte says something. -/

namespace Kodosi.Wire
open Kodosi.Lib
open Kodosi.Derive

variable {M A σ : Type}

/-! ### Lengths of the machine -/

/-- The lengths that any machine can count to. -/
def LENGTHS : Nat := 2 ^ 32

def addLength (a b : Nat) : Except Fault Nat := do
  reject (LENGTHS ≤ a + b) .panic
  return a + b

def subLength (a b : Nat) : Except Fault Nat := do
  reject (a < b) .panic
  return a - b

namespace Sized

variable (S : Decompress σ) (L : Libraries M A)

/-- The chunks from a place on, when so many were read before. -/
def splitChunks (plain : Bytes) (at' read : Nat) : Except Fault (List Bytes) := do
  if plain.length ≤ at' then return []
  reject ((← subLength plain.length at') < 4 ∨ read = RAW_BATCH_LIMIT)
    (.invalid "Terminal output frame is invalid.")
  let size := (← read32 plain at').toNat
  let start ← addLength at' 4
  reject (RAW_CHUNK_LIMIT < size ∨ (← subLength plain.length start) < size)
    (.invalid "Terminal output frame is invalid.")
  let stop ← addLength start size
  let chunk ← slice plain start stop
  return chunk :: (← splitChunks plain (at' + 4 + size) (read + 1))
termination_by plain.length - at'

def plainOf (packed : UInt8) (rest : Bytes) : Except Fault Bytes :=
  if packed = 1 then S.unpack rest UNPACKED_OUTPUT_LIMIT else .ok rest

def decodeOutput (body : Bytes) : Except Fault (Frame M A) := do
  reject (body.length < 9) (.invalid "Terminal output frame is invalid.")
  let packed ← index body 8
  reject (1 < packed) (.invalid "Terminal output frame is invalid.")
  let plain ← plainOf S packed (← sliceFrom body 9)
  let chunks ← splitChunks plain 0 0
  reject (chunks = []) (.invalid "Terminal output frame is empty.")
  return .output (← read64 body 0) chunks

/-- Only output has lengths to add. -/
def decode (kind : UInt8) (body : Bytes) : Except Fault (Frame M A) :=
  if kind = 5 then decodeOutput S body else Wire.decode L kind body

def takeFrame (buffer : Bytes) : Except Fault (Option (Frame M A × Nat)) := do
  if buffer.length < 3 then return none
  let length ← addLength 3 (← read24 buffer 0)
  reject (¬(HEADER ≤ length ∧ length ≤ FRAME_LIMIT)) (.invalid "Terminal frame has an invalid length.")
  if buffer.length < length then return none
  let kind ← index buffer 3
  let size ← read24 buffer 4
  let stop ← addLength HEADER size
  reject (length < stop) (.invalid "Terminal frame has an invalid body.")
  let padding ← slice buffer stop length
  reject (∃ byte ∈ padding, byte ≠ 0) (.invalid "Terminal frame has an invalid body.")
  let frame ← decode S L kind (← slice buffer HEADER stop)
  return some (frame, length)

/-- `Frame::take` with lengths that a machine can count to, and the loop that unpacks. -/
def take (buffer : Bytes) : Except Fault (Option (Frame M A × Nat)) × Bytes :=
  match takeFrame S L buffer with
  | .ok (some (frame, length)) => (.ok (some (frame, length)), buffer.drop length)
  | out => (out, buffer)

end Sized

/-! ### No index out of range -/

def Safe {α : Type} (x : Except Fault α) : Prop := x ≠ .error .panic

variable {α β : Type}

variable {x : Except Fault α} {f : α → Except Fault β}

theorem Safe.bind (hx : Safe x) (hf : ∀ a, x = .ok a → Safe (f a)) : Safe (x >>= f) := by
  cases x with
  | error e => exact fun h => hx (congrArg Except.error (Except.error.inj h))
  | ok a => exact hf a rfl

theorem safe_ok (a : α) : Safe (.ok a) := nofun

theorem safe_pure (a : α) : Safe (pure a) := nofun

theorem safe_invalid (reason : String) : Safe (.error (.invalid reason) : Except Fault α) := nofun

theorem safe_reject {bad : Prop} [Decidable bad] {reason : String} : Safe (reject bad (.invalid reason)) := by
  by_cases h : bad
  · rw [reject, if_pos h]
    exact safe_invalid reason
  · rw [reject, if_neg h]
    exact safe_ok ()

theorem safe_require {reason : String} {x : Option α} : Safe (require (.invalid reason) x) := by
  cases x <;> nofun

theorem safe_json {x : Option α} : Safe (require .json x) := by cases x <;> nofun

variable {bytes : Bytes}

variable {start stop : Nat}

theorem safe_slice (h : start ≤ stop ∧ stop ≤ bytes.length) : Safe (slice bytes start stop) := by
  rw [slice, ok_bind (reject_ok.mpr (not_not.mpr h))]
  exact safe_ok _

theorem safe_sliceFrom (h : start ≤ bytes.length) : Safe (sliceFrom bytes start) :=
  safe_slice ⟨h, le_rfl⟩

theorem safe_index {i : Nat} (h : i < bytes.length) : Safe (index bytes i) := by
  rw [index, List.getElem?_eq_getElem h]
  exact safe_ok _

variable {at' : Nat}

theorem safe_read24 (h : at' + 3 ≤ bytes.length) : Safe (read24 bytes at') :=
  (safe_slice ⟨by omega, h⟩).bind fun _ _ => safe_pure _

theorem safe_read16 (h : at' + 2 ≤ bytes.length) : Safe (read16 bytes at') :=
  (safe_slice ⟨by omega, h⟩).bind fun _ _ => safe_pure _

theorem safe_read32 (h : at' + 4 ≤ bytes.length) : Safe (read32 bytes at') :=
  (safe_slice ⟨by omega, h⟩).bind fun _ _ => safe_pure _

theorem safe_read64 (h : at' + 8 ≤ bytes.length) : Safe (read64 bytes at') :=
  (safe_slice ⟨by omega, h⟩).bind fun _ _ => safe_pure _

theorem safe_pipeId {body : Bytes} (h : 16 ≤ body.length) : Safe (pipeId body) :=
  (safe_slice ⟨by omega, h⟩).bind fun _ _ => safe_pure _

theorem safe_addLength {a b : Nat} (h : a + b < LENGTHS) : addLength a b = .ok (a + b) :=
  ok_bind (reject_ok.mpr (by omega))

theorem safe_subLength {a b : Nat} (h : b ≤ a) : subLength a b = .ok (a - b) :=
  ok_bind (reject_ok.mpr (by omega))

/-! ### The kinds of frames -/

section

variable {L : Libraries M A}

variable {body : Bytes}

variable {read : Json → Option α}

theorem safe_readJson : Safe (readJson L body read) := safe_json

theorem safe_within {limit : Nat} : Safe (within body limit) := safe_reject.bind fun _ _ => safe_pure _

theorem safe_callValue : Safe (callValue L body) :=
  safe_readJson.bind fun _ _ => safe_reject.bind fun _ _ => safe_pure _

theorem safe_decodeMetadata : Safe (decodeMetadata L body) :=
  safe_reject.bind fun _ _ => safe_readJson.bind fun _ _ => safe_reject.bind fun _ _ => safe_pure _

theorem safe_exact {length : Nat} : Safe (exact body length) := safe_reject

theorem exact_length {length : Nat} {u : Unit} (h : exact body length = .ok u) :
    body.length = length := not_not.mp (reject_ok.mp h)

theorem safe_checkPixels {rows cols : UInt16} {width height cellWidth cellHeight : UInt32} :
    Safe (checkPixels rows cols width height cellWidth cellHeight) := by
  unfold checkPixels
  split
  · exact safe_ok _
  · exact safe_reject

theorem safe_encodeControl {control : TerminalControl} : Safe (encodeControl L control) := by
  refine Safe.bind ?_ fun _ _ => safe_pure _
  cases control with
  | input bytes => exact safe_invalid _
  | message bytes => exact safe_require.bind fun _ _ => safe_pure _
  | resize => exact safe_reject.bind fun _ _ => safe_checkPixels.bind fun _ _ => safe_pure _
  | focus => exact safe_pure _
  | interrupt => exact safe_pure _
  | close => exact safe_pure _
  | canvas => exact safe_reject.bind fun _ _ => safe_pure _

variable {value : Json}

theorem safe_text {field : String} : Safe (text value field) := safe_require

theorem safe_narrow {field what : String} {read : Nat → Option α} :
    Safe (narrow value field what read) := safe_require.bind fun _ _ => safe_require

theorem safe_controlOf : Safe (controlOf L value) := by
  refine safe_text.bind fun kind _ => ?_
  split
  · refine safe_narrow.bind fun _ _ => safe_narrow.bind fun _ _ => safe_narrow.bind fun _ _ =>
      safe_narrow.bind fun _ _ => safe_narrow.bind fun _ _ => safe_narrow.bind fun _ _ => ?_
    exact safe_require.bind fun _ _ => safe_encodeControl.bind fun _ _ => safe_pure _
  · exact safe_require.bind fun _ _ => safe_pure _
  · exact safe_text.bind fun _ _ => safe_pure _
  · exact safe_pure _
  · exact safe_pure _
  · exact safe_require.bind fun _ _ => safe_json.bind fun _ _ =>
      safe_reject.bind fun _ _ => safe_pure _
  · exact safe_invalid _

theorem safe_decodeControl : Safe (decodeControl L body) :=
  safe_json.bind fun _ _ => safe_controlOf

/-- A record in a body. -/
theorem safe_record {limit : Nat} {next : α → Frame M A} :
    Safe (do return next (← readJson L (← within body limit) read) : Except Fault (Frame M A)) :=
  safe_within.bind fun _ _ => safe_readJson.bind fun _ _ => safe_pure _

/-- No kind of frame but output reads behind the end of its body. -/
theorem safe_decode {kind : UInt8} (hkind : kind ≠ 5) (body : Bytes) : Safe (decode L kind body) := by
  unfold decode
  split
  · exact safe_record
  · exact safe_record
  · refine safe_reject.bind fun _ hlength => ?_
    have hbody := reject_ok.mp hlength
    refine (safe_index (by omega)).bind fun _ _ => safe_reject.bind fun _ _ => ?_
    exact (safe_read64 (by omega)).bind fun _ _ => (safe_sliceFrom (by omega)).bind fun _ _ => safe_pure _
  · exact absurd rfl hkind
  · refine safe_exact.bind fun _ hlength => ?_
    have hbody := exact_length hlength
    refine (safe_read16 (by omega)).bind fun _ _ => (safe_read16 (by omega)).bind fun _ _ => ?_
    refine (safe_read32 (by omega)).bind fun _ _ => (safe_read32 (by omega)).bind fun _ _ => ?_
    exact (safe_read64 (by omega)).bind fun _ _ => safe_pure _
  · exact safe_within.bind fun _ _ => safe_decodeMetadata.bind fun _ _ => safe_pure _
  · refine safe_exact.bind fun _ hlength => ?_
    have hbody := exact_length hlength
    exact (safe_read32 (by omega)).bind fun _ _ => (safe_read64 (by omega)).bind fun _ _ => safe_pure _
  · exact safe_record
  · refine safe_exact.bind fun _ hlength => ?_
    have hbody := exact_length hlength
    exact (safe_read64 (by omega)).bind fun _ _ => safe_pure _
  · refine safe_reject.bind fun _ hlength => ?_
    have hbody := reject_ok.mp hlength
    refine (safe_read64 (by omega)).bind fun _ _ => (safe_read32 (by omega)).bind fun _ _ => ?_
    exact (safe_sliceFrom (by omega)).bind fun _ _ => safe_pure _
  · refine safe_reject.bind fun _ hlength => ?_
    have hbody := reject_ok.mp hlength
    refine (safe_pipeId (by omega)).bind fun _ _ => (safe_sliceFrom (by omega)).bind fun _ _ => ?_
    exact safe_decodeControl.bind fun _ _ => safe_reject.bind fun _ _ => safe_pure _
  · exact safe_exact.bind fun _ _ => safe_pure _
  · refine safe_exact.bind fun _ hlength => ?_
    have hbody := exact_length hlength
    exact (safe_read64 (by omega)).bind fun _ _ => safe_pure _
  · exact safe_record
  · exact safe_within.bind fun _ _ => safe_callValue.bind fun _ _ => safe_pure _
  · exact safe_within.bind fun _ _ => safe_callValue.bind fun _ _ => safe_pure _
  · refine safe_reject.bind fun _ hlength => ?_
    have hbody := reject_ok.mp hlength
    refine (safe_pipeId (by omega)).bind fun _ _ => (safe_sliceFrom (by omega)).bind fun _ _ => ?_
    exact safe_callValue.bind fun _ _ => safe_pure _
  · exact safe_record
  · refine safe_reject.bind fun _ hlength => ?_
    have hbody := reject_ok.mp hlength
    refine (safe_pipeId (by omega)).bind fun _ _ => (safe_read64 (by omega)).bind fun _ _ => ?_
    exact (safe_sliceFrom (by omega)).bind fun _ _ => safe_pure _
  · exact safe_record
  · refine safe_reject.bind fun _ hlength => ?_
    have hbody := reject_ok.mp hlength
    refine (safe_sliceFrom (by omega)).bind fun _ _ => safe_readJson.bind fun _ _ => ?_
    exact (safe_pipeId (by omega)).bind fun _ _ => safe_pure _
  · refine safe_reject.bind fun _ hlength => ?_
    have hbody := reject_ok.mp hlength
    refine (safe_index (by omega)).bind fun _ _ => safe_reject.bind fun _ _ => ?_
    exact (safe_pipeId (by omega)).bind fun _ _ => (safe_sliceFrom (by omega)).bind fun _ _ => safe_pure _
  · refine safe_exact.bind fun _ hlength => ?_
    have hbody := exact_length hlength
    exact (safe_pipeId (by omega)).bind fun _ _ => safe_pure _
  · refine safe_exact.bind fun _ hlength => ?_
    have hbody := exact_length hlength
    exact (safe_pipeId (by omega)).bind fun _ _ => safe_pure _
  · refine safe_reject.bind fun _ hlength => ?_
    have hbody := reject_ok.mp hlength
    refine (safe_sliceFrom (by omega)).bind fun _ _ => safe_readJson.bind fun _ _ => ?_
    exact safe_reject.bind fun _ _ => (safe_pipeId (by omega)).bind fun _ _ => safe_pure _
  · exact safe_invalid _

end

/-! ### Output -/

variable {part : Bytes}

theorem slice_iff : slice bytes start stop = .ok part ↔
    (start ≤ stop ∧ stop ≤ bytes.length) ∧ (bytes.take stop).drop start = part := by
  rw [slice]
  constructor
  · intro h
    obtain ⟨⟨⟩, hin, h⟩ := bind_ok h
    exact ⟨not_not.mp (reject_ok.mp hin), Except.ok.inj h⟩
  · rintro ⟨hin, rfl⟩
    exact ok_bind (reject_ok.mpr (not_not.mpr hin))

/-- What a slice holds stands in front of what comes behind it. -/
theorem slice_front (h : slice bytes start stop = .ok part) :
    part.length = stop - start ∧ bytes.drop start = part ++ bytes.drop stop := by
  obtain ⟨⟨hle, hstop⟩, rfl⟩ := slice_iff.mp h
  refine ⟨by rw [List.length_drop, List.length_take]; omega, ?_⟩
  have hwhole := congrArg (List.drop start) (List.take_append_drop stop bytes)
  rwa [List.drop_append_of_le_length (by rw [List.length_take]; omega), eq_comm] at hwhole

theorem sliceFrom_front (h : sliceFrom bytes start = .ok part) : bytes.drop start = part := by
  have hfront := (slice_front h).2
  rwa [List.drop_length, List.append_nil] at hfront

theorem toBe_of_length {k : Nat} (h : part.length = k) : toBe k (ofBe part) = part := by
  rw [← h, toBe_ofBe]

theorem ofBe_lt_of_length {k : Nat} (h : part.length = k) : ofBe part < 256 ^ k := h ▸ ofBe_lt part

theorem read24_front {n : Nat} (h : read24 bytes at' = .ok n) :
    n < 2 ^ 24 ∧ bytes.drop at' = toBe 3 n ++ bytes.drop (at' + 3) := by
  obtain ⟨part, hpart, h⟩ := bind_ok h
  obtain rfl := Except.ok.inj h
  obtain ⟨hlength, hfront⟩ := slice_front hpart
  rw [Nat.add_sub_cancel_left] at hlength
  exact ⟨ofBe_lt_of_length hlength, by rw [toBe_of_length hlength]; exact hfront⟩

theorem read16_front {n : UInt16} (h : read16 bytes at' = .ok n) :
    bytes.drop at' = toBe 2 n.toNat ++ bytes.drop (at' + 2) := by
  obtain ⟨part, hpart, h⟩ := bind_ok h
  obtain rfl := Except.ok.inj h
  obtain ⟨hlength, hfront⟩ := slice_front hpart
  rw [Nat.add_sub_cancel_left] at hlength
  rw [UInt16.toNat_ofNat_of_lt' (ofBe_lt_of_length hlength), toBe_of_length hlength]
  exact hfront

theorem read32_front {n : UInt32} (h : read32 bytes at' = .ok n) :
    bytes.drop at' = toBe 4 n.toNat ++ bytes.drop (at' + 4) := by
  obtain ⟨part, hpart, h⟩ := bind_ok h
  obtain rfl := Except.ok.inj h
  obtain ⟨hlength, hfront⟩ := slice_front hpart
  rw [Nat.add_sub_cancel_left] at hlength
  rw [UInt32.toNat_ofNat_of_lt' (ofBe_lt_of_length hlength), toBe_of_length hlength]
  exact hfront

theorem read64_front {n : UInt64} (h : read64 bytes at' = .ok n) :
    bytes.drop at' = toBe 8 n.toNat ++ bytes.drop (at' + 8) := by
  obtain ⟨part, hpart, h⟩ := bind_ok h
  obtain rfl := Except.ok.inj h
  obtain ⟨hlength, hfront⟩ := slice_front hpart
  rw [Nat.add_sub_cancel_left] at hlength
  rw [UInt64.toNat_ofNat_of_lt' (ofBe_lt_of_length hlength), toBe_of_length hlength]
  exact hfront

theorem pipeId_front {body : Bytes} {id : Uuid} (h : pipeId body = .ok id) : body = uuidBytes id ++ body.drop 16 := by
  obtain ⟨part, hpart, h⟩ := bind_ok h
  obtain rfl := Except.ok.inj h
  obtain ⟨hlength, hfront⟩ := slice_front hpart
  have hlt : ofBe part < 2 ^ 128 := ofBe_lt_of_length hlength
  rw [uuidBytes, Fin.val_ofNat, Nat.mod_eq_of_lt hlt, toBe_of_length hlength]
  exact hfront

theorem index_front {i : Nat} {b : UInt8} (h : index bytes i = .ok b) : bytes.drop i = b :: bytes.drop (i + 1) := by
  rw [index, require_ok] at h
  obtain ⟨hi, rfl⟩ := List.getElem?_eq_some_iff.mp h
  exact List.drop_eq_getElem_cons hi

theorem plainOutput_cons (chunk : Bytes) (chunks : List Bytes) :
    plainOutput (chunk :: chunks) = (toBe 4 chunk.length ++ chunk) ++ plainOutput chunks := rfl

namespace Sized

variable {plain : Bytes}

/-- Reading chunks goes on until the plain bytes end. -/
theorem splitChunks_safe (hplain : plain.length < LENGTHS) (at' read : Nat) : Safe (splitChunks plain at' read) := by
  induction hleft : plain.length - at' using Nat.strong_induction_on generalizing at' read with
  | _ left ih =>
    rw [splitChunks]
    by_cases hend : plain.length ≤ at'
    · rw [if_pos hend]
      exact safe_pure _
    · rw [if_neg hend, ok_bind (safe_subLength (by omega))]
      refine safe_reject.bind fun _ hfour => ?_
      have hroom := reject_ok.mp hfour
      refine (safe_read32 (by omega)).bind fun size _ => ?_
      rw [ok_bind (safe_addLength (by omega)), ok_bind (safe_subLength (by omega))]
      refine safe_reject.bind fun _ hsize => ?_
      have hsize := reject_ok.mp hsize
      rw [ok_bind (safe_addLength (by omega))]
      refine (safe_slice (by omega)).bind fun _ _ => (ih _ ?_ _ _ rfl).bind fun _ _ => safe_pure _
      omega

/-- The chunks are the plain bytes from the place on. -/
theorem splitChunks_ok (at' read : Nat) {chunks : List Bytes} (hat : at' ≤ plain.length)
    (h : splitChunks plain at' read = .ok chunks) : plain.drop at' = plainOutput chunks := by
  induction hleft : plain.length - at' using Nat.strong_induction_on generalizing at' read chunks with
  | _ left ih =>
    rw [splitChunks] at h
    by_cases hend : plain.length ≤ at'
    · rw [if_pos hend] at h
      obtain rfl := Except.ok.inj h
      exact List.drop_eq_nil_iff.mpr hend
    · rw [if_neg hend, ok_bind (safe_subLength (by omega))] at h
      obtain ⟨_, hfour, h⟩ := bind_ok h
      have hroom := reject_ok.mp hfour
      obtain ⟨size, hread, h⟩ := bind_ok h
      obtain ⟨start, hstart, h⟩ := bind_ok h
      obtain ⟨_, _, hstart⟩ := bind_ok hstart
      obtain rfl := Except.ok.inj hstart
      rw [ok_bind (safe_subLength (by omega))] at h
      obtain ⟨_, hsize, h⟩ := bind_ok h
      have hsize := reject_ok.mp hsize
      obtain ⟨stop, hstop, h⟩ := bind_ok h
      obtain ⟨_, _, hstop⟩ := bind_ok hstop
      obtain rfl := Except.ok.inj hstop
      obtain ⟨chunk, hchunk, h⟩ := bind_ok h
      obtain ⟨rest, hrest, h⟩ := bind_ok h
      obtain rfl := Except.ok.inj h
      obtain ⟨hlength, hfront⟩ := slice_front hchunk
      have hbehind := ih _ (by omega) _ _ (by omega) hrest rfl
      have hsame : chunk.length = size.toNat := by omega
      rw [read32_front hread, hfront, hbehind, plainOutput_cons, hsame, List.append_assoc]

variable {S : Decompress σ}

theorem plainOf_safe (hS : S.Lawful) (packed : UInt8) (rest : Bytes) : Safe (plainOf S packed rest) := by
  unfold plainOf
  split
  · exact Decompress.unpack_safe hS rest _
  · exact safe_ok _

theorem plainOf_short {packed : UInt8} {rest : Bytes} (hrest : rest.length < LENGTHS)
    (h : plainOf S packed rest = .ok plain) : plain.length < LENGTHS := by
  unfold plainOf at h
  split at h
  · have hshort : UNPACKED_OUTPUT_LIMIT < LENGTHS := by decide
    have hlength := (Decompress.unpack_ok h).1
    omega
  · obtain rfl := Except.ok.inj h
    exact hrest

theorem decodeOutput_safe (hS : S.Lawful) {body : Bytes} (hbody : body.length < LENGTHS) :
    Safe (decodeOutput S body : Except Fault (Frame M A)) := by
  refine safe_reject.bind fun _ hlength => ?_
  have hlong := reject_ok.mp hlength
  refine (safe_index (by omega)).bind fun packed _ => safe_reject.bind fun _ _ => ?_
  refine (safe_sliceFrom (by omega)).bind fun rest hrest => (plainOf_safe hS packed rest).bind fun plain hplain => ?_
  have hshort : rest.length < LENGTHS := by
    rw [← sliceFrom_front hrest, List.length_drop]
    omega
  refine (splitChunks_safe (plainOf_short hshort hplain) 0 0).bind fun _ _ => safe_reject.bind fun _ _ => ?_
  exact (safe_read64 (by omega)).bind fun _ _ => safe_pure _

end Sized

/-! ### What each byte of a body says -/

/-- A record is all of a text of JSON. -/
def HoldsRecord (L : Libraries M A) (body : Bytes) (read : Json → Option α) (a : α) : Prop :=
  ∃ json, L.fromSlice body = some json ∧ read json = some a

/-- The kind and the body that stand for a frame. Nothing of the body is left over. -/
def Frame.Layout (S : Decompress σ) (L : Libraries M A) : Frame M A → UInt8 → Bytes → Prop
  | .accept a, kind, body => kind = 2 ∧ HoldsRecord L body (Accept.fromValue L) a
  | .refuse r, kind, body => kind = 3 ∧ HoldsRecord L body Refuse.fromValue r
  | .keyframe nextSequence more part, kind, body =>
    kind = 4 ∧ body = toBe 8 nextSequence.toNat ++ kindByte more :: part
  | .output firstSequence chunks, kind, body => kind = 5 ∧ ∃ packed rest,
    body = toBe 8 firstSequence.toNat ++ packed :: rest ∧
      (packed = 0 ∧ rest = plainOutput chunks ∨ packed = 1 ∧ S.Inflates S.new rest (plainOutput chunks))
  | .resize rows cols cell atSequence, kind, body => kind = 6 ∧ body = toBe 2 rows.toNat ++ (toBe 2 cols.toNat ++
    (toBe 4 cell.width.toNat ++ (toBe 4 cell.height.toNat ++ toBe 8 atSequence.toNat)))
  | .metadata m, kind, body => kind = 7 ∧ HoldsRecord L body L.readMetadata m
  | .heartbeat number nextSequence, kind, body =>
    kind = 8 ∧ body = toBe 4 number.toNat ++ toBe 8 nextSequence.toNat
  | .ended e, kind, body => kind = 9 ∧ HoldsRecord L body End.fromValue e
  | .ack received, kind, body => kind = 10 ∧ body = toBe 8 received.toNat
  | .input offset beat bytes, kind, body =>
    kind = 11 ∧ body = toBe 8 offset.toNat ++ (toBe 4 beat.toNat ++ bytes)
  | .control requestId c, kind, body => kind = 12 ∧ ∃ rest json,
    body = uuidBytes requestId ++ rest ∧ L.fromSlice rest = some json ∧ controlOf L json = .ok c
  | .refresh, kind, body => kind = 13 ∧ body = []
  | .inputAck offset, kind, body => kind = 14 ∧ body = toBe 8 offset.toNat
  | .controlResult result, kind, body => kind = 15 ∧ HoldsRecord L body (ControlResult.fromValue L) result
  | .request value, kind, body => kind = 16 ∧ HoldsRecord L body some value
  | .answer value, kind, body => kind = 17 ∧ HoldsRecord L body some value
  | .controlValue requestId value, kind, body =>
    kind = 18 ∧ ∃ rest, body = uuidBytes requestId ++ rest ∧ HoldsRecord L rest some value
  | .picture offer, kind, body => kind = 19 ∧ HoldsRecord L body (PictureOffer.fromValue L) offer
  | .picturePart id offset bytes, kind, body =>
    kind = 20 ∧ body = uuidBytes id ++ (toBe 8 offset.toNat ++ bytes)
  | .pictureState state, kind, body => kind = 21 ∧ HoldsRecord L body (PictureState.fromValue L) state
  | .pipeOpen pipe key name, kind, body =>
    kind = 22 ∧ ∃ rest, body = uuidBytes pipe ++ rest ∧ HoldsRecord L rest readPair (key, name)
  | .pipeData pipe more part, kind, body => kind = 23 ∧ body = uuidBytes pipe ++ kindByte more :: part
  | .pipeClose pipe, kind, body => kind = 24 ∧ body = uuidBytes pipe
  | .directAsk pipe, kind, body => kind = 25 ∧ body = uuidBytes pipe
  | .directOffer pipe addresses, kind, body =>
    kind = 26 ∧ ∃ rest, body = uuidBytes pipe ++ rest ∧ HoldsRecord L rest (readArray (readAddress L)) addresses

section

variable {S : Decompress σ} {L : Libraries M A}

variable {body : Bytes}

variable {read : Json → Option α}

theorem readJson_holds {a : α} (h : readJson L body read = .ok a) : HoldsRecord L body read a := by
  rw [readJson, require_ok] at h
  exact Option.bind_eq_some_iff.mp h

theorem within_same {part : Bytes} {limit : Nat} (h : within body limit = .ok part) : body = part := by
  obtain ⟨_, _, h⟩ := bind_ok h
  exact Except.ok.inj h

theorem record_holds {limit : Nat} {next : α → Frame M A} {f : Frame M A}
    (h : (do return next (← readJson L (← within body limit) read) : Except Fault (Frame M A)) = .ok f) :
    ∃ a, next a = f ∧ HoldsRecord L body read a := by
  obtain ⟨part, hpart, h⟩ := bind_ok h
  obtain rfl := within_same hpart
  obtain ⟨a, ha, h⟩ := bind_ok h
  exact ⟨a, Except.ok.inj h, readJson_holds ha⟩

theorem callValue_holds {value : Json} (h : callValue L body = .ok value) : HoldsRecord L body some value := by
  obtain ⟨value', hvalue, h⟩ := bind_ok h
  obtain ⟨_, _, h⟩ := bind_ok h
  obtain rfl := Except.ok.inj h
  exact readJson_holds hvalue

theorem kindByte_flag {flag : UInt8} {u : Unit} {reason : String} (h : reject (1 < flag) (Fault.invalid reason) = .ok u) :
    kindByte (decide (flag = 1)) = flag := by
  have hle : flag.toNat ≤ 1 := by simpa [UInt8.lt_iff_toNat_lt] using reject_ok.mp h
  by_cases hone : flag = 1
  · rw [hone]
    rfl
  · have hzero : flag.toNat ≠ 1 := fun heq => hone (UInt8.toNat_inj.mp heq)
    rw [decide_eq_false hone]
    exact UInt8.toNat_inj.mp (show 0 = flag.toNat by omega)

/-- A body of bytes that is read whole, field by field. -/
theorem drop_exact {length : Nat} {u : Unit} (h : exact body length = .ok u) : body.drop length = [] :=
  List.drop_eq_nil_iff.mpr (exact_length h).le

/-- What is decoded of a body is what each of its bytes says. -/
theorem decode_layout {kind : UInt8} {f : Frame M A} (hkind : kind ≠ 5) (h : decode L kind body = .ok f) :
    f.Layout S L kind body := by
  unfold decode at h
  split at h
  · obtain ⟨_, rfl, hrecord⟩ := record_holds h
    exact ⟨rfl, hrecord⟩
  · obtain ⟨_, rfl, hrecord⟩ := record_holds h
    exact ⟨rfl, hrecord⟩
  · obtain ⟨_, _, h⟩ := bind_ok h
    obtain ⟨more, hmore, h⟩ := bind_ok h
    obtain ⟨_, hflag, h⟩ := bind_ok h
    obtain ⟨sequence, hsequence, h⟩ := bind_ok h
    obtain ⟨part, hpart, h⟩ := bind_ok h
    obtain rfl := Except.ok.inj h
    refine ⟨rfl, ?_⟩
    rw [kindByte_flag hflag, ← sliceFrom_front hpart, ← index_front hmore]
    exact read64_front hsequence
  · exact absurd rfl hkind
  · obtain ⟨_, hexact, h⟩ := bind_ok h
    obtain ⟨rows, hrows, h⟩ := bind_ok h
    obtain ⟨cols, hcols, h⟩ := bind_ok h
    obtain ⟨width, hwidth, h⟩ := bind_ok h
    obtain ⟨height, hheight, h⟩ := bind_ok h
    obtain ⟨sequence, hsequence, h⟩ := bind_ok h
    obtain rfl := Except.ok.inj h
    have hlast := read64_front hsequence
    rw [drop_exact hexact, List.append_nil] at hlast
    refine ⟨rfl, ?_⟩
    rw [← hlast, ← read32_front hheight, ← read32_front hwidth, ← read16_front hcols]
    exact read16_front hrows
  · obtain ⟨_, hpart, h⟩ := bind_ok h
    obtain rfl := within_same hpart
    obtain ⟨metadata, hmetadata, h⟩ := bind_ok h
    obtain rfl := Except.ok.inj h
    obtain ⟨_, _, hmetadata⟩ := bind_ok hmetadata
    obtain ⟨metadata', hread, hmetadata⟩ := bind_ok hmetadata
    obtain ⟨_, _, hmetadata⟩ := bind_ok hmetadata
    obtain rfl := Except.ok.inj hmetadata
    exact ⟨rfl, readJson_holds hread⟩
  · obtain ⟨_, hexact, h⟩ := bind_ok h
    obtain ⟨number, hnumber, h⟩ := bind_ok h
    obtain ⟨sequence, hsequence, h⟩ := bind_ok h
    obtain rfl := Except.ok.inj h
    have hlast := read64_front hsequence
    rw [drop_exact hexact, List.append_nil] at hlast
    refine ⟨rfl, ?_⟩
    rw [← hlast]
    exact read32_front hnumber
  · obtain ⟨_, rfl, hrecord⟩ := record_holds h
    exact ⟨rfl, hrecord⟩
  · obtain ⟨_, hexact, h⟩ := bind_ok h
    obtain ⟨received, hreceived, h⟩ := bind_ok h
    obtain rfl := Except.ok.inj h
    have hlast := read64_front hreceived
    rw [drop_exact hexact, List.append_nil] at hlast
    exact ⟨rfl, hlast⟩
  · obtain ⟨_, _, h⟩ := bind_ok h
    obtain ⟨offset, hoffset, h⟩ := bind_ok h
    obtain ⟨heartbeat, hheartbeat, h⟩ := bind_ok h
    obtain ⟨part, hpart, h⟩ := bind_ok h
    obtain rfl := Except.ok.inj h
    refine ⟨rfl, ?_⟩
    rw [← sliceFrom_front hpart, ← read32_front hheartbeat]
    exact read64_front hoffset
  · obtain ⟨_, _, h⟩ := bind_ok h
    obtain ⟨requestId, hid, h⟩ := bind_ok h
    obtain ⟨rest, hrest, h⟩ := bind_ok h
    obtain ⟨control, hcontrol, h⟩ := bind_ok h
    obtain ⟨_, _, h⟩ := bind_ok h
    obtain rfl := Except.ok.inj h
    obtain ⟨json, hjson, hcontrol⟩ := bind_ok hcontrol
    refine ⟨rfl, rest, json, ?_, require_ok.mp hjson, hcontrol⟩
    rw [← sliceFrom_front hrest]
    exact pipeId_front hid
  · obtain ⟨_, hexact, h⟩ := bind_ok h
    obtain rfl := Except.ok.inj h
    exact ⟨rfl, drop_exact hexact⟩
  · obtain ⟨_, hexact, h⟩ := bind_ok h
    obtain ⟨offset, hoffset, h⟩ := bind_ok h
    obtain rfl := Except.ok.inj h
    have hlast := read64_front hoffset
    rw [drop_exact hexact, List.append_nil] at hlast
    exact ⟨rfl, hlast⟩
  · obtain ⟨_, rfl, hrecord⟩ := record_holds h
    exact ⟨rfl, hrecord⟩
  · obtain ⟨_, hpart, h⟩ := bind_ok h
    obtain rfl := within_same hpart
    obtain ⟨request, hrequest, h⟩ := bind_ok h
    obtain rfl := Except.ok.inj h
    exact ⟨rfl, callValue_holds hrequest⟩
  · obtain ⟨_, hpart, h⟩ := bind_ok h
    obtain rfl := within_same hpart
    obtain ⟨answer, hanswer, h⟩ := bind_ok h
    obtain rfl := Except.ok.inj h
    exact ⟨rfl, callValue_holds hanswer⟩
  · obtain ⟨_, _, h⟩ := bind_ok h
    obtain ⟨requestId, hid, h⟩ := bind_ok h
    obtain ⟨rest, hrest, h⟩ := bind_ok h
    obtain ⟨value, hvalue, h⟩ := bind_ok h
    obtain rfl := Except.ok.inj h
    refine ⟨rfl, rest, ?_, callValue_holds hvalue⟩
    rw [← sliceFrom_front hrest]
    exact pipeId_front hid
  · obtain ⟨_, rfl, hrecord⟩ := record_holds h
    exact ⟨rfl, hrecord⟩
  · obtain ⟨_, _, h⟩ := bind_ok h
    obtain ⟨id, hid, h⟩ := bind_ok h
    obtain ⟨offset, hoffset, h⟩ := bind_ok h
    obtain ⟨part, hpart, h⟩ := bind_ok h
    obtain rfl := Except.ok.inj h
    refine ⟨rfl, ?_⟩
    rw [← sliceFrom_front hpart, ← read64_front hoffset]
    exact pipeId_front hid
  · obtain ⟨_, rfl, hrecord⟩ := record_holds h
    exact ⟨rfl, hrecord⟩
  · obtain ⟨_, _, h⟩ := bind_ok h
    obtain ⟨rest, hrest, h⟩ := bind_ok h
    obtain ⟨⟨key, name⟩, hpair, h⟩ := bind_ok h
    obtain ⟨pipe, hid, h⟩ := bind_ok h
    obtain rfl := Except.ok.inj h
    refine ⟨rfl, rest, ?_, readJson_holds hpair⟩
    rw [← sliceFrom_front hrest]
    exact pipeId_front hid
  · obtain ⟨_, _, h⟩ := bind_ok h
    obtain ⟨more, hmore, h⟩ := bind_ok h
    obtain ⟨_, hflag, h⟩ := bind_ok h
    obtain ⟨pipe, hid, h⟩ := bind_ok h
    obtain ⟨part, hpart, h⟩ := bind_ok h
    obtain rfl := Except.ok.inj h
    refine ⟨rfl, ?_⟩
    rw [kindByte_flag hflag, ← sliceFrom_front hpart, ← index_front hmore]
    exact pipeId_front hid
  · obtain ⟨_, hexact, h⟩ := bind_ok h
    obtain ⟨pipe, hid, h⟩ := bind_ok h
    obtain rfl := Except.ok.inj h
    have hlast := pipeId_front hid
    rw [drop_exact hexact, List.append_nil] at hlast
    exact ⟨rfl, hlast⟩
  · obtain ⟨_, hexact, h⟩ := bind_ok h
    obtain ⟨pipe, hid, h⟩ := bind_ok h
    obtain rfl := Except.ok.inj h
    have hlast := pipeId_front hid
    rw [drop_exact hexact, List.append_nil] at hlast
    exact ⟨rfl, hlast⟩
  · obtain ⟨_, _, h⟩ := bind_ok h
    obtain ⟨rest, hrest, h⟩ := bind_ok h
    obtain ⟨addresses, haddresses, h⟩ := bind_ok h
    obtain ⟨_, _, h⟩ := bind_ok h
    obtain ⟨pipe, hid, h⟩ := bind_ok h
    obtain rfl := Except.ok.inj h
    refine ⟨rfl, rest, ?_, readJson_holds haddresses⟩
    rw [← sliceFrom_front hrest]
    exact pipeId_front hid
  · cases h

namespace Sized

theorem decodeOutput_layout {f : Frame M A} (h : decodeOutput S body = .ok f) : f.Layout S L 5 body := by
  obtain ⟨_, _, h⟩ := bind_ok h
  obtain ⟨packed, hpacked, h⟩ := bind_ok h
  obtain ⟨_, hflag, h⟩ := bind_ok h
  obtain ⟨rest, hrest, h⟩ := bind_ok h
  obtain ⟨plain, hplain, h⟩ := bind_ok h
  obtain ⟨chunks, hchunks, h⟩ := bind_ok h
  obtain ⟨_, _, h⟩ := bind_ok h
  obtain ⟨sequence, hsequence, h⟩ := bind_ok h
  obtain rfl := Except.ok.inj h
  have hsplit : plain = plainOutput chunks := splitChunks_ok 0 0 (Nat.zero_le _) hchunks
  refine ⟨rfl, packed, rest, ?_, ?_⟩
  · rw [← sliceFrom_front hrest, ← index_front hpacked]
    exact read64_front hsequence
  · have hkind := kindByte_flag hflag
    unfold plainOf at hplain
    split at hplain
    · rename_i hone
      exact .inr ⟨hone, hsplit ▸ (Decompress.unpack_ok hplain).2⟩
    · rename_i hone
      rw [decide_eq_false hone] at hkind
      exact .inl ⟨hkind.symm, (Except.ok.inj hplain).trans hsplit⟩

theorem decode_layout {kind : UInt8} {f : Frame M A} (h : decode S L kind body = .ok f) : f.Layout S L kind body := by
  unfold decode at h
  split at h
  · rename_i hkind
    rw [hkind]
    exact decodeOutput_layout h
  · rename_i hkind
    exact Wire.decode_layout hkind h

theorem decode_safe (hS : S.Lawful) {kind : UInt8} (hbody : body.length < LENGTHS) : Safe (decode S L kind body) := by
  unfold decode
  split
  · exact decodeOutput_safe hS hbody
  · rename_i hkind
    exact safe_decode hkind body

end Sized

/-! ### The whole frame -/

/-- Of a frame that is taken: its declared length is in the bounds and in the buffer, and its bytes are this length,
    the kind, the length of the body, a body that stands for the frame, and zeros. -/
structure Frame.Accounted (S : Decompress σ) (L : Libraries M A) (buffer : Bytes) (f : Frame M A) (length : Nat) :
    Prop where
  header : HEADER ≤ length
  bound : length ≤ FRAME_LIMIT
  held : length ≤ buffer.length
  bytes : ∃ kind body zeros, f.Layout S L kind body ∧
    buffer.take length = toBe 3 (length - 3) ++ (kind :: (toBe 3 body.length ++ (body ++ List.replicate zeros 0)))

theorem addLength_ok {a b n : Nat} (h : addLength a b = .ok n) : a + b = n := by
  obtain ⟨_, _, h⟩ := bind_ok h
  exact Except.ok.inj h

namespace Sized

theorem takeFrame_accounted {buffer : Bytes} {f : Frame M A} {length : Nat}
    (h : takeFrame S L buffer = .ok (some (f, length))) : f.Accounted S L buffer length := by
  rw [takeFrame] at h
  by_cases hthree : buffer.length < 3
  · rw [if_pos hthree] at h
    cases h
  rw [if_neg hthree] at h
  obtain ⟨first, hfirst, h⟩ := bind_ok h
  obtain ⟨length', hlength, h⟩ := bind_ok h
  obtain ⟨_, hrange, h⟩ := bind_ok h
  by_cases hwait : buffer.length < length'
  · rw [if_pos hwait] at h
    cases h
  rw [if_neg hwait] at h
  obtain ⟨kind, hkind, h⟩ := bind_ok h
  obtain ⟨size, hsize, h⟩ := bind_ok h
  obtain ⟨stop, hstop, h⟩ := bind_ok h
  obtain ⟨_, hinside, h⟩ := bind_ok h
  obtain ⟨padding, hpadding, h⟩ := bind_ok h
  obtain ⟨_, hzeros, h⟩ := bind_ok h
  obtain ⟨body, hbody, h⟩ := bind_ok h
  obtain ⟨frame, hframe, h⟩ := bind_ok h
  obtain ⟨rfl, rfl⟩ := Prod.mk.inj (Option.some.inj (Except.ok.inj h))
  obtain rfl := addLength_ok hlength
  obtain rfl := addLength_ok hstop
  obtain ⟨hheader, hbound⟩ := not_not.mp (reject_ok.mp hrange)
  have hzero : ∀ byte ∈ padding, byte = 0 := by
    intro byte hbyte
    by_contra hne
    exact reject_ok.mp hzeros ⟨byte, hbyte, hne⟩
  obtain ⟨hbodyLength, hbodyFront⟩ := slice_front hbody
  obtain ⟨-, hpaddingFront⟩ := slice_front hpadding
  rw [Nat.add_sub_cancel_left] at hbodyLength
  refine ⟨hheader, hbound, by omega, kind, body, padding.length, decode_layout hframe, ?_⟩
  have hwhole : buffer = (toBe 3 first ++ (kind :: (toBe 3 body.length ++ (body ++ padding)))) ++
      buffer.drop (3 + first) := by
    have hstart := (read24_front hfirst).2
    have hbehind : buffer.drop 4 = toBe 3 size ++ buffer.drop HEADER := (read24_front hsize).2
    rw [index_front hkind, hbehind, hbodyFront, hpaddingFront] at hstart
    simpa [hbodyLength] using hstart
  have hlengths : (toBe 3 first ++ (kind :: (toBe 3 body.length ++ (body ++ padding)))).length = 3 + first := by
    have hcount := congrArg List.length hwhole
    rw [List.length_append, List.length_drop] at hcount
    omega
  have hreplicate := List.eq_replicate_of_mem hzero
  rw [Nat.add_sub_cancel_left]
  calc buffer.take (3 + first) = toBe 3 first ++ (kind :: (toBe 3 body.length ++ (body ++ padding))) := by
        rw [hwhole]
        exact List.take_left' hlengths
    _ = _ := by rw [← hreplicate]

/-- No buffer makes the reader look outside of it, or count further than a machine can. -/
theorem takeFrame_safe (hS : S.Lawful) (buffer : Bytes) : Safe (takeFrame S L buffer) := by
  have hlong : 2 ^ 24 + HEADER < LENGTHS := by decide
  have hseven : HEADER = 7 := rfl
  rw [takeFrame]
  by_cases hthree : buffer.length < 3
  · rw [if_pos hthree]
    exact safe_pure _
  rw [if_neg hthree]
  refine (safe_read24 (by omega)).bind fun first hfirst => ?_
  have hfirst := (read24_front hfirst).1
  rw [ok_bind (safe_addLength (by omega))]
  refine safe_reject.bind fun _ hrange => ?_
  obtain ⟨hheader, hbound⟩ := not_not.mp (reject_ok.mp hrange)
  by_cases hwait : buffer.length < 3 + first
  · rw [if_pos hwait]
    exact safe_pure _
  rw [if_neg hwait]
  refine (safe_index (by omega)).bind fun kind _ => (safe_read24 (by omega)).bind fun size hsize => ?_
  have hsize := (read24_front hsize).1
  rw [ok_bind (safe_addLength (by omega))]
  refine safe_reject.bind fun _ hinside => ?_
  have hinside := reject_ok.mp hinside
  refine (safe_slice (by omega)).bind fun padding _ => safe_reject.bind fun _ _ => ?_
  refine (safe_slice (by omega)).bind fun body hbody => ?_
  have hbody := (slice_front hbody).1
  exact (decode_safe hS (by omega)).bind fun _ _ => safe_pure _

end Sized

/-- Whatever a buffer holds: the reader looks at nothing outside of it and counts no further than a machine can,
    leaves the buffer when it has no frame in front, and else takes off the declared length of a frame of which
    each byte says something. -/
theorem take_hostile (hS : S.Lawful) (L : Libraries M A) (buffer : Bytes) :
    match Sized.take S L buffer with
    | (.ok (some (f, length)), rest) => rest = buffer.drop length ∧ f.Accounted S L buffer length
    | (.ok none, rest) => rest = buffer
    | (.error fault, rest) => fault ≠ .panic ∧ rest = buffer := by
  unfold Sized.take
  cases htake : Sized.takeFrame S L buffer with
  | error fault => exact ⟨fun h => Sized.takeFrame_safe hS buffer (htake.trans (congrArg _ h)), rfl⟩
  | ok out =>
    cases out with
    | none => rfl
    | some taken =>
      obtain ⟨f, length⟩ := taken
      exact ⟨rfl, Sized.takeFrame_accounted htake⟩

end

/-! ### The same frames

    Lengths of the machine take off the same frames as numbers without a bound. -/

/-- Libraries that unpack with the loop. -/
def Libraries.UnpackBy (L : Libraries M A) (S : Decompress σ) : Prop :=
  ∀ packed, L.inflate packed = (S.unpack packed UNPACKED_OUTPUT_LIMIT).toOption

theorem same_bind {y : Except Fault α} {g : α → Except Fault β} (hxy : x.toOption = y.toOption)
    (hfg : ∀ a, x = .ok a → (f a).toOption = (g a).toOption) : (x >>= f).toOption = (y >>= g).toOption := by
  cases x with
  | error e =>
    cases y with
    | error e' => rfl
    | ok b => cases hxy
  | ok a =>
    cases y with
    | error e' => cases hxy
    | ok b =>
      obtain rfl := Option.some.inj hxy
      exact hfg a rfl

namespace Sized

variable {S : Decompress σ} {L : Libraries M A}

theorem splitChunks_same {plain : Bytes} (hplain : plain.length < LENGTHS) (at' read : Nat) :
    (splitChunks plain at' read).toOption = (Wire.splitChunks plain at' read).toOption := by
  induction hleft : plain.length - at' using Nat.strong_induction_on generalizing at' read with
  | _ left ih =>
    rw [splitChunks, Wire.splitChunks]
    by_cases hend : plain.length ≤ at'
    · rw [if_pos hend, if_pos hend]
    · rw [if_neg hend, if_neg hend, ok_bind (safe_subLength (by omega))]
      refine same_bind rfl fun _ hfour => same_bind rfl fun size _ => ?_
      have hroom := reject_ok.mp hfour
      rw [ok_bind (safe_addLength (by omega)), ok_bind (safe_subLength (by omega))]
      refine same_bind rfl fun _ hsize => ?_
      have hsize := reject_ok.mp hsize
      rw [ok_bind (safe_addLength (by omega))]
      exact same_bind rfl fun _ _ => same_bind (ih _ (by omega) _ _ rfl) fun _ _ => rfl

theorem plainOf_same (hL : L.UnpackBy S) (packed : UInt8) (rest : Bytes) :
    (plainOf S packed rest).toOption = (Wire.plainOf L packed rest).toOption := by
  unfold plainOf Wire.plainOf
  by_cases hone : packed = 1
  · rw [if_pos hone, if_pos hone, Wire.unpack]
    cases hunpack : S.unpack rest UNPACKED_OUTPUT_LIMIT with
    | error e =>
      have hnone : L.inflate rest = none := (hL rest).trans (congrArg Except.toOption hunpack)
      rw [hnone]
      rfl
    | ok plain =>
      have hsome : L.inflate rest = some plain := (hL rest).trans (congrArg Except.toOption hunpack)
      have hshort := (Decompress.unpack_ok hunpack).1
      rw [ok_bind (require_ok.mpr hsome), ok_bind (reject_ok.mpr (by omega))]
      rfl
  · rw [if_neg hone, if_neg hone]

theorem decode_same (hL : L.UnpackBy S) {kind : UInt8} {body : Bytes} (hbody : body.length < LENGTHS) :
    (decode S L kind body).toOption = (Wire.decode L kind body).toOption := by
  unfold decode
  by_cases hkind : kind = 5
  · rw [if_pos hkind, hkind]
    refine same_bind rfl fun _ _ => same_bind rfl fun packed _ => same_bind rfl fun _ _ => ?_
    refine same_bind rfl fun rest hrest => same_bind (plainOf_same hL packed rest) fun plain hplain => ?_
    have hshort : rest.length < LENGTHS := by
      rw [← sliceFrom_front hrest, List.length_drop]
      omega
    exact same_bind (splitChunks_same (plainOf_short hshort hplain) 0 0) fun _ _ => rfl
  · rw [if_neg hkind]

theorem takeFrame_same (hL : L.UnpackBy S) (buffer : Bytes) :
    (takeFrame S L buffer).toOption = (Wire.takeFrame L buffer).toOption := by
  have hlong : 2 ^ 24 + HEADER < LENGTHS := by decide
  have hseven : HEADER = 7 := rfl
  rw [takeFrame, Wire.takeFrame]
  by_cases hthree : buffer.length < 3
  · rw [if_pos hthree, if_pos hthree]
  rw [if_neg hthree, if_neg hthree]
  refine same_bind rfl fun first hfirst => ?_
  have hfirst := (read24_front hfirst).1
  rw [ok_bind (safe_addLength (by omega))]
  refine same_bind rfl fun _ _ => ?_
  by_cases hwait : buffer.length < 3 + first
  · rw [if_pos hwait, if_pos hwait]
  rw [if_neg hwait, if_neg hwait]
  refine same_bind rfl fun kind _ => same_bind rfl fun size hsize => ?_
  have hsize := (read24_front hsize).1
  rw [ok_bind (safe_addLength (by omega))]
  refine same_bind rfl fun _ _ => same_bind rfl fun _ _ => same_bind rfl fun _ _ => same_bind rfl fun body hbody => ?_
  have hbody := (slice_front hbody).1
  exact same_bind (decode_same hL (by omega)) fun _ _ => rfl

theorem take_same (hL : L.UnpackBy S) {buffer rest : Bytes} {taken : Frame M A × Nat} :
    take S L buffer = (.ok (some taken), rest) ↔ Frame.take L buffer = (.ok (some taken), rest) := by
  have hsame := takeFrame_same hL buffer
  unfold take Frame.take
  cases hleft : takeFrame S L buffer with
  | error e =>
    cases hright : Wire.takeFrame L buffer with
    | error e' =>
      constructor
      · rintro ⟨⟩
      · rintro ⟨⟩
    | ok out =>
      rw [hleft, hright] at hsame
      cases hsame
  | ok out =>
    cases hright : Wire.takeFrame L buffer with
    | error e' =>
      rw [hleft, hright] at hsame
      cases hsame
    | ok out' =>
      rw [hleft, hright] at hsame
      obtain rfl := Option.some.inj hsame
      exact Iff.rfl

end Sized

/-! ### A decompressor of one block -/

namespace Stored

/-- One block of the packed data that is stored as it is: its flag, its length twice, and its bytes. -/
def decompressVec (_ : Unit) (input : Bytes) (room : Nat) : Option (Inflated Unit) :=
  match input with
  | 1 :: low :: high :: _ :: _ :: rest =>
    let length := low.toNat + 256 * high.toNat
    if length ≤ rest.length ∧ length ≤ room then some ⟨5 + length, rest.take length, true, ()⟩ else none
  | _ => none

def library : Decompress Unit := ⟨(), decompressVec⟩

theorem block {input : Bytes} {room : Nat} {step : Inflated Unit} (h : decompressVec () input room = some step) :
    step.used ≤ input.length ∧ step.output.length ≤ room := by
  unfold decompressVec at h
  split at h
  · dsimp only at h
    split at h
    · rename_i hfits
      obtain rfl := Option.some.inj h
      simp only [List.length_cons, List.length_take]
      omega
    · cases h
  · cases h

theorem lawful : library.Lawful where
  used h := (block h).1
  room h := (block h).2

end Stored

/-- A frame of 64 bytes that confirms five. -/
def fiveTaken : Bytes := [0, 0, 61, 10, 0, 0, 8] ++ [0, 0, 0, 0, 0, 0, 0, 5] ++ List.replicate 49 0

set_option maxRecDepth 4000 in
theorem fiveTaken_hostile : ([] : Bytes) = fiveTaken.drop 64 ∧
    (Frame.ack 5 : Frame Unit Empty).Accounted Stored.library Plain.libraries fiveTaken 64 := by
  have htake : Sized.take Stored.library Plain.libraries fiveTaken =
      (.ok (some ((Frame.ack 5 : Frame Unit Empty), 64)), []) := rfl
  have hhostile := take_hostile Stored.lawful Plain.libraries fiveTaken
  rwa [htake] at hhostile

set_option maxRecDepth 4000 in
theorem take_same_five :
    let L : Libraries Unit Empty := { Plain.libraries with
      inflate := fun packed => (Stored.library.unpack packed UNPACKED_OUTPUT_LIMIT).toOption }
    Frame.take L fiveTaken = (.ok (some (.ack 5, 64)), []) :=
  (Sized.take_same (S := Stored.library) fun _ => rfl).mp rfl

end Kodosi.Wire
