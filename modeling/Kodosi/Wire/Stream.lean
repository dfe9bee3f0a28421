import Kodosi.Wire.RoundTrip

/-! Frames that arrive in messages cut anywhere: the channel keeps the bytes of the frame that is not all there
    yet, and takes the frames off one after the other. -/

namespace Kodosi.Wire
open Kodosi.Lib
open Kodosi.Derive

variable {M A : Type} {L : Libraries M A}

variable {buffer : Bytes}

variable {f : Frame M A} {length : Nat}

theorem takeFrame_shorter (h : takeFrame L buffer = .ok (some (f, length))) :
    HEADER ≤ length ∧ length ≤ buffer.length := by
  rw [takeFrame] at h
  by_cases hthree : buffer.length < 3
  · rw [if_pos hthree] at h
    cases h
  · rw [if_neg hthree] at h
    obtain ⟨first, -, h⟩ := bind_ok h
    obtain ⟨⟨⟩, hrange, h⟩ := bind_ok h
    rw [reject_ok, not_not] at hrange
    by_cases hwait : buffer.length < 3 + first
    · rw [if_pos hwait] at h
      cases h
    · rw [if_neg hwait] at h
      obtain ⟨kind, -, h⟩ := bind_ok h
      obtain ⟨size, -, h⟩ := bind_ok h
      obtain ⟨⟨⟩, -, h⟩ := bind_ok h
      obtain ⟨padding, -, h⟩ := bind_ok h
      obtain ⟨⟨⟩, -, h⟩ := bind_ok h
      obtain ⟨body, -, h⟩ := bind_ok h
      obtain ⟨frame, -, h⟩ := bind_ok h
      cases h
      omega

variable {bytes : Bytes}

theorem slice_more {s : Bytes} {start stop : Nat} (h : slice bytes start stop = .ok s) (more : Bytes) :
    slice (bytes ++ more) start stop = .ok s := by
  rw [slice] at h ⊢
  obtain ⟨⟨⟩, hin, h⟩ := bind_ok h
  rw [reject_ok, not_not] at hin
  have hmore : ¬¬(start ≤ stop ∧ stop ≤ (bytes ++ more).length) := by
    rw [List.length_append]
    omega
  rw [ok_bind (reject_ok.mpr hmore), List.take_append_of_le_length hin.2]
  exact h

theorem read24_more {at' n : Nat} (h : read24 bytes at' = .ok n) (more : Bytes) :
    read24 (bytes ++ more) at' = .ok n := by
  rw [read24] at h ⊢
  obtain ⟨s, hs, h⟩ := bind_ok h
  rw [ok_bind (slice_more hs more)]
  exact h

theorem index_more {i : Nat} {b : UInt8} (h : index bytes i = .ok b) (more : Bytes) :
    index (bytes ++ more) i = .ok b := by
  rw [index, require_ok] at h ⊢
  obtain ⟨hi, rfl⟩ := List.getElem?_eq_some_iff.mp h
  rw [List.getElem?_append_left hi, List.getElem?_eq_getElem hi]

/-- A frame that is all there is taken whatever comes behind it. -/
theorem takeFrame_more (h : takeFrame L buffer = .ok (some (f, length))) (more : Bytes) :
    takeFrame L (buffer ++ more) = .ok (some (f, length)) := by
  rw [takeFrame] at h ⊢
  by_cases hthree : buffer.length < 3
  · rw [if_pos hthree] at h
    cases h
  · have hthree' : ¬(buffer ++ more).length < 3 := by
      rw [List.length_append]
      omega
    rw [if_neg hthree] at h
    rw [if_neg hthree']
    obtain ⟨first, hfirst, h⟩ := bind_ok h
    obtain ⟨⟨⟩, hrange, h⟩ := bind_ok h
    rw [ok_bind (read24_more hfirst more), ok_bind hrange]
    by_cases hwait : buffer.length < 3 + first
    · rw [if_pos hwait] at h
      cases h
    · have hwait' : ¬(buffer ++ more).length < 3 + first := by
        rw [List.length_append]
        omega
      rw [if_neg hwait] at h
      rw [if_neg hwait']
      obtain ⟨kind, hkind, h⟩ := bind_ok h
      obtain ⟨size, hsize, h⟩ := bind_ok h
      obtain ⟨⟨⟩, hbody, h⟩ := bind_ok h
      obtain ⟨padding, hpadding, h⟩ := bind_ok h
      obtain ⟨⟨⟩, hzero, h⟩ := bind_ok h
      obtain ⟨body, hslice, h⟩ := bind_ok h
      rw [ok_bind (index_more hkind more), ok_bind (read24_more hsize more), ok_bind hbody,
        ok_bind (slice_more hpadding more), ok_bind hzero, ok_bind (slice_more hslice more)]
      exact h

variable {rest : Bytes} {taken : Frame M A × Nat}

theorem take_more (h : Frame.take L buffer = (.ok (some taken), rest)) (more : Bytes) :
    Frame.take L (buffer ++ more) = (.ok (some taken), rest ++ more) := by
  rw [Frame.take] at h ⊢
  cases htake : takeFrame L buffer with
  | error fault =>
    rw [htake] at h
    cases h
  | ok out =>
    rw [htake] at h
    cases out with
    | none => cases h
    | some read =>
      obtain ⟨-, hle⟩ := takeFrame_shorter htake
      obtain ⟨htaken, rfl⟩ := Prod.mk.inj h
      obtain rfl := Option.some.inj (Except.ok.inj htaken)
      rw [takeFrame_more htake more]
      exact Prod.ext rfl (List.drop_append_of_le_length hle)

theorem take_shorter (h : Frame.take L buffer = (.ok (some taken), rest)) : rest.length < buffer.length := by
  rw [Frame.take] at h
  cases htake : takeFrame L buffer with
  | error fault =>
    rw [htake] at h
    cases h
  | ok out =>
    rw [htake] at h
    cases out with
    | none => cases h
    | some read =>
      obtain ⟨hheader, hle⟩ := takeFrame_shorter htake
      obtain ⟨-, rfl⟩ := Prod.mk.inj h
      have hseven : HEADER = 7 := rfl
      rw [List.length_drop]
      omega

variable (L) in
/-- Takes frames off a buffer until the rest is no whole frame, or is wrong. -/
def takeAll (buffer : Bytes) : List (Frame M A) × Option Fault × Bytes :=
  match _h : Frame.take L buffer with
  | (.ok (some (frame, _)), rest) => (frame :: (takeAll rest).1, (takeAll rest).2)
  | (.ok none, rest) => ([], none, rest)
  | (.error fault, rest) => ([], some fault, rest)
termination_by buffer.length
decreasing_by exact take_shorter ‹_›

variable (L) in
/-- The frames that a channel receives: those in its buffer, then those that each message completes. -/
def receive (plain : Bytes) : List Bytes → List (Frame M A) × Option Fault × Bytes
  | [] => takeAll L plain
  | message :: messages =>
    match takeAll L plain with
    | (frames, none, rest) =>
      let (more, out) := receive (rest ++ message) messages
      (frames ++ more, out)
    | out => out

theorem takeAll_some (h : Frame.take L buffer = (.ok (some (f, length)), rest)) :
    takeAll L buffer = (f :: (takeAll L rest).1, (takeAll L rest).2) := by
  rw [takeAll]
  split
  · next h' => simp_all
  · next h' => simp_all
  · next h' => simp_all

theorem takeAll_none (h : (Frame.take L buffer : Except Fault (Option (Frame M A × Nat)) × Bytes) = (.ok none, rest)) :
    takeAll L buffer = (([] : List (Frame M A)), none, rest) := by
  rw [takeAll]
  split
  · next h' => simp_all
  · next h' => simp_all
  · next h' => simp_all

theorem takeAll_error {fault : Fault}
    (h : (Frame.take L buffer : Except Fault (Option (Frame M A × Nat)) × Bytes) = (.error fault, rest)) :
    takeAll L buffer = (([] : List (Frame M A)), some fault, rest) := by
  rw [takeAll]
  split
  · next h' => simp_all
  · next h' => simp_all
  · next h' => simp_all

/-! ### Any cut of the bytes -/

/-- The bytes of frames one after the other. -/
def joined (frames : List (Frame M A × Bytes)) : Bytes := (frames.map Prod.snd).flatten

theorem joined_cons (p : Frame M A × Bytes) (ps : List (Frame M A × Bytes)) : joined (p :: ps) = p.2 ++ joined ps := rfl

/-- Of frames that arrived in part, those that are all there are taken, and the bytes of the next one stay. -/
theorem takeAll_joined (hL : L.Lawful) {later : Bytes} : ∀ {frames : List (Frame M A × Bytes)} {buffer : Bytes},
    (∀ p ∈ frames, p.1.encode L = .ok p.2 ∧ p.1.Fits L) → buffer ++ later = joined frames →
    ∃ d rest left, frames = d ++ rest ∧ takeAll L buffer = (d.map Prod.fst, none, left) ∧
      left ++ later = joined rest ∧ (rest ≠ [] → later ≠ [])
  | [], buffer, _, hjoined => by
    obtain ⟨rfl, rfl⟩ := List.append_eq_nil_iff.mp (hjoined.trans rfl)
    exact ⟨[], [], [], rfl, takeAll_none rfl, rfl, fun h => absurd rfl h⟩
  | p :: frames, buffer, hframes, hjoined => by
    obtain ⟨⟨hencode, hfits⟩, hrest⟩ := List.forall_mem_cons.mp hframes
    rw [joined_cons] at hjoined
    rcases List.append_eq_append_iff.mp hjoined with ⟨missing, hp, hlater⟩ | ⟨buffer', hbuffer, hjoined'⟩
    · by_cases hmissing : missing = []
      · -- the buffer ends where this frame does
        subst hmissing
        rw [List.append_nil] at hp
        obtain ⟨d, rest, left, rfl, htake, hleft, hwait⟩ :=
          takeAll_joined hL hrest (show [] ++ later = joined frames from hlater)
        have hfirst := take_fits hL hencode hfits []
        rw [List.append_nil, hp] at hfirst
        exact ⟨p :: d, rest, left, rfl, by rw [takeAll_some hfirst, htake]; rfl, hleft, hwait⟩
      · obtain ⟨kind, body, -, hframed⟩ := encode_ok hencode
        have hnone : (Frame.take L buffer : Except Fault (Option (Frame M A × Nat)) × Bytes) =
            (.ok none, buffer) := by
          rw [Frame.take, takeFrame_part hframed hp hmissing]
        refine ⟨[], p :: frames, buffer, rfl, takeAll_none hnone, hjoined.trans (joined_cons p frames).symm,
          fun _ => ?_⟩
        rw [hlater]
        simp [hmissing]
    · obtain ⟨d, rest, left, rfl, htake, hleft, hwait⟩ :=
        takeAll_joined hL hrest (show buffer' ++ later = joined frames from hjoined'.symm)
      have hfirst := take_fits hL hencode hfits buffer'
      rw [← hbuffer] at hfirst
      exact ⟨p :: d, rest, left, rfl, by rw [takeAll_some hfirst, htake]; rfl, hleft, hwait⟩

theorem receive_joined (hL : L.Lawful) : ∀ {messages : List Bytes} {plain : Bytes}
    {frames : List (Frame M A × Bytes)}, (∀ p ∈ frames, p.1.encode L = .ok p.2 ∧ p.1.Fits L) →
    plain ++ messages.flatten = joined frames → receive L plain messages = (frames.map Prod.fst, none, [])
  | [], plain, frames, hframes, hjoined => by
    obtain ⟨d, rest, left, rfl, htake, hleft, hwait⟩ := takeAll_joined hL hframes hjoined
    obtain rfl : rest = [] := by_contra fun h => hwait h rfl
    obtain rfl : left = [] := (List.append_eq_nil_iff.mp (hleft.trans rfl)).1
    rw [receive, htake, List.append_nil]
  | message :: messages, plain, frames, hframes, hjoined => by
    obtain ⟨d, rest, left, rfl, htake, hleft, -⟩ := takeAll_joined hL hframes hjoined
    have hmore : receive L (left ++ message) messages = (rest.map Prod.fst, none, []) := receive_joined hL
      (fun p hp => hframes p (List.mem_append_right _ hp)) (by rw [List.append_assoc]; exact hleft)
    rw [receive, htake]
    simp only [hmore, List.map_append]

/-- Frames that all come back fit. -/
theorem fits_of_takeAll (hL : L.Lawful) : ∀ {frames : List (Frame M A × Bytes)},
    (∀ p ∈ frames, p.1.encode L = .ok p.2) → (takeAll L (joined frames)).2.1 = none →
    ∀ p ∈ frames, p.1.Fits L
  | [], _, _, p, hp => nomatch hp
  | p :: frames, hframes, hnone, q, hq => by
    obtain ⟨hencode, hrest⟩ := List.forall_mem_cons.mp hframes
    rw [joined_cons] at hnone
    by_cases hfits : p.1.Fits L
    · rw [takeAll_some (take_fits hL hencode hfits _)] at hnone
      rcases List.mem_cons.mp hq with rfl | hq
      · exact hfits
      · exact fits_of_takeAll hL hrest hnone q hq
    · rw [takeAll_error (take_unfit hencode hfits _)] at hnone
      cases hnone

/-- Frames that were written all come back from their bytes, alone and from any cut of them one after the
    other, exactly when their JSON is as short as the reader wants it. -/
theorem frames_come_back_iff (hL : L.Lawful) {frames : List (Frame M A × Bytes)}
    (hframes : ∀ p ∈ frames, p.1.encode L = .ok p.2) :
    ((∀ p ∈ frames, ∀ rest, Frame.take L (p.2 ++ rest) = (.ok (some (p.1, p.2.length)), rest)) ∧
      ∀ messages : List Bytes, messages.flatten = joined frames →
        receive L [] messages = (frames.map Prod.fst, none, [])) ↔
      ∀ p ∈ frames, p.1.Fits L := by
  refine ⟨fun ⟨_, hreceive⟩ => ?_, fun hfits => ⟨fun p hp => take_fits hL (hframes p hp) (hfits p hp),
    fun messages hmessages => receive_joined hL (fun p hp => ⟨hframes p hp, hfits p hp⟩) hmessages⟩⟩
  have hempty : takeAll L ([] : Bytes) = (([] : List (Frame M A)), none, []) := takeAll_none rfl
  have hone := hreceive [joined frames] (by simp)
  rw [receive, hempty] at hone
  simp only [receive, List.nil_append] at hone
  exact fits_of_takeAll hL hframes (congrArg (·.2.1) hone)

/-! ### Libraries that do without packing -/

namespace Plain

/-- A text, each byte behind a one. -/
def texts (s : String) : Bytes := (utf8 s).flatMap (fun b => [1, b]) ++ [0]

mutual

/-- A text of a JSON value that ends by itself. -/
def toVec : Json → Bytes
  | .null => [0]
  | .bool b => [1, kindByte b]
  | .number digits => 2 :: texts digits
  | .string s => 3 :: texts s
  | .array items => 4 :: itemsToVec items
  | .object fields => 5 :: fieldsToVec fields

def itemsToVec : List Json → Bytes
  | [] => [0]
  | item :: items => 1 :: (toVec item ++ itemsToVec items)

def fieldsToVec : List (String × Json) → Bytes
  | [] => [0]
  | (name, value) :: fields => 1 :: (texts name ++ (toVec value ++ fieldsToVec fields))

end

theorem flatMap_inj : ∀ {as bs r s : Bytes},
    as.flatMap (fun b => [1, b]) ++ (0 :: r) = bs.flatMap (fun b => [1, b]) ++ (0 :: s) → as = bs ∧ r = s
  | [], [], r, s, h => ⟨rfl, by simpa using h⟩
  | [], b :: bs, r, s, h => by simp at h
  | a :: as, [], r, s, h => by simp at h
  | a :: as, b :: bs, r, s, h => by
    simp only [List.flatMap_cons, List.cons_append, List.nil_append, List.cons.injEq, true_and] at h
    obtain ⟨rfl, h⟩ := h
    obtain ⟨rfl, rfl⟩ := flatMap_inj h
    exact ⟨rfl, rfl⟩

theorem texts_inj {s t : String} {r r' : Bytes} (h : texts s ++ r = texts t ++ r') : s = t ∧ r = r' := by
  simp only [texts, List.append_assoc, List.singleton_append] at h
  obtain ⟨hutf8, rfl⟩ := flatMap_inj h
  have hs := ofUtf8_utf8 s
  rw [hutf8, ofUtf8_utf8] at hs
  exact ⟨(Option.some.inj hs).symm, rfl⟩

theorem kindByte_inj {a b : Bool} (h : kindByte a = kindByte b) : a = b := by
  rw [← kindByte_eq_one a, ← kindByte_eq_one b, h]

mutual

theorem toVec_inj : ∀ {v w : Json} {r s : Bytes}, toVec v ++ r = toVec w ++ s → v = w ∧ r = s
  | .null, w, r, s, h => by
    cases w <;> simp [toVec] at h
    exact ⟨rfl, h⟩
  | .bool b, w, r, s, h => by
    cases w <;> simp [toVec] at h
    exact ⟨by rw [kindByte_inj h.1], h.2⟩
  | .number digits, w, r, s, h => by
    cases w <;> simp [toVec] at h
    obtain ⟨rfl, rfl⟩ := texts_inj h
    exact ⟨rfl, rfl⟩
  | .string t, w, r, s, h => by
    cases w <;> simp [toVec] at h
    obtain ⟨rfl, rfl⟩ := texts_inj h
    exact ⟨rfl, rfl⟩
  | .array items, w, r, s, h => by
    cases w <;> simp [toVec] at h
    obtain ⟨rfl, rfl⟩ := itemsToVec_inj h
    exact ⟨rfl, rfl⟩
  | .object fields, w, r, s, h => by
    cases w <;> simp [toVec] at h
    obtain ⟨rfl, rfl⟩ := fieldsToVec_inj h
    exact ⟨rfl, rfl⟩

theorem itemsToVec_inj : ∀ {vs ws : List Json} {r s : Bytes}, itemsToVec vs ++ r = itemsToVec ws ++ s → vs = ws ∧ r = s
  | [], ws, r, s, h => by
    cases ws <;> simp [itemsToVec] at h
    exact ⟨rfl, h⟩
  | v :: vs, ws, r, s, h => by
    cases ws <;> simp [itemsToVec] at h
    obtain ⟨rfl, hrest⟩ := toVec_inj h
    obtain ⟨rfl, rfl⟩ := itemsToVec_inj hrest
    exact ⟨rfl, rfl⟩

theorem fieldsToVec_inj : ∀ {vs ws : List (String × Json)} {r s : Bytes},
    fieldsToVec vs ++ r = fieldsToVec ws ++ s → vs = ws ∧ r = s
  | [], ws, r, s, h => by
    cases ws <;> simp [fieldsToVec] at h
    exact ⟨rfl, h⟩
  | (name, v) :: vs, ws, r, s, h => by
    cases ws <;> simp [fieldsToVec] at h
    obtain ⟨rfl, hvalue⟩ := texts_inj h
    obtain ⟨rfl, hrest⟩ := toVec_inj hvalue
    obtain ⟨rfl, rfl⟩ := fieldsToVec_inj hrest
    exact ⟨rfl, rfl⟩

end

open Classical in
/-- The value whose text this is. -/
noncomputable def fromSlice (bytes : Bytes) : Option Json :=
  if h : ∃ v, toVec v = bytes then some h.choose else none

theorem fromSlice_toVec (v : Json) : fromSlice (toVec v) = some v := by
  have h : ∃ w, toVec w = toVec v := ⟨v, rfl⟩
  rw [fromSlice, dif_pos h]
  exact congrArg some (toVec_inj (r := []) (s := []) (congrArg (· ++ []) h.choose_spec)).1

/-- Nothing is packed, and there are no addresses. -/
noncomputable def libraries : Libraries Unit Empty where
  toVec := toVec
  fromSlice := fromSlice
  deflate := some
  inflate := some
  uuidText id := id.val.repr
  parseUuid s := s.toNat?.bind fun n => if h : n < 2 ^ 128 then some ⟨n, h⟩ else none
  addressText := nofun
  parseAddress _ := none
  metadataValue _ := .null
  readMetadata _ := some ()
  isValid _ := true

theorem lawful : libraries.Lawful where
  json := fromSlice_toVec
  deflate _ _ h := h.symm
  uuid id := by
    have hparse : libraries.parseUuid (libraries.uuidText id) =
        (id.val.repr.toNat?).bind fun n => if h : n < 2 ^ 128 then some ⟨n, h⟩ else none := rfl
    rw [hparse, Nat.toNat?_repr, Option.bind_some, dif_pos id.isLt]
  address := nofun
  short addresses _ := by
    cases addresses with
    | nil => decide
    | cons a => exact a.elim
  metadata _ := rfl

end Plain

/-- Two short frames come back from messages that cut the first one. -/
theorem short_frames_come_back :
    receive Plain.libraries [] [[0, 0, 61, 10], [0, 0, 8] ++ [0, 0, 0, 0, 0, 0, 0, 5] ++
        List.replicate 49 0 ++ [0, 0, 61, 13, 0, 0, 0] ++ List.replicate 57 0] =
      ([.ack 5, .refresh], none, []) := by
  have hframes := (@frames_come_back_iff _ _ _ Plain.lawful
    [(.ack 5, [0, 0, 61, 10, 0, 0, 8] ++ [0, 0, 0, 0, 0, 0, 0, 5] ++ List.replicate 49 0),
      (.refresh, [0, 0, 61, 13, 0, 0, 0] ++ List.replicate 57 0)] (by
        simp only [List.forall_mem_cons]
        exact ⟨rfl, rfl, nofun⟩)).mpr (by
        simp only [List.forall_mem_cons]
        exact ⟨trivial, trivial, nofun⟩)
  exact hframes.2 _ rfl

namespace Plain

theorem length_utf8 (s : String) : (utf8 s).length = s.utf8ByteSize := rfl

theorem length_texts (s : String) : (texts s).length = s.utf8ByteSize * 2 + 1 := by
  have hpairs : ∀ bytes : Bytes, (bytes.flatMap fun b => [1, b]).length = bytes.length * 2 := fun bytes => by
    simp [List.length_flatMap]
  rw [texts, List.length_append, hpairs, length_utf8]
  rfl

theorem utf8ByteSize_replicate : ∀ n, (String.ofList (List.replicate n 'x')).utf8ByteSize = n
  | 0 => by decide
  | n + 1 => by
    rw [List.replicate_succ, String.ofList_cons, String.utf8ByteSize_append, String.utf8ByteSize_singleton,
      utf8ByteSize_replicate n, Nat.add_comm]
    rfl

/-- A refusal with a message of so many bytes. -/
def refusal (n : Nat) : Refuse := ⟨"busy", String.ofList (List.replicate n 'x')⟩

theorem length_refusal (n : Nat) : (toVec (refusal n).toValue).length = 2 * n + 40 := by
  have hcode : "code".utf8ByteSize = 4 := by decide
  have hbusy : "busy".utf8ByteSize = 4 := by decide
  have hmessage : "message".utf8ByteSize = 7 := by decide
  simp only [Refuse.toValue, refusal, toVec, fieldsToVec, List.length_cons, List.length_append, length_texts,
    hcode, hbusy, hmessage, utf8ByteSize_replicate, List.length_nil]
  omega

end Plain

/-- A refusal that the host writes and the reader does not take. -/
theorem long_refusal_lost : ∃ bytes,
    (Frame.refuse (Plain.refusal 5000) : Frame Unit Empty).encode Plain.libraries = .ok bytes ∧
      (Frame.take Plain.libraries bytes : Except Fault (Option (Frame Unit Empty × Nat)) × Bytes) =
        (.error (.invalid "Terminal frame exceeds its bound."), bytes) := by
  have hlength := Plain.length_refusal 5000
  have hlong : ¬(Frame.refuse (Plain.refusal 5000) : Frame Unit Empty).Fits Plain.libraries := fun hfits => by
    have : (Plain.toVec (Plain.refusal 5000).toValue).length ≤ RECORD_LIMIT := hfits
    rw [hlength] at this
    exact absurd this (by decide)
  obtain ⟨bytes, hbytes⟩ : ∃ bytes,
      (Frame.refuse (Plain.refusal 5000) : Frame Unit Empty).encode Plain.libraries = .ok bytes := by
    refine encode_of_body (k := 3) (b := Plain.toVec (Plain.refusal 5000).toValue) rfl ?_
    rw [hlength]
    decide
  have htake := take_unfit hbytes hlong []
  rw [List.append_nil] at htake
  exact ⟨bytes, hbytes, htake⟩

end Kodosi.Wire
