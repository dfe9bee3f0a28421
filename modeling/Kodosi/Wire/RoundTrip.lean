import Kodosi.Wire.Padding
import Kodosi.Wire.Records

/-! A frame that is written comes back from its bytes, unless it is a small record whose JSON is longer than
    the reader takes. -/

namespace Kodosi.Wire
open Kodosi.Lib
open Kodosi.Derive

variable {M A : Type} {L : Libraries M A}

/-- The JSON of a frame of one small record is as short as the reader wants it. -/
def Frame.Fits (L : Libraries M A) : Frame M A → Prop
  | .accept a => (L.toVec (a.toValue L)).length ≤ RECORD_LIMIT
  | .refuse r => (L.toVec r.toValue).length ≤ RECORD_LIMIT
  | .ended e => (L.toVec e.toValue).length ≤ RECORD_LIMIT
  | .controlResult r => (L.toVec (r.toValue L)).length ≤ RECORD_LIMIT
  | .picture o => (L.toVec (o.toValue L)).length ≤ PICTURE_LIMIT
  | .pictureState s => (L.toVec (s.toValue L)).length ≤ RECORD_LIMIT
  | _ => True

/-! ### Numbers and slices -/

variable {bytes : Bytes}

variable {a b c : Bytes}

theorem slice_middle {start stop : Nat} (h : bytes = a ++ (b ++ c)) (hstart : start = a.length)
    (hstop : stop = a.length + b.length) : slice bytes start stop = .ok b := by
  subst h hstart hstop
  have hin : ¬¬(a.length ≤ a.length + b.length ∧ a.length + b.length ≤ (a ++ (b ++ c)).length) := by
    simp only [List.length_append]
    omega
  have hdrop : ((a ++ (b ++ c)).take (a.length + b.length)).drop a.length = b := by
    rw [List.drop_take, Nat.add_sub_cancel_left, List.drop_left, List.take_left]
  rw [slice, ok_bind (reject_ok.mpr hin), hdrop]
  rfl

theorem sliceFrom_append {start : Nat} (h : bytes = a ++ b) (hstart : start = a.length) :
    sliceFrom bytes start = .ok b := by
  rw [sliceFrom]
  exact slice_middle (c := []) (by rw [h, List.append_nil]) hstart (by rw [h, List.length_append])

section

variable {bytes a c : Bytes} {at' : Nat}

theorem read24_toBe {n : Nat} (hn : n < 2 ^ 24) (h : bytes = a ++ (toBe 3 n ++ c)) (hat : at' = a.length) :
    read24 bytes at' = .ok n := by
  rw [read24, ok_bind (slice_middle h hat (by simp [hat])), ofBe_toBe 3 n hn]
  rfl

theorem read16_toBe {n : UInt16} (h : bytes = a ++ (toBe 2 n.toNat ++ c)) (hat : at' = a.length) :
    read16 bytes at' = .ok n := by
  rw [read16, ok_bind (slice_middle h hat (by simp [hat])), ofBe_toBe 2 _ n.toNat_lt, UInt16.ofNat_toNat]
  rfl

theorem read32_toBe {n : UInt32} (h : bytes = a ++ (toBe 4 n.toNat ++ c)) (hat : at' = a.length) :
    read32 bytes at' = .ok n := by
  rw [read32, ok_bind (slice_middle h hat (by simp [hat])), ofBe_toBe 4 _ n.toNat_lt, UInt32.ofNat_toNat]
  rfl

theorem read64_toBe {n : UInt64} (h : bytes = a ++ (toBe 8 n.toNat ++ c)) (hat : at' = a.length) :
    read64 bytes at' = .ok n := by
  rw [read64, ok_bind (slice_middle h hat (by simp [hat])), ofBe_toBe 8 _ n.toNat_lt, UInt64.ofNat_toNat]
  rfl

theorem read16_head {n : UInt16} (h : bytes = toBe 2 n.toNat ++ c) : read16 bytes 0 = .ok n :=
  read16_toBe (a := []) h rfl

theorem read32_head {n : UInt32} (h : bytes = toBe 4 n.toNat ++ c) : read32 bytes 0 = .ok n :=
  read32_toBe (a := []) h rfl

theorem read64_head {n : UInt64} (h : bytes = toBe 8 n.toNat ++ c) : read64 bytes 0 = .ok n :=
  read64_toBe (a := []) h rfl

end

variable {body : Bytes}

theorem pipeId_uuidBytes {id : Uuid} (h : body = uuidBytes id ++ c) : pipeId body = .ok id := by
  have hslice : slice body 0 16 = .ok (uuidBytes id) :=
    slice_middle (a := []) (by rw [h, List.nil_append]) rfl (by simp [uuidBytes])
  have hlt : id.val < 256 ^ 16 := by have := id.isLt; omega
  rw [pipeId, ok_bind hslice, uuidBytes, ofBe_toBe 16 _ hlt, Fin.ofNat_val_eq_self]
  rfl

theorem index_append {b : UInt8} {i : Nat} (h : bytes = a ++ b :: c) (hi : i = a.length) : index bytes i = .ok b := by
  subst h hi
  simp [index, require]

theorem length_uuidBytes (id : Uuid) : (uuidBytes id).length = 16 := length_toBe 16 _

/-! ### Output -/

theorem splitChunks_plain : ∀ {chunks : List Bytes} {d plain : Bytes} {at' read : Nat},
    (∀ chunk ∈ chunks, chunk.length ≤ RAW_CHUNK_LIMIT) → read + chunks.length ≤ RAW_BATCH_LIMIT →
    plain = d ++ plainOutput chunks → at' = d.length → splitChunks plain at' read = .ok chunks
  | [], d, plain, at', read, _, _, hplain, hat => by
    have hend : plain.length ≤ at' := by simp [hplain, hat, plainOutput]
    rw [splitChunks, if_pos hend]
    rfl
  | chunk :: chunks, d, plain, at', read, hsize, hcount, hplain, hat => by
    obtain ⟨hchunk, hchunks⟩ := List.forall_mem_cons.mp hsize
    rw [List.length_cons] at hcount
    have hcons : plainOutput (chunk :: chunks) = toBe 4 chunk.length ++ (chunk ++ plainOutput chunks) := by
      simp [plainOutput]
    have hlength : plain.length = at' + (4 + (chunk.length + (plainOutput chunks).length)) := by
      rw [hplain, hat, hcons]
      simp only [List.length_append, length_toBe]
    have hlt : chunk.length < 2 ^ 32 := lt_of_le_of_lt hchunk (by decide)
    have hread : read32 plain at' = .ok (.ofNat chunk.length) :=
      read32_toBe (n := .ofNat chunk.length) (by
        rw [hplain, hcons, UInt32.toNat_ofNat', Nat.mod_eq_of_lt hlt]) hat
    have hsame : (UInt32.ofNat chunk.length).toNat = chunk.length := by
      rw [UInt32.toNat_ofNat', Nat.mod_eq_of_lt hlt]
    have hslice : slice plain (at' + 4) (at' + 4 + chunk.length) = .ok chunk :=
      slice_middle (a := d ++ toBe 4 chunk.length) (c := plainOutput chunks)
        (by rw [hplain, hcons, List.append_assoc]) (by simp [hat]) (by simp [hat])
    have hrest : splitChunks plain (at' + 4 + chunk.length) (read + 1) = .ok chunks :=
      splitChunks_plain (d := d ++ toBe 4 chunk.length ++ chunk) hchunks (by omega)
        (by rw [hplain, hcons]; simp only [List.append_assoc]) (by simp [hat, Nat.add_assoc])
    rw [splitChunks, if_neg (by omega), ok_bind (reject_ok.mpr (by omega)), ok_bind hread]
    simp only [hsame]
    rw [ok_bind (reject_ok.mpr (by omega)), ok_bind hslice, ok_bind hrest]
    rfl

variable {firstSequence : UInt64} {chunks : List Bytes}

/-- What output that is written looks like: plain, or packed. -/
theorem encodeOutput_ok (h : encodeOutput L firstSequence chunks = .ok body) :
    (chunks ≠ [] ∧ chunks.length ≤ RAW_BATCH_LIMIT ∧ ∀ chunk ∈ chunks, chunk.length ≤ RAW_CHUNK_LIMIT) ∧
      ∃ flag rest, body = toBe 8 firstSequence.toNat ++ flag :: rest ∧
        (flag = 0 ∧ rest = plainOutput chunks ∨ flag = 1 ∧ L.deflate (plainOutput chunks) = some rest) := by
  obtain ⟨⟨⟩, hbound, h⟩ := bind_ok h
  rw [reject_ok] at hbound
  push Not at hbound
  refine ⟨hbound, ?_⟩
  by_cases hlong : PACK_FROM ≤ (plainOutput chunks).length
  · rw [if_pos hlong] at h
    obtain ⟨packed, hpacked, h⟩ := bind_ok h
    by_cases hshort : packed.length < (plainOutput chunks).length
    · rw [if_pos hshort] at h
      exact ⟨1, packed, (Except.ok.inj h).symm, .inr ⟨rfl, require_ok.mp hpacked⟩⟩
    · rw [if_neg hshort] at h
      exact ⟨0, _, (Except.ok.inj h).symm, .inl ⟨rfl, rfl⟩⟩
  · rw [if_neg hlong] at h
    exact ⟨0, _, (Except.ok.inj h).symm, .inl ⟨rfl, rfl⟩⟩

theorem length_plainOutput : ∀ {chunks : List Bytes}, (∀ chunk ∈ chunks, chunk.length ≤ RAW_CHUNK_LIMIT) →
    (plainOutput chunks).length ≤ chunks.length * (4 + RAW_CHUNK_LIMIT)
  | [], _ => by simp [plainOutput]
  | chunk :: chunks, h => by
    obtain ⟨hchunk, hchunks⟩ := List.forall_mem_cons.mp h
    have hrest := length_plainOutput hchunks
    have hcons : plainOutput (chunk :: chunks) = toBe 4 chunk.length ++ (chunk ++ plainOutput chunks) := by
      simp [plainOutput]
    rw [hcons, List.length_append, List.length_append, length_toBe, List.length_cons, Nat.add_mul]
    omega

theorem decodeOutput_encode (hL : L.Lawful) (h : encodeOutput L firstSequence chunks = .ok body) :
    decodeOutput L body = .ok (.output firstSequence chunks : Frame M A) := by
  obtain ⟨⟨hne, hcount, hsize⟩, flag, rest, hbody, hpacked⟩ := encodeOutput_ok h
  have hlength : body.length = 9 + rest.length := by
    rw [hbody, List.length_append, length_toBe, List.length_cons]
    omega
  have hflag : flag ≤ 1 := by rcases hpacked with ⟨rfl, -⟩ | ⟨rfl, -⟩ <;> decide
  have hplain : plainOf L flag rest = .ok (plainOutput chunks) := by
    rcases hpacked with ⟨rfl, rfl⟩ | ⟨rfl, hdeflate⟩
    · rfl
    · have hlimit : (plainOutput chunks).length ≤ UNPACKED_OUTPUT_LIMIT :=
        (length_plainOutput hsize).trans (Nat.mul_le_mul_right _ hcount)
      rw [plainOf, if_pos rfl, unpack, ok_bind (require_ok.mpr (hL.deflate _ _ hdeflate)),
        ok_bind (reject_ok.mpr (Nat.not_lt.mpr hlimit))]
      rfl
  have hsplit : splitChunks (plainOutput chunks) 0 0 = .ok chunks :=
    splitChunks_plain (d := []) hsize (by omega) rfl rfl
  rw [decodeOutput, ok_bind (reject_ok.mpr (by omega)),
    ok_bind (index_append hbody (length_toBe 8 _).symm),
    ok_bind (reject_ok.mpr (UInt8.not_lt.mpr hflag)),
    ok_bind (sliceFrom_append (a := toBe 8 firstSequence.toNat ++ [flag]) (b := rest)
      (by rw [hbody, List.append_assoc]; rfl) (by simp)),
    ok_bind hplain,
    ok_bind hsplit, ok_bind (reject_ok.mpr hne),
    ok_bind (read64_head hbody)]
  rfl

/-! ### Bodies -/

theorem readJson_write (hL : L.Lawful) {α : Type} {read : Json → Option α} {value : Json} {a : α}
    (h : read value = some a) : readJson L (L.toVec value) read = .ok a := by
  rw [readJson, hL.json, Option.bind_some, h]
  rfl

variable {limit : Nat}

theorem within_ok (h : body.length ≤ limit) : within body limit = .ok body := by
  rw [within, ok_bind (reject_ok.mpr (Nat.not_lt.mpr h))]
  rfl

theorem callValue_write (hL : L.Lawful) {value : Json} (h : callJson L value limit = .ok body) :
    body.length ≤ limit ∧ callValue L body = .ok value := by
  obtain ⟨⟨⟩, hbound, h⟩ := bind_ok h
  obtain rfl := Except.ok.inj h
  rw [reject_ok] at hbound
  push Not at hbound
  refine ⟨hbound.2, ?_⟩
  rw [callValue, ok_bind (readJson_write hL rfl), ok_bind (reject_ok.mpr (by simpa using hbound.1))]
  rfl

theorem decodeMetadata_encode (hL : L.Lawful) {metadata : M} (h : encodeMetadata L metadata = .ok body) :
    body.length ≤ METADATA_LIMIT ∧ decodeMetadata L body = .ok metadata := by
  obtain ⟨⟨⟩, hvalid, h⟩ := bind_ok h
  obtain ⟨⟨⟩, hlength, h⟩ := bind_ok h
  obtain rfl := Except.ok.inj h
  refine ⟨Nat.not_lt.mp (reject_ok.mp hlength), ?_⟩
  rw [decodeMetadata, ok_bind (reject_ok.mpr (reject_ok.mp hlength)),
    ok_bind (readJson_write hL (hL.metadata metadata)), ok_bind hvalid]
  rfl

theorem kindByte_le (flag : Bool) : ¬1 < kindByte flag := by cases flag <;> decide

theorem kindByte_eq_one (flag : Bool) : decide (kindByte flag = 1) = flag := by cases flag <;> rfl

theorem exact_ok {length : Nat} (h : body.length = length) : exact body length = .ok () :=
  reject_ok.mpr (not_not.mpr h)

theorem readAddresses_write (hL : L.Lawful) (addresses : List A) :
    readArray (readAddress L) (addressesJson L addresses) = some addresses := by
  refine readArray_write.mpr fun address _ => ?_
  simp [readAddress, hL.address]

variable {f : Frame M A}

variable {kind : UInt8}

/-- The body of a frame that fits is read as that frame. -/
theorem decode_kindAndBody (hL : L.Lawful) (h : kindAndBody L f = .ok (kind, body)) (hfits : f.Fits L) :
    decode L kind body = .ok f := by
  cases f with
  | accept a =>
    obtain ⟨rfl, rfl⟩ := Prod.mk.inj (Except.ok.inj h)
    simp only [decode]
    rw [ok_bind (within_ok hfits), ok_bind (readJson_write hL (Accept.fromValue_toValue hL a))]
    rfl
  | refuse r =>
    obtain ⟨rfl, rfl⟩ := Prod.mk.inj (Except.ok.inj h)
    simp only [decode]
    rw [ok_bind (within_ok hfits), ok_bind (readJson_write hL (Refuse.fromValue_toValue r))]
    rfl
  | keyframe nextSequence more part =>
    obtain ⟨⟨⟩, hpart, h⟩ := bind_ok h
    obtain ⟨rfl, rfl⟩ := Prod.mk.inj (Except.ok.inj h)
    rw [reject_ok] at hpart
    simp only [decode]
    rw [ok_bind (reject_ok.mpr (by simp; omega)), ok_bind (index_append rfl (length_toBe 8 _).symm),
      ok_bind (reject_ok.mpr (kindByte_le more)), ok_bind (read64_head rfl),
      ok_bind (sliceFrom_append (a := toBe 8 nextSequence.toNat ++ [kindByte more]) (b := part)
        (by simp) (by simp)), kindByte_eq_one]
    rfl
  | output firstSequence chunks =>
    obtain ⟨body', hbody, h⟩ := bind_ok h
    obtain ⟨rfl, rfl⟩ := Prod.mk.inj (Except.ok.inj h)
    exact decodeOutput_encode hL hbody
  | resize rows cols cell atSequence =>
    obtain ⟨rfl, rfl⟩ := Prod.mk.inj (Except.ok.inj h)
    simp only [decode]
    rw [ok_bind (exact_ok (by simp)),
      ok_bind (read16_head (n := rows) (by simp only [List.append_assoc]; rfl)),
      ok_bind (read16_toBe (a := toBe 2 rows.toNat) (n := cols) (by simp only [List.append_assoc]; rfl) (by simp)),
      ok_bind (read32_toBe (a := toBe 2 rows.toNat ++ toBe 2 cols.toNat) (n := cell.width)
        (by simp only [List.append_assoc]; rfl) (by simp)),
      ok_bind (read32_toBe (a := toBe 2 rows.toNat ++ toBe 2 cols.toNat ++ toBe 4 cell.width.toNat)
        (n := cell.height) (by simp only [List.append_assoc]; rfl) (by simp)),
      ok_bind (read64_toBe (a := toBe 2 rows.toNat ++ toBe 2 cols.toNat ++ toBe 4 cell.width.toNat ++
        toBe 4 cell.height.toNat) (n := atSequence) (c := []) (by simp only [List.append_nil]) (by simp))]
    rfl
  | metadata m =>
    obtain ⟨body', hbody, h⟩ := bind_ok h
    obtain ⟨rfl, rfl⟩ := Prod.mk.inj (Except.ok.inj h)
    obtain ⟨hlength, hmetadata⟩ := decodeMetadata_encode hL hbody
    simp only [decode]
    rw [ok_bind (within_ok hlength), ok_bind hmetadata]
    rfl
  | heartbeat number nextSequence =>
    obtain ⟨rfl, rfl⟩ := Prod.mk.inj (Except.ok.inj h)
    simp only [decode]
    rw [ok_bind (exact_ok (by simp)), ok_bind (read32_head rfl),
      ok_bind (read64_toBe (a := toBe 4 number.toNat) (c := []) (by rw [List.append_nil]) (by simp))]
    rfl
  | ended e =>
    obtain ⟨rfl, rfl⟩ := Prod.mk.inj (Except.ok.inj h)
    simp only [decode]
    rw [ok_bind (within_ok hfits), ok_bind (readJson_write hL (End.fromValue_toValue e))]
    rfl
  | ack offset | inputAck offset =>
    obtain ⟨rfl, rfl⟩ := Prod.mk.inj (Except.ok.inj h)
    simp only [decode]
    rw [ok_bind (exact_ok (by simp)), ok_bind (read64_head (c := []) (by rw [List.append_nil]))]
    rfl
  | input offset heartbeat bytes =>
    obtain ⟨⟨⟩, hbytes, h⟩ := bind_ok h
    obtain ⟨rfl, rfl⟩ := Prod.mk.inj (Except.ok.inj h)
    rw [reject_ok] at hbytes
    push Not at hbytes
    have hpos := List.length_pos_iff.mpr hbytes.1
    simp only [decode]
    rw [ok_bind (reject_ok.mpr (by simp; omega)),
      ok_bind (read64_head (n := offset) (by rw [List.append_assoc])),
      ok_bind (read32_toBe (a := toBe 8 offset.toNat) (n := heartbeat) (by rw [List.append_assoc]) (by simp)),
      ok_bind (sliceFrom_append rfl (by simp))]
    rfl
  | control requestId control =>
    obtain ⟨⟨⟩, hinput, h⟩ := bind_ok h
    obtain ⟨encoded, hencoded, h⟩ := bind_ok h
    obtain ⟨⟨⟩, hlength, h⟩ := bind_ok h
    obtain ⟨rfl, rfl⟩ := Prod.mk.inj (Except.ok.inj h)
    rw [reject_ok] at hlength
    have h16 := length_uuidBytes requestId
    simp only [decode]
    rw [ok_bind (reject_ok.mpr (by simp at hlength ⊢; omega)), ok_bind (pipeId_uuidBytes rfl),
      ok_bind (sliceFrom_append rfl h16.symm), ok_bind (decodeControl_encode hL hencoded), ok_bind hinput]
    rfl
  | refresh =>
    obtain ⟨rfl, rfl⟩ := Prod.mk.inj (Except.ok.inj h)
    rfl
  | controlResult r =>
    obtain ⟨rfl, rfl⟩ := Prod.mk.inj (Except.ok.inj h)
    simp only [decode]
    rw [ok_bind (within_ok hfits), ok_bind (readJson_write hL (ControlResult.fromValue_toValue hL r))]
    rfl
  | request value | answer value =>
    obtain ⟨body', hbody, h⟩ := bind_ok h
    obtain ⟨rfl, rfl⟩ := Prod.mk.inj (Except.ok.inj h)
    obtain ⟨hlength, hvalue⟩ := callValue_write hL hbody
    simp only [decode]
    rw [ok_bind (within_ok hlength), ok_bind hvalue]
    rfl
  | controlValue requestId value =>
    obtain ⟨body', hbody, h⟩ := bind_ok h
    obtain ⟨rfl, rfl⟩ := Prod.mk.inj (Except.ok.inj h)
    obtain ⟨hlength, hvalue⟩ := callValue_write hL hbody
    have h16 := length_uuidBytes requestId
    simp only [decode]
    rw [ok_bind (reject_ok.mpr (by simp; omega)), ok_bind (pipeId_uuidBytes rfl),
      ok_bind (sliceFrom_append rfl h16.symm), ok_bind hvalue]
    rfl
  | picture o =>
    obtain ⟨rfl, rfl⟩ := Prod.mk.inj (Except.ok.inj h)
    simp only [decode]
    rw [ok_bind (within_ok hfits), ok_bind (readJson_write hL (PictureOffer.fromValue_toValue hL o))]
    rfl
  | picturePart id offset bytes =>
    obtain ⟨⟨⟩, hbytes, h⟩ := bind_ok h
    obtain ⟨rfl, rfl⟩ := Prod.mk.inj (Except.ok.inj h)
    rw [reject_ok] at hbytes
    push Not at hbytes
    have hpos := List.length_pos_iff.mpr hbytes.1
    have h16 := length_uuidBytes id
    simp only [decode]
    rw [ok_bind (reject_ok.mpr (by simp; omega)),
      ok_bind (pipeId_uuidBytes (show _ = uuidBytes id ++ _ by rw [List.append_assoc])),
      ok_bind (read64_toBe (a := uuidBytes id) (n := offset) (by rw [List.append_assoc]) h16.symm),
      ok_bind (sliceFrom_append rfl (by simp [h16]))]
    rfl
  | pictureState s =>
    obtain ⟨rfl, rfl⟩ := Prod.mk.inj (Except.ok.inj h)
    simp only [decode]
    rw [ok_bind (within_ok hfits), ok_bind (readJson_write hL (PictureState.fromValue_toValue hL s))]
    rfl
  | pipeOpen pipe key name =>
    obtain ⟨⟨⟩, hlength, h⟩ := bind_ok h
    obtain ⟨rfl, rfl⟩ := Prod.mk.inj (Except.ok.inj h)
    rw [reject_ok] at hlength
    have h16 := length_uuidBytes pipe
    simp only [decode]
    rw [ok_bind (reject_ok.mpr (by simp at hlength ⊢; omega)), ok_bind (sliceFrom_append rfl h16.symm),
      ok_bind (readJson_write (a := (key, name)) hL rfl), ok_bind (pipeId_uuidBytes rfl)]
    rfl
  | pipeData pipe more part =>
    obtain ⟨⟨⟩, hpart, h⟩ := bind_ok h
    obtain ⟨rfl, rfl⟩ := Prod.mk.inj (Except.ok.inj h)
    rw [reject_ok] at hpart
    have h16 := length_uuidBytes pipe
    simp only [decode]
    rw [ok_bind (reject_ok.mpr (by simp; omega)), ok_bind (index_append rfl h16.symm),
      ok_bind (reject_ok.mpr (kindByte_le more)), ok_bind (pipeId_uuidBytes rfl),
      ok_bind (sliceFrom_append (a := uuidBytes pipe ++ [kindByte more]) (b := part) (by simp) (by simp [h16])),
      kindByte_eq_one]
    rfl
  | pipeClose pipe | directAsk pipe =>
    obtain ⟨rfl, rfl⟩ := Prod.mk.inj (Except.ok.inj h)
    simp only [decode]
    rw [ok_bind (exact_ok (length_uuidBytes pipe)),
      ok_bind (pipeId_uuidBytes (show _ = uuidBytes pipe ++ [] by rw [List.append_nil]))]
    rfl
  | directOffer pipe addresses =>
    obtain ⟨⟨⟩, hcount, h⟩ := bind_ok h
    obtain ⟨rfl, rfl⟩ := Prod.mk.inj (Except.ok.inj h)
    have hshort := hL.short addresses (Nat.not_lt.mp (reject_ok.mp hcount))
    have h16 := length_uuidBytes pipe
    have hread := readAddresses_write hL addresses
    rw [addressesJson] at hshort hread
    simp only [decode]
    rw [ok_bind (reject_ok.mpr (by simp; omega)), ok_bind (sliceFrom_append rfl h16.symm),
      ok_bind (readJson_write hL hread),
      ok_bind (reject_ok.mpr (reject_ok.mp hcount)),
      ok_bind (pipeId_uuidBytes rfl)]
    rfl

theorem within_error (h : ¬body.length ≤ limit) :
    within body limit = .error (.invalid "Terminal frame exceeds its bound.") := by
  rw [within, reject, if_pos (Nat.not_le.mp h)]
  rfl

/-- The body of a frame that does not fit is refused. -/
theorem decode_unfit (h : kindAndBody L f = .ok (kind, body)) (hunfit : ¬f.Fits L) :
    (decode L kind body : Except Fault (Frame M A)) = .error (.invalid "Terminal frame exceeds its bound.") := by
  cases f with
  | accept | refuse | ended | controlResult | picture | pictureState =>
    obtain ⟨rfl, rfl⟩ := Prod.mk.inj (Except.ok.inj h)
    simp only [decode]
    rw [within_error hunfit]
    rfl
  | _ => exact absurd trivial hunfit

/-! ### Whole frames -/

/-- The bytes of a frame with this kind and body. -/
structure Framed (kind : UInt8) (body bytes : Bytes) : Prop where
  parts : bytes = toBe 3 (bytes.length - 3) ++ (kind :: (toBe 3 body.length ++ (body ++
    List.replicate (bytes.length - (HEADER + body.length)) 0)))
  long : HEADER + body.length ≤ bytes.length
  short : bytes.length ≤ FRAME_LIMIT

theorem encode_ok (h : f.encode L = .ok bytes) :
    ∃ kind body, kindAndBody L f = .ok (kind, body) ∧ Framed kind body bytes := by
  obtain ⟨⟨kind, body⟩, hbody, h⟩ := bind_ok h
  obtain ⟨⟨⟩, hlimit, h⟩ := bind_ok h
  obtain ⟨first, hfirst, h⟩ := bind_ok h
  obtain ⟨second, hsecond, h⟩ := bind_ok h
  have hbytes := (Except.ok.inj h).symm
  rw [reject_ok, Nat.not_lt] at hlimit
  have hle := le_padded (HEADER + body.length)
  have hsmall : FRAME_LIMIT < 2 ^ 24 := by decide
  rw [u24, if_pos (by omega)] at hfirst hsecond
  obtain rfl := Except.ok.inj hfirst
  obtain rfl := Except.ok.inj hsecond
  have hlength : bytes.length = padded (HEADER + body.length) := by
    rw [hbytes]
    simp [HEADER] at hle ⊢
    omega
  refine ⟨kind, body, hbody, ?_, by omega, by omega⟩
  rw [hlength]
  nth_rewrite 1 [hbytes]
  simp [HEADER]
  omega

theorem encode_of_body {k : UInt8} (h : kindAndBody L f = .ok (k, b))
    (hlimit : padded (HEADER + b.length) ≤ FRAME_LIMIT) : ∃ bytes, f.encode L = .ok bytes := by
  have hle := le_padded (HEADER + b.length)
  have hsmall : FRAME_LIMIT < 2 ^ 24 := by decide
  rw [Frame.encode, ok_bind h]
  simp only []
  rw [ok_bind (reject_ok.mpr (Nat.not_lt.mpr hlimit)), u24, if_pos (by omega), u24, if_pos (by omega)]
  exact ⟨_, rfl⟩

/-- The first frame of a buffer is what its body holds. -/
theorem takeFrame_framed {rest : Bytes} (h : Framed kind body bytes) :
    (takeFrame L (bytes ++ rest) : Except Fault (Option (Frame M A × Nat))) =
      (decode L kind body).map fun frame => some (frame, bytes.length) := by
  obtain ⟨hparts, hlong, hshort⟩ := h
  have hheader : HEADER = 7 := rfl
  have hsmall : FRAME_LIMIT < 2 ^ 24 := by decide
  have hlength : (bytes ++ rest).length = bytes.length + rest.length := List.length_append
  generalize hzeros : List.replicate (bytes.length - (HEADER + body.length)) (0 : UInt8) = zeros at hparts
  have hzero : ¬∃ byte ∈ zeros, byte ≠ 0 := by
    rintro ⟨byte, hmem, hne⟩
    exact hne (List.eq_of_mem_replicate (hzeros ▸ hmem))
  have hcount : zeros.length = bytes.length - (HEADER + body.length) := by
    rw [← hzeros, List.length_replicate]
  generalize hhead : toBe 3 (bytes.length - 3) = head at hparts
  have hthree : head.length = 3 := by rw [← hhead, length_toBe]
  have hall : bytes ++ rest = head ++ (kind :: (toBe 3 body.length ++ (body ++ (zeros ++ rest)))) := by
    nth_rewrite 1 [hparts]
    simp only [List.append_assoc, List.cons_append]
  have hfirst : read24 (bytes ++ rest) 0 = .ok (bytes.length - 3) :=
    read24_toBe (a := []) (by omega) (by rw [hall, hhead]; rfl) rfl
  have hsize : read24 (bytes ++ rest) 4 = .ok body.length :=
    read24_toBe (a := head ++ [kind]) (c := body ++ (zeros ++ rest)) (by omega)
      (by rw [hall]; simp) (by simp [hthree])
  have hbody : slice (bytes ++ rest) HEADER (HEADER + body.length) = .ok body :=
    slice_middle (a := head ++ kind :: toBe 3 body.length) (c := zeros ++ rest)
      (by rw [hall]; simp) (by simp [hthree, hheader]) (by simp [hthree, hheader])
  have hpadding : slice (bytes ++ rest) (HEADER + body.length) bytes.length = .ok zeros :=
    slice_middle (a := head ++ kind :: (toBe 3 body.length ++ body)) (c := rest)
      (by rw [hall]; simp) (by simp [hthree, hheader]; omega) (by simp [hthree, hheader, hcount]; omega)
  have hsum : 3 + (bytes.length - 3) = bytes.length := by omega
  rw [takeFrame, if_neg (by omega), ok_bind hfirst]
  simp only [hsum]
  rw [ok_bind (reject_ok.mpr (by omega)), if_neg (by omega), ok_bind (index_append hall hthree.symm),
    ok_bind hsize, ok_bind (reject_ok.mpr (by omega)), ok_bind hpadding, ok_bind (reject_ok.mpr hzero),
    ok_bind hbody]
  cases decode L kind body <;> rfl

/-- A frame whose bytes are not all there is waited for. -/
theorem takeFrame_part {buffer rest : Bytes} (h : Framed kind body bytes) (hpart : bytes = buffer ++ rest)
    (hrest : rest ≠ []) :
    (takeFrame L buffer : Except Fault (Option (Frame M A × Nat))) = .ok none := by
  obtain ⟨hparts, hlong, hshort⟩ := h
  have hheader : HEADER = 7 := rfl
  have hsmall : FRAME_LIMIT < 2 ^ 24 := by decide
  have hpos := List.length_pos_iff.mpr hrest
  have hlength : bytes.length = buffer.length + rest.length := by rw [hpart, List.length_append]
  by_cases hthree : buffer.length < 3
  · rw [takeFrame, if_pos hthree]
    rfl
  · have hhead : buffer.take 3 = toBe 3 (bytes.length - 3) := by
      have htake : bytes.take 3 = buffer.take 3 := by
        rw [hpart, List.take_append_of_le_length (by omega)]
      rw [← htake]
      nth_rewrite 1 [hparts]
      exact List.take_left' (length_toBe 3 _)
    have hfirst : read24 buffer 0 = .ok (bytes.length - 3) :=
      read24_toBe (a := []) (c := buffer.drop 3) (by omega)
        (by rw [← hhead, List.nil_append, List.take_append_drop]) rfl
    have hsum : 3 + (bytes.length - 3) = bytes.length := by omega
    rw [takeFrame, if_neg hthree, ok_bind hfirst]
    simp only [hsum]
    rw [ok_bind (reject_ok.mpr (by omega)), if_pos (by omega)]
    rfl

theorem take_fits (hL : L.Lawful) (h : f.encode L = .ok bytes) (hfits : f.Fits L) (rest : Bytes) :
    Frame.take L (bytes ++ rest) = (.ok (some (f, bytes.length)), rest) := by
  obtain ⟨kind, body, hbody, hframed⟩ := encode_ok h
  rw [Frame.take, takeFrame_framed hframed, decode_kindAndBody hL hbody hfits]
  simp [Except.map]

theorem take_unfit (h : f.encode L = .ok bytes) (hunfit : ¬f.Fits L) (rest : Bytes) :
    (Frame.take L (bytes ++ rest) : Except Fault (Option (Frame M A × Nat)) × Bytes) =
      (.error (.invalid "Terminal frame exceeds its bound."), bytes ++ rest) := by
  obtain ⟨kind, body, hbody, hframed⟩ := encode_ok h
  rw [Frame.take, takeFrame_framed hframed, decode_unfit hbody hunfit]
  rfl

end Kodosi.Wire
