import Kodosi.Wire.Codec

/-! The records and controls that frames hold come back from their JSON. -/

namespace Kodosi.Wire
open Kodosi.Lib
open Kodosi.Derive

variable {M A : Type} {L : Libraries M A}

/-- The JSON of the addresses of an offer. -/
def addressesJson (L : Libraries M A) (addresses : List A) : Json :=
  writeArray (fun address => .string (L.addressText address)) addresses

/-- Each library gives back what it was given, and a few addresses are a short text. -/
structure Libraries.Lawful (L : Libraries M A) : Prop where
  json : ∀ v, L.fromSlice (L.toVec v) = some v
  deflate : ∀ plain packed, L.deflate plain = some packed → L.inflate packed = some plain
  uuid : ∀ id, L.parseUuid (L.uuidText id) = some id
  address : ∀ a, L.parseAddress (L.addressText a) = some a
  short : ∀ addresses, addresses.length ≤ MOST_DIRECT_ADDRESSES →
    (L.toVec (addressesJson L addresses)).length ≤ CONTROL_LIMIT
  metadata : ∀ m, L.readMetadata (L.metadataValue m) = some m

/-! ### Records -/

section

variable (hL : L.Lawful)

include hL

theorem readUuid_write (id : Uuid) : readUuid L (writeUuid L id) = some id := by
  simp [readUuid, writeUuid, hL.uuid]

theorem Accept.fromValue_toValue (a : Accept) : Accept.fromValue L (a.toValue L) = some a := by
  simp [Accept.fromValue, Accept.toValue, onlyFieldsOf, required, textOf, lookup_field,
    readUuid_write hL]

theorem ControlResult.fromValue_toValue (r : ControlResult) : ControlResult.fromValue L (r.toValue L) = some r := by
  simp [ControlResult.fromValue, ControlResult.toValue, onlyFieldsOf, required, textOf,
    lookup_field, readUuid_write hL]

theorem PictureOffer.fromValue_toValue (o : PictureOffer) : PictureOffer.fromValue L (o.toValue L) = some o := by
  obtain ⟨id, size, sha256, format⟩ := o
  cases format <;>
    simp [PictureOffer.fromValue, PictureOffer.toValue, onlyFieldsOf, required, textOf,
      lookup_field, readUuid_write hL, PictureFormat.name, PictureFormat.ofName]

theorem PictureState.fromValue_toValue (s : PictureState) : PictureState.fromValue L (s.toValue L) = some s := by
  obtain ⟨id, received, at', step, message⟩ := s
  by_cases h : message = ""
  · cases step <;>
      simp [PictureState.fromValue, PictureState.toValue, onlyFieldsOf, required, textOf, defaulted,
        lookup_field, readUuid_write hL, PictureStep.name, PictureStep.ofName, h]
  · cases step <;>
      simp [PictureState.fromValue, PictureState.toValue, onlyFieldsOf, required, textOf, defaulted,
        lookup_field, readUuid_write hL, PictureStep.name, PictureStep.ofName, h]

end

theorem Refuse.fromValue_toValue (r : Refuse) : Refuse.fromValue r.toValue = some r := by
  simp [Refuse.fromValue, Refuse.toValue, onlyFieldsOf, required, textOf, lookup_field]

theorem End.fromValue_toValue (e : End) : End.fromValue e.toValue = some e := by
  simp [End.fromValue, End.toValue, onlyFieldsOf, required, textOf, lookup_field]

theorem readStrings_write (texts : List String) : readArray readString (writeArray .string texts) = some texts :=
  readArray_write.mpr fun _ _ => rfl

theorem CanvasRequest.fromValue_toValue (r : CanvasRequest) : CanvasRequest.fromValue r.toValue = some r := by
  cases r <;>
    simp [CanvasRequest.fromValue, CanvasRequest.toValue, CanvasRequest.ofFields, tagged, onlyFieldsOf, fieldsOf,
      required, defaulted, textOf, lookup_field, readStrings_write, readAct]

/-! ### Controls -/

theorem utf8_ofUtf8 {bytes : Bytes} {s : String} (h : ofUtf8 bytes = some s) : utf8 s = bytes := by
  unfold ofUtf8 String.fromUTF8? at h
  by_cases hvalid : (⟨bytes.toArray⟩ : ByteArray).IsValidUTF8
  · rw [dif_pos hvalid] at h
    obtain rfl := Option.some.inj h
    simp [utf8, String.fromUTF8]
  · rw [dif_neg hvalid] at h
    cases h

variable {field : String}

theorem get_tagged {tag kind : String} {fields : Fields} :
    get (tagged tag kind fields) field = if field = tag then some (.string kind) else fields.lookup field := by
  simp [get, tagged, fieldsOf, lookup_field]

theorem text_type {kind : String} {fields : Fields} : text (tagged "type" kind fields) "type" = .ok kind := by
  simp [text, get_tagged, require]

variable {value : Json} {what : String}

theorem narrow_write {α : Type} {n : Nat} {read : Nat → Option α} {a : α} (h : get value field = some (writeNat n))
    (hn : n < 2 ^ 32) (hread : read n = some a) :
    narrow value field what read = .ok a := by
  have hlt : n < 2 ^ 64 := lt_of_lt_of_le hn (by decide)
  have hnumber : number value field = .ok (.ofNat n) := by
    simp [number, h, readU64, readNat_write hlt, require]
  have hsame : (UInt64.ofNat n).toNat = n := by
    simp only [UInt64.toNat_ofNat']
    exact Nat.mod_eq_of_lt hlt
  rw [narrow, ok_bind hnumber, hsame, hread]
  rfl

theorem smallU16_toNat (n : UInt16) : smallU16 n.toNat = some n := by
  rw [smallU16, if_pos n.toNat_lt, UInt16.ofNat_toNat]

theorem smallU32_toNat (n : UInt32) : smallU32 n.toNat = some n := by
  rw [smallU32, if_pos n.toNat_lt, UInt32.ofNat_toNat]

theorem narrow_u16 {n : UInt16} (h : get value field = some (writeNat n.toNat)) :
    narrow value field what smallU16 = .ok n :=
  narrow_write h (lt_of_lt_of_le n.toNat_lt (by decide)) (smallU16_toNat n)

theorem narrow_u32 {n : UInt32} (h : get value field = some (writeNat n.toNat)) :
    narrow value field what smallU32 = .ok n :=
  narrow_write h n.toNat_lt (smallU32_toNat n)

theorem flag_bool {fault : Fault} {b : Bool} (h : get value field = some (.bool b)) :
    flag value field fault = .ok b := by
  simp [flag, h, require]

variable {control : TerminalControl}

theorem controlOf_value (h : controlValue L control = .ok value) : controlOf L value = .ok control := by
  cases control with
  | input bytes => cases h
  | message bytes =>
    obtain ⟨s, hs, h⟩ := bind_ok h
    obtain rfl := Except.ok.inj h
    have htext : text (tagged "type" "message" [("text", .string s)]) "text" = .ok s := by
      simp [text, get_tagged, require]
    rw [controlOf, ok_bind text_type]
    simp only [ok_bind htext, utf8_ofUtf8 (require_ok.mp hs)]
    rfl
  | resize rows cols width height cellWidth cellHeight claim =>
    have hencode : encodeControl L (.resize rows cols width height cellWidth cellHeight claim) =
        .ok (L.toVec value) := by rw [encodeControl, ok_bind h]; rfl
    obtain ⟨⟨⟩, -, h⟩ := bind_ok h
    obtain ⟨⟨⟩, -, h⟩ := bind_ok h
    obtain rfl := Except.ok.inj h
    rw [controlOf, ok_bind text_type]
    simp only []
    rw [ok_bind (narrow_u16 (n := rows) (by simp [get_tagged])),
      ok_bind (narrow_u16 (n := cols) (by simp [get_tagged, lookup_field])),
      ok_bind (narrow_u32 (n := width) (by simp [get_tagged, lookup_field])),
      ok_bind (narrow_u32 (n := height) (by simp [get_tagged, lookup_field])),
      ok_bind (narrow_u32 (n := cellWidth) (by simp [get_tagged, lookup_field])),
      ok_bind (narrow_u32 (n := cellHeight) (by simp [get_tagged, lookup_field])),
      ok_bind (flag_bool (b := claim) (by simp [get_tagged, lookup_field])), ok_bind hencode]
    rfl
  | focus focused =>
    obtain rfl := Except.ok.inj h
    rw [controlOf, ok_bind text_type]
    simp only []
    rw [ok_bind (flag_bool (b := focused) (by simp [get_tagged]))]
    rfl
  | interrupt =>
    obtain rfl := Except.ok.inj h
    rw [controlOf, ok_bind text_type]
    rfl
  | close =>
    obtain rfl := Except.ok.inj h
    rw [controlOf, ok_bind text_type]
    rfl
  | canvas request =>
    obtain ⟨⟨⟩, hvalid, h⟩ := bind_ok h
    obtain rfl := Except.ok.inj h
    have hrequest : get (tagged "type" "canvas" [("request", request.toValue)]) "request" =
        some request.toValue := by simp [get_tagged]
    rw [controlOf, ok_bind text_type]
    simp only [hrequest]
    rw [ok_bind (require_ok.mpr rfl), CanvasRequest.fromValue_toValue, ok_bind (require_ok.mpr rfl),
      ok_bind hvalid]
    rfl

theorem decodeControl_encode (hL : L.Lawful) {body : Bytes} (h : encodeControl L control = .ok body) :
    decodeControl L body = .ok control := by
  obtain ⟨value, hvalue, h⟩ := bind_ok h
  obtain rfl := Except.ok.inj h
  rw [decodeControl, hL.json, ok_bind (require_ok.mpr rfl)]
  exact controlOf_value hvalue

end Kodosi.Wire
