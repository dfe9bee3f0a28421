import Kodosi.Identity.Certificates
import Kodosi.Lib.Reads

/-! The bytes of the two bodies of an identity, field by field. The client writes a body by its layout, and
    accepts exactly the bodies that it writes. -/

namespace Kodosi.Identity
open Kodosi.Lib

/-- A field with its length in front. -/
def field (bytes : Bytes) : Bytes := toBe 4 bytes.length ++ bytes

def FitsField (bytes : Bytes) : Prop := bytes.length ≤ MAX_FIELD_LEN

variable {context : String}

variable {bytes : Bytes}

theorem writeLpBytes_iff {out : Bytes} :
    writeLpBytes context bytes = .ok out ↔ FitsField bytes ∧ out = field bytes := by
  have hmax : MAX_FIELD_LEN < 2 ^ 32 := by decide
  unfold writeLpBytes FitsField field
  by_cases hfits : bytes.length ≤ MAX_FIELD_LEN
  · rw [if_neg (by omega), if_neg (by omega)]
    simp [hfits, eq_comm]
  · by_cases h32 : 2 ^ 32 ≤ bytes.length
    · rw [if_pos h32]
      simp [hfits]
    · rw [if_neg h32, if_pos (Nat.lt_of_not_le hfits)]
      simp [hfits]

theorem writeLpStr_iff {value : String} {out : Bytes} :
    writeLpStr context value = .ok out ↔ FitsField (utf8 value) ∧ out = field (utf8 value) :=
  writeLpBytes_iff

/-! ### The readers of the client -/

variable {ε : Type}

theorem readNumber_reads {read : ByteReader ε Nat} {e : ε} {k : Nat}
    (hread : ∀ bytes, read bytes = if bytes.length < k then .error e else .ok (ofBe (bytes.take k), bytes.drop k)) :
    Reads read (· < 256 ^ k) (toBe k) := by
  intro bytes a rest
  rw [hread]
  constructor
  · intro h
    split at h
    · simp at h
    rename_i hlength
    obtain ⟨rfl, rfl⟩ := Prod.mk.inj (Except.ok.inj h)
    have htake : (bytes.take k).length = k := List.length_take_of_le (by omega)
    have hlt := ofBe_lt (bytes.take k)
    have hback := toBe_ofBe (bytes.take k)
    rw [htake] at hlt hback
    exact ⟨hlt, by rw [hback, List.take_append_drop]⟩
  · rintro ⟨hfits, rfl⟩
    rw [if_neg (by simp), List.take_left' (by simp), List.drop_left' (by simp), ofBe_toBe k a hfits]

theorem readU32Be_reads (context : String) : Reads (readU32Be context) (· < 256 ^ 4) (toBe 4) :=
  readNumber_reads fun _ => rfl

theorem readU64Be_reads (context : String) : Reads (readU64Be context) (· < 256 ^ 8) (toBe 8) :=
  readNumber_reads fun _ => rfl

variable {rest : Bytes}

/-- What a length of so many bytes stands in front of. -/
theorem field_iff {a : Bytes} :
    (∃ length mid, (length < 256 ^ 4 ∧ bytes = toBe 4 length ++ mid) ∧
      length ≤ MAX_FIELD_LEN ∧ a.length = length ∧ mid = a ++ rest) ↔ FitsField a ∧ bytes = field a ++ rest := by
  have hmax : MAX_FIELD_LEN < 256 ^ 4 := by decide
  constructor
  · rintro ⟨length, mid, ⟨-, rfl⟩, hfits, rfl, rfl⟩
    exact ⟨hfits, by rw [field, List.append_assoc]⟩
  · rintro ⟨hfits, rfl⟩
    exact ⟨a.length, a ++ rest, ⟨Nat.lt_of_le_of_lt hfits hmax, by rw [field, List.append_assoc]⟩, hfits, rfl, rfl⟩

theorem take_iff {a : Bytes} {n : Nat} :
    ¬bytes.length < n ∧ bytes.take n = a ∧ bytes.drop n = rest ↔ a.length = n ∧ bytes = a ++ rest := by
  constructor
  · rintro ⟨hlength, rfl, rfl⟩
    exact ⟨List.length_take_of_le (by omega), (List.take_append_drop n bytes).symm⟩
  · rintro ⟨rfl, rfl⟩
    simp

theorem readLpBytes_reads (context : String) : Reads (readLpBytes context) FitsField field := by
  intro bytes a rest
  rw [readLpBytes, (readU32Be_reads context).next, ← field_iff]
  refine exists_congr fun length => exists_congr fun mid => and_congr_right fun _ => ?_
  rw [← take_iff]
  by_cases hfits : length ≤ MAX_FIELD_LEN
  · rw [if_neg (by omega)]
    by_cases hlength : mid.length < length
    · simp [hlength]
    · simp [hlength, hfits]
  · simp [hfits, Nat.lt_of_not_le hfits]

/-- A field that is read as text, if it is one. -/
theorem text_reads {read : ByteReader ε Bytes} (hread : Reads read FitsField field) (fault : ε) :
    Reads (do match ofUtf8 (← read) with | some s => return s | none => throw fault) (fun s => FitsField (utf8 s))
      (fun s => field (utf8 s)) := by
  intro bytes s rest
  rw [hread.next]
  constructor
  · rintro ⟨a, mid, ⟨hfits, rfl⟩, h⟩
    cases htext : ofUtf8 a with
    | none =>
      rw [htext] at h
      cases h
    | some t =>
      rw [htext] at h
      obtain ⟨rfl, rfl⟩ := pure_reads.mp h
      obtain rfl := ofUtf8_iff.mp htext
      exact ⟨hfits, rfl⟩
  · rintro ⟨hfits, rfl⟩
    refine ⟨utf8 s, rest, ⟨hfits, rfl⟩, ?_⟩
    rw [ofUtf8_utf8]
    exact pure_reads.mpr ⟨rfl, rfl⟩

theorem readLpStr_reads (context : String) :
    Reads (readLpStr context) (fun s => FitsField (utf8 s)) (fun s => field (utf8 s)) :=
  text_reads (readLpBytes_reads context) _

theorem expectConsumed_iff : expectConsumed context bytes = .ok ((), rest) ↔ bytes = [] ∧ rest = [] := by
  unfold expectConsumed
  by_cases h : bytes = []
  · simp [h, eq_comm]
  · simp [h]

/-! ### The rules of the client -/

theorem then_ok {β : Type} {x : Except ε Unit} {y : Except ε β} {b : β} :
    (x >>= fun _ => y) = .ok b ↔ x = .ok () ∧ y = .ok b := by
  constructor
  · intro h
    obtain ⟨⟨⟩, hx, hy⟩ := bind_ok h
    exact ⟨hx, hy⟩
  · rintro ⟨hx, hy⟩
    rw [ok_bind hx, hy]

structure Bounded (value : String) (most : Nat) : Prop where
  trimmed : isTrimmed value
  nonempty : value ≠ ""
  short : utf16Len value ≤ most

/-- The times of a body: an expiry comes after the issue and is not the one that says there is none. -/
structure Timely (issued : Nat) (expires : Option Nat) : Prop where
  past : issued ≤ MAX_UNIX_TIME_MILLISECONDS
  later : ∀ t ∈ expires, issued < t ∧ t ≤ MAX_UNIX_TIME_MILLISECONDS

theorem rejectBoundedStr_iff {name value : String} {most : Nat} :
    rejectBoundedStr context name value most = .ok () ↔ Bounded value most := by
  unfold rejectBoundedStr
  constructor
  · intro h
    split at h
    · rename_i hrules
      simp only [Bool.and_eq_true, Bool.not_eq_true', decide_eq_true_eq] at hrules
      exact ⟨hrules.1.1, by simpa using hrules.1.2, hrules.2⟩
    · simp at h
  · rintro ⟨htrimmed, hnonempty, hshort⟩
    rw [if_pos (by simp [htrimmed, hnonempty, hshort])]

variable {expires : Option Nat}

theorem validateTimestamps_iff {issued : Nat} :
    validateTimestamps context issued expires = .ok () ↔ Timely issued expires := by
  constructor
  · intro h
    obtain ⟨-, h⟩ := then_ok.mp h
    split at h
    · simp at h
    rename_i hissued
    split at h
    · simp at h
    rename_i hlate
    split at h
    · simp at h
    rename_i hexpires
    refine ⟨by omega, fun t ht => ?_⟩
    obtain rfl := Option.mem_def.mp ht
    simp only [Option.any_some, decide_eq_true_eq, Nat.not_lt, Nat.not_le] at hlate hexpires
    exact ⟨hexpires, hlate⟩
  · rintro ⟨hissued, hexpires⟩
    unfold validateTimestamps
    refine then_ok.mpr ⟨?_, ?_⟩
    · rw [rejectZeroExpiry, if_neg]
      rintro rfl
      exact absurd (hexpires 0 rfl).1 (Nat.not_lt_zero _)
    · rw [if_neg (by omega)]
      cases expires with
      | none => rfl
      | some t =>
        obtain ⟨hlt, hle⟩ := hexpires t rfl
        simp [Nat.not_lt.mpr hle, Nat.not_le.mpr hlt]

theorem decode_encodeExpiry {issued : Nat} (h : Timely issued expires) :
    decodeExpiry (encodeExpiry expires) = expires := by
  cases expires with
  | none => rfl
  | some t =>
    have ht := (h.later t rfl).1
    have hne : t ≠ 0 := by omega
    simp [encodeExpiry, decodeExpiry, NO_EXPIRY_SENTINEL, hne]

theorem encode_decodeExpiry (raw : Nat) : encodeExpiry (decodeExpiry raw) = raw := by
  unfold decodeExpiry
  by_cases h : raw = NO_EXPIRY_SENTINEL
  · rw [if_pos h, h]
    rfl
  · rw [if_neg h]
    rfl

/-- The bytes of the times, which stand last in a body. -/
def times (issued : Nat) (expires : Option Nat) : Bytes := toBe 8 issued ++ toBe 8 (encodeExpiry expires)

/-! ### The certificate of a device -/

namespace DeviceCertificate

def layout (c : DeviceCertificate) : Bytes :=
  field (utf8 c.userId) ++ (field (utf8 c.deviceId) ++ (field (utf8 c.deviceLabel) ++
    (field (utf8 c.signerDeviceId) ++ (field c.sigPublicKey ++ times c.issuedAtMs c.expiresAtMs))))

structure Fits (c : DeviceCertificate) : Prop where
  userId : FitsField (utf8 c.userId)
  deviceId : FitsField (utf8 c.deviceId)
  deviceLabel : FitsField (utf8 c.deviceLabel)
  signerDeviceId : FitsField (utf8 c.signerDeviceId)
  sigPublicKey : FitsField c.sigPublicKey

structure Rules (c : DeviceCertificate) : Prop where
  times : Timely c.issuedAtMs c.expiresAtMs
  userId : isCanonicalUuid c.userId
  deviceId : Bounded c.deviceId DEVICE_ID_MAX_UTF16_CODE_UNITS
  deviceLabel : Bounded c.deviceLabel DEVICE_LABEL_MAX_UTF16_CODE_UNITS
  signerDeviceId : Bounded c.signerDeviceId DEVICE_ID_MAX_UTF16_CODE_UNITS
  sigPublicKey : c.sigPublicKey.length = ML_DSA_65_PUBLIC_KEY_LEN

variable {c : DeviceCertificate}

theorem validateCertificate_iff : c.validateCertificate = .ok () ↔ c.Rules := by
  have huser : validateCanonicalUserId DEVICE_CERT_CONTEXT c.userId = .ok () ↔ isCanonicalUuid c.userId := by
    unfold validateCanonicalUserId
    by_cases h : isCanonicalUuid c.userId <;> simp [h]
  have hkey : requireExactBytes DEVICE_CERT_CONTEXT "signature public key" c.sigPublicKey
      ML_DSA_65_PUBLIC_KEY_LEN = .ok () ↔ c.sigPublicKey.length = ML_DSA_65_PUBLIC_KEY_LEN := by
    unfold requireExactBytes
    by_cases h : c.sigPublicKey.length = ML_DSA_65_PUBLIC_KEY_LEN <;> simp [h]
  unfold validateCertificate validateCanonicalDeviceId
  rw [then_ok, then_ok, then_ok, then_ok, then_ok, validateTimestamps_iff, huser, hkey]
  simp only [rejectBoundedStr_iff]
  constructor
  · rintro ⟨htimes, huser, hdevice, hlabel, hsigner, hkey⟩
    exact ⟨htimes, huser, hdevice, hlabel, hsigner, hkey⟩
  · rintro ⟨htimes, huser, hdevice, hlabel, hsigner, hkey⟩
    exact ⟨htimes, huser, hdevice, hlabel, hsigner, hkey⟩

theorem serializeBody_iff {body : Bytes} :
    c.serializeBody = .ok body ↔
      c.Rules ∧ c.Fits ∧ body = c.layout ∧ body.length ≤ MAX_DEVICE_CERTIFICATE_BODY_LEN := by
  constructor
  · intro h
    obtain ⟨hvalid, h⟩ := then_ok.mp h
    obtain ⟨userId, huser, h⟩ := bind_ok h
    obtain ⟨deviceId, hdevice, h⟩ := bind_ok h
    obtain ⟨label, hlabel, h⟩ := bind_ok h
    obtain ⟨signer, hsigner, h⟩ := bind_ok h
    obtain ⟨key, hkey, h⟩ := bind_ok h
    dsimp only at h
    split at h
    · simp at h
    rename_i hlength
    obtain rfl := Except.ok.inj h
    obtain ⟨huser', rfl⟩ := writeLpStr_iff.mp huser
    obtain ⟨hdevice', rfl⟩ := writeLpStr_iff.mp hdevice
    obtain ⟨hlabel', rfl⟩ := writeLpStr_iff.mp hlabel
    obtain ⟨hsigner', rfl⟩ := writeLpStr_iff.mp hsigner
    obtain ⟨hkey', rfl⟩ := writeLpBytes_iff.mp hkey
    exact ⟨validateCertificate_iff.mp hvalid, ⟨huser', hdevice', hlabel', hsigner', hkey'⟩, rfl, by omega⟩
  · rintro ⟨hrules, ⟨huser, hdevice, hlabel, hsigner, hkey⟩, rfl, hlength⟩
    unfold serializeBody
    refine then_ok.mpr ⟨validateCertificate_iff.mpr hrules, ?_⟩
    rw [ok_bind (writeLpStr_iff.mpr ⟨huser, rfl⟩), ok_bind (writeLpStr_iff.mpr ⟨hdevice, rfl⟩),
      ok_bind (writeLpStr_iff.mpr ⟨hlabel, rfl⟩), ok_bind (writeLpStr_iff.mpr ⟨hsigner, rfl⟩),
      ok_bind (writeLpBytes_iff.mpr ⟨hkey, rfl⟩)]
    exact if_neg (Nat.not_lt.mpr hlength)

theorem readBody_iff {bytes rest : Bytes} (h : readBody bytes = .ok (c, rest)) : c.Fits ∧ bytes = c.layout := by
  obtain ⟨userId, b₁, ⟨huser, rfl⟩, h1⟩ := (readLpStr_reads _).next.mp h
  obtain ⟨deviceId, b₂, ⟨hdevice, rfl⟩, h2⟩ := (readLpStr_reads _).next.mp h1
  obtain ⟨label, b₃, ⟨hlabel, rfl⟩, h3⟩ := (readLpStr_reads _).next.mp h2
  obtain ⟨signer, b₄, ⟨hsigner, rfl⟩, h4⟩ := (readLpStr_reads _).next.mp h3
  obtain ⟨key, b₅, ⟨hkey, rfl⟩, h5⟩ := (readLpBytes_reads _).next.mp h4
  obtain ⟨issued, b₆, ⟨hissued, rfl⟩, h6⟩ := (readU64Be_reads _).next.mp h5
  obtain ⟨expires, b₇, ⟨hexpires, rfl⟩, h7⟩ := (readU64Be_reads _).next.mp h6
  obtain ⟨⟨⟩, b₈, hend, h8⟩ := bind_reads.mp h7
  obtain ⟨rfl, rfl⟩ := expectConsumed_iff.mp hend
  obtain ⟨rfl, rfl⟩ := pure_reads.mp h8
  refine ⟨⟨huser, hdevice, hlabel, hsigner, hkey⟩, ?_⟩
  simp only [layout, times, encode_decodeExpiry, List.append_nil]

/-- The client accepts exactly the bodies that it writes. -/
theorem parseBody_iff {bytes : Bytes} : parseBody bytes = .ok c ↔ c.serializeBody = .ok bytes := by
  refine ⟨fun h => ?_, parseBody_serializeBody⟩
  unfold parseBody at h
  split at h
  · simp at h
  rename_i hlength
  obtain ⟨⟨c', rest⟩, hread, h⟩ := bind_ok h
  obtain ⟨hvalid, h⟩ := then_ok.mp h
  obtain rfl := Except.ok.inj h
  obtain ⟨hfits, hlayout⟩ := readBody_iff hread
  exact serializeBody_iff.mpr ⟨validateCertificate_iff.mp hvalid, hfits, hlayout, by omega⟩

end DeviceCertificate

/-! ### The list of devices -/

namespace DeviceListEntry

def layout (e : DeviceListEntry) : Bytes := field (utf8 e.deviceId) ++ field (utf8 e.signerDeviceId)

structure Fits (e : DeviceListEntry) : Prop where
  deviceId : FitsField (utf8 e.deviceId)
  signerDeviceId : FitsField (utf8 e.signerDeviceId)

structure Rules (e : DeviceListEntry) : Prop where
  deviceId : Bounded e.deviceId DEVICE_ID_MAX_UTF16_CODE_UNITS
  signerDeviceId : Bounded e.signerDeviceId DEVICE_ID_MAX_UTF16_CODE_UNITS

theorem validateRequiredFields_iff {e : DeviceListEntry} : e.validateRequiredFields = .ok () ↔ e.Rules := by
  unfold validateRequiredFields validateCanonicalDeviceId
  rw [then_ok, rejectBoundedStr_iff, rejectBoundedStr_iff]
  exact ⟨fun ⟨hdevice, hsigner⟩ => ⟨hdevice, hsigner⟩, fun ⟨hdevice, hsigner⟩ => ⟨hdevice, hsigner⟩⟩

end DeviceListEntry

theorem validateEntriesFrom_iff : ∀ {entries : List DeviceListEntry} {seen : List String},
    validateEntriesFrom seen entries = .ok () ↔ (∀ e ∈ entries, e.Rules) ∧
      (entries.map (·.deviceId)).Nodup ∧ ∀ e ∈ entries, e.deviceId ∉ seen
  | [], seen => by simp [validateEntriesFrom]
  | e :: entries, seen => by
    unfold validateEntriesFrom
    rw [then_ok, DeviceListEntry.validateRequiredFields_iff, List.map_cons, List.nodup_cons]
    by_cases hseen : e.deviceId ∈ seen
    · simp [hseen]
    · rw [if_neg hseen, validateEntriesFrom_iff]
      simp only [List.forall_mem_cons]
      simp only [List.mem_cons, not_or, List.mem_map, not_exists, not_and]
      constructor
      · rintro ⟨hrules, hall, hnodup, hfresh⟩
        exact ⟨⟨hrules, hall⟩, ⟨fun e' he' => (hfresh e' he').1, hnodup⟩, hseen, fun e' he' => (hfresh e' he').2⟩
      · rintro ⟨⟨hrules, hall⟩, ⟨hother, hnodup⟩, -, hfresh⟩
        exact ⟨hrules, hall, hnodup, fun e' he' => ⟨hother e' he', hfresh e' he'⟩⟩

namespace SignedDeviceList

def layout (l : SignedDeviceList) : Bytes :=
  field (utf8 l.userId) ++ (toBe 8 l.generation ++ (toBe 4 l.entries.length ++
    (l.entries.flatMap (·.layout) ++ (field (utf8 l.signerDeviceId) ++ times l.issuedAtMs l.expiresAtMs))))

structure Fits (l : SignedDeviceList) : Prop where
  userId : FitsField (utf8 l.userId)
  entries : ∀ e ∈ l.entries, e.Fits
  signerDeviceId : FitsField (utf8 l.signerDeviceId)

structure Rules (l : SignedDeviceList) : Prop where
  generation : 1 ≤ l.generation ∧ l.generation < 2 ^ 63
  times : Timely l.issuedAtMs l.expiresAtMs
  userId : isCanonicalUuid l.userId
  signerDeviceId : Bounded l.signerDeviceId DEVICE_ID_MAX_UTF16_CODE_UNITS
  entries : ∀ e ∈ l.entries, e.Rules
  distinct : l.deviceIds.Nodup
  most : l.entries.length ≤ MAX_ENTRIES

variable {l : SignedDeviceList}

theorem validateRequiredFields_iff (hmost : l.entries.length ≤ MAX_ENTRIES) :
    l.validateRequiredFields = .ok () ↔ l.Rules := by
  have huser : validateCanonicalUserId DEVICE_LIST_CONTEXT l.userId = .ok () ↔ isCanonicalUuid l.userId := by
    unfold validateCanonicalUserId
    by_cases h : isCanonicalUuid l.userId <;> simp [h]
  unfold validateRequiredFields validateCanonicalDeviceId validateEntries
  by_cases hgeneration : l.generation = 0 ∨ 2 ^ 63 ≤ l.generation
  · rw [if_pos hgeneration]
    refine iff_of_false nofun fun h => ?_
    have := h.generation
    omega
  · rw [if_neg hgeneration, then_ok, then_ok, then_ok, validateTimestamps_iff, huser, rejectBoundedStr_iff,
      validateEntriesFrom_iff]
    constructor
    · rintro ⟨htimes, huser, hsigner, hentries, hnodup, -⟩
      exact ⟨by omega, htimes, huser, hsigner, hentries, hnodup, hmost⟩
    · rintro ⟨-, htimes, huser, hsigner, hentries, hnodup, -⟩
      exact ⟨htimes, huser, hsigner, hentries, hnodup, nofun⟩

theorem writeEntries_iff : ∀ {entries : List DeviceListEntry} {out : Bytes},
    writeEntries entries = .ok out ↔ (∀ e ∈ entries, e.Fits) ∧ out = entries.flatMap (·.layout)
  | [], out => by simp [writeEntries, eq_comm]
  | e :: entries, out => by
    unfold writeEntries
    constructor
    · intro h
      obtain ⟨deviceId, hdevice, h1⟩ := bind_ok h
      obtain ⟨signer, hsigner, h2⟩ := bind_ok h1
      obtain ⟨rest, hrest, h3⟩ := bind_ok h2
      obtain rfl := Except.ok.inj h3
      obtain ⟨hdevice', rfl⟩ := writeLpStr_iff.mp hdevice
      obtain ⟨hsigner', rfl⟩ := writeLpStr_iff.mp hsigner
      obtain ⟨hall, rfl⟩ := writeEntries_iff.mp hrest
      refine ⟨List.forall_mem_cons.mpr ⟨⟨hdevice', hsigner'⟩, hall⟩, ?_⟩
      rw [List.flatMap_cons, DeviceListEntry.layout, List.append_assoc]
    · rintro ⟨hall, rfl⟩
      obtain ⟨⟨hdevice, hsigner⟩, hrest⟩ := List.forall_mem_cons.mp hall
      rw [ok_bind (writeLpStr_iff.mpr ⟨hdevice, rfl⟩), ok_bind (writeLpStr_iff.mpr ⟨hsigner, rfl⟩),
        ok_bind (writeEntries_iff.mpr ⟨hrest, rfl⟩), List.flatMap_cons, DeviceListEntry.layout, List.append_assoc]
      rfl

variable {body : Bytes}

theorem serializeBody_iff :
    l.serializeBody = .ok body ↔
      l.Rules ∧ l.Fits ∧ body = l.layout ∧ body.length ≤ MAX_SIGNED_DEVICE_LIST_BODY_LEN := by
  constructor
  · intro h
    obtain ⟨hvalid, h1⟩ := then_ok.mp h
    split at h1
    · simp at h1
    rename_i hmost
    obtain ⟨userId, huser, h2⟩ := bind_ok h1
    obtain ⟨entries, hentries, h3⟩ := bind_ok h2
    obtain ⟨signer, hsigner, h4⟩ := bind_ok h3
    dsimp only at h4
    split at h4
    · simp at h4
    rename_i hlength
    obtain rfl := Except.ok.inj h4
    obtain ⟨huser', rfl⟩ := writeLpStr_iff.mp huser
    obtain ⟨hentries', rfl⟩ := writeEntries_iff.mp hentries
    obtain ⟨hsigner', rfl⟩ := writeLpStr_iff.mp hsigner
    exact ⟨(validateRequiredFields_iff (by omega)).mp hvalid, ⟨huser', hentries', hsigner'⟩, rfl, by omega⟩
  · rintro ⟨hrules, ⟨huser, hentries, hsigner⟩, rfl, hlength⟩
    unfold serializeBody
    refine then_ok.mpr ⟨(validateRequiredFields_iff hrules.most).mpr hrules, ?_⟩
    rw [if_neg (Nat.not_lt.mpr hrules.most), ok_bind (writeLpStr_iff.mpr ⟨huser, rfl⟩),
      ok_bind (writeEntries_iff.mpr ⟨hentries, rfl⟩), ok_bind (writeLpStr_iff.mpr ⟨hsigner, rfl⟩)]
    exact if_neg (Nat.not_lt.mpr hlength)

theorem readEntries_iff : ∀ {n : Nat} {bytes rest : Bytes} {entries : List DeviceListEntry},
    readEntries n bytes = .ok (entries, rest) →
      (∀ e ∈ entries, e.Fits) ∧ entries.length = n ∧ bytes = entries.flatMap (·.layout) ++ rest
  | 0, bytes, rest, entries, h => by
    obtain ⟨rfl, rfl⟩ := pure_reads.mp h
    simp
  | n + 1, bytes, rest, entries, h => by
    obtain ⟨deviceId, b₁, ⟨hdevice, rfl⟩, h1⟩ := (readLpStr_reads _).next.mp h
    obtain ⟨signer, b₂, ⟨hsigner, rfl⟩, h2⟩ := (readLpStr_reads _).next.mp h1
    obtain ⟨others, b₃, hothers, h3⟩ := bind_reads.mp h2
    obtain ⟨rfl, rfl⟩ := pure_reads.mp h3
    obtain ⟨hall, rfl, rfl⟩ := readEntries_iff hothers
    refine ⟨List.forall_mem_cons.mpr ⟨⟨hdevice, hsigner⟩, hall⟩, rfl, ?_⟩
    simp only [List.flatMap_cons, DeviceListEntry.layout, List.append_assoc]

theorem readBody_iff {bytes rest : Bytes} (h : readBody bytes = .ok (l, rest)) :
    l.Fits ∧ l.entries.length ≤ MAX_ENTRIES ∧ bytes = l.layout := by
  obtain ⟨userId, b₁, ⟨huser, rfl⟩, h1⟩ := (readLpStr_reads _).next.mp h
  obtain ⟨generation, b₂, ⟨hgeneration, rfl⟩, h2⟩ := (readU64Be_reads _).next.mp h1
  obtain ⟨count, b₃, ⟨hcount, rfl⟩, h3⟩ := (readU32Be_reads _).next.mp h2
  by_cases hmost : MAX_ENTRIES < count
  · rw [if_pos hmost] at h3
    cases h3
  rw [if_neg hmost] at h3
  obtain ⟨entries, b₄, hentries, h4⟩ := bind_reads.mp h3
  obtain ⟨hfits, hlength, rfl⟩ := readEntries_iff hentries
  obtain ⟨signer, b₅, ⟨hsigner, rfl⟩, h5⟩ := (readLpStr_reads _).next.mp h4
  obtain ⟨issued, b₆, ⟨hissued, rfl⟩, h6⟩ := (readU64Be_reads _).next.mp h5
  obtain ⟨expires, b₇, ⟨hexpires, rfl⟩, h7⟩ := (readU64Be_reads _).next.mp h6
  obtain ⟨⟨⟩, b₈, hend, h8⟩ := bind_reads.mp h7
  obtain ⟨rfl, rfl⟩ := expectConsumed_iff.mp hend
  obtain ⟨rfl, rfl⟩ := pure_reads.mp h8
  refine ⟨⟨huser, hfits, hsigner⟩, by dsimp only; omega, ?_⟩
  simp only [layout, times, encode_decodeExpiry, List.append_nil, hlength]

theorem readBody_serializeBody (h : l.serializeBody = .ok body) : readBody body = .ok (l, []) := by
  obtain ⟨hrules, hfits, rfl, -⟩ := serializeBody_iff.mp h
  have hgeneration := hrules.generation
  have hmost := hrules.most
  have hissued := hrules.times.past
  have hmax : MAX_UNIX_TIME_MILLISECONDS < 256 ^ 8 := by decide
  have hmany : MAX_ENTRIES < 256 ^ 4 := by decide
  have hexpiry : encodeExpiry l.expiresAtMs < 256 ^ 8 := by
    cases hexpires : l.expiresAtMs with
    | none => decide
    | some t => exact Nat.lt_of_le_of_lt (hrules.times.later t hexpires).2 hmax
  refine (readLpStr_reads _).next.mpr ⟨_, _, ⟨hfits.userId, rfl⟩, ?_⟩
  refine (readU64Be_reads _).next.mpr ⟨_, _, ⟨by omega, rfl⟩, ?_⟩
  refine (readU32Be_reads _).next.mpr ⟨_, _, ⟨by omega, rfl⟩, ?_⟩
  rw [if_neg (by omega)]
  refine bind_reads.mpr ⟨_, _, readEntries_write (writeEntries_iff.mpr ⟨hfits.entries, rfl⟩) _, ?_⟩
  refine (readLpStr_reads _).next.mpr ⟨_, _, ⟨hfits.signerDeviceId, rfl⟩, ?_⟩
  refine (readU64Be_reads _).next.mpr ⟨_, _, ⟨by omega, rfl⟩, ?_⟩
  refine (readU64Be_reads _).next.mpr ⟨_, _, ⟨hexpiry, (List.append_nil _).symm⟩, ?_⟩
  refine bind_reads.mpr ⟨(), [], expectConsumed_iff.mpr ⟨rfl, rfl⟩, pure_reads.mpr ⟨?_, rfl⟩⟩
  rw [decode_encodeExpiry hrules.times]

/-- Different lists are written differently. -/
theorem serializeBody_inj {m : SignedDeviceList} (hl : l.serializeBody = .ok body) (hm : m.serializeBody = .ok body) :
    l = m := by
  have hread := readBody_serializeBody hl
  rw [readBody_serializeBody hm] at hread
  exact (congrArg Prod.fst (Except.ok.inj hread)).symm

/-- The client accepts exactly the bodies that it writes for lists with their signer in them. -/
theorem parseBody_iff {bytes : Bytes} :
    parseBody bytes = .ok l ↔ l.serializeBody = .ok bytes ∧ l.signerDeviceId ∈ l.deviceIds := by
  refine ⟨fun h => ?_, fun ⟨h, hsigner⟩ => parseBody_serializeBody h hsigner⟩
  unfold parseBody at h
  split at h
  · simp at h
  rename_i hlength
  obtain ⟨⟨l', rest⟩, hread, h1⟩ := bind_ok h
  obtain ⟨hvalid, h2⟩ := then_ok.mp h1
  split at h2
  · rename_i hsigner
    obtain rfl := Except.ok.inj h2
    obtain ⟨hfits, hmost, hlayout⟩ := readBody_iff hread
    exact ⟨serializeBody_iff.mpr ⟨(validateRequiredFields_iff hmost).mp hvalid, hfits, hlayout, by omega⟩, hsigner⟩
  · simp at h2

end SignedDeviceList

/-! ### One body for one value -/

/-- Of a format: what parses is written back as it was, what is built parses to itself, and neither two
    bodies share a value nor two values a body. -/
structure Canonical {α : Type} (serialize : α → Except Error Bytes) (parse : Bytes → Except Error α)
    (built : α → Prop) : Prop where
  rewritten : ∀ {body : Bytes} {a : α}, parse body = .ok a → serialize a = .ok body
  reread : ∀ {a : α} {body : Bytes}, built a → serialize a = .ok body → parse body = .ok a
  oneBody : ∀ {a : α} {body body' : Bytes}, parse body = .ok a → parse body' = .ok a → body = body'
  oneValue : ∀ {a a' : α} {body : Bytes}, serialize a = .ok body → serialize a' = .ok body → a = a'

/-- A parser that accepts exactly what is written of built values gives each value one body. -/
theorem Canonical.of_iff {α : Type} {serialize : α → Except Error Bytes} {parse : Bytes → Except Error α}
    {built : α → Prop} (hparse : ∀ {body a}, parse body = .ok a ↔ serialize a = .ok body ∧ built a)
    (hvalue : ∀ {a a' body}, serialize a = .ok body → serialize a' = .ok body → a = a') :
    Canonical serialize parse built where
  rewritten h := (hparse.mp h).1
  reread hbuilt h := hparse.mpr ⟨h, hbuilt⟩
  oneBody h h' := Except.ok.inj ((hparse.mp h).1.symm.trans (hparse.mp h').1)
  oneValue := hvalue

/-- The bodies of certificates are canonical, and those of the lists that have their signer in them. -/
theorem bodies_canonical :
    Canonical DeviceCertificate.serializeBody DeviceCertificate.parseBody (fun _ => True) ∧
      Canonical SignedDeviceList.serializeBody SignedDeviceList.parseBody
        (fun l => l.signerDeviceId ∈ l.deviceIds) := by
  refine ⟨Canonical.of_iff ?_ ?_, Canonical.of_iff SignedDeviceList.parseBody_iff ?_⟩
  · intro body c
    rw [DeviceCertificate.parseBody_iff, and_true]
  · intro c c' body hc hc'
    have hparse := DeviceCertificate.parseBody_serializeBody hc
    rw [DeviceCertificate.parseBody_serializeBody hc'] at hparse
    exact (Except.ok.inj hparse).symm
  · intro l l' body hl hl'
    exact SignedDeviceList.serializeBody_inj hl hl'

end Kodosi.Identity
