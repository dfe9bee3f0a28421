import Kodosi.Identity.IdentityWire
import Kodosi.Identity.Layout

/-! The client and the backend read the bodies of an identity by one format. They accept the same bodies,
    apart from those with a control character in the id of a device. -/

namespace Kodosi.Identity
open Kodosi.Lib

/-! ### The readers of the backend -/

namespace IdentityWire

theorem take_reads (n : Nat) : Reads (take n) (·.length = n) id := by
  intro bytes a rest
  rw [id, ← take_iff]
  unfold take
  by_cases h : bytes.length < n
  · simp [h]
  · simp [h]

variable {α : Type}

theorem checked_iff {keeps : α → Bool} {message : String} {a b : α} {bytes rest : Bytes} :
    checked keeps message a bytes = .ok (b, rest) ↔ keeps a ∧ a = b ∧ bytes = rest := by
  unfold checked
  by_cases h : keeps a
  · rw [if_pos h, pure_reads]
    simp [h]
  · rw [if_neg h]
    simp only [h, Bool.false_eq_true, false_and, iff_false]
    rintro ⟨⟩

variable {read : WireReader α}

theorem checked_reads {fits : α → Prop} {write : α → Bytes} (h : Reads read fits write) (keeps : α → Bool)
    (message : String) :
    Reads (read >>= checked keeps message) (fun a => fits a ∧ keeps a) write := by
  intro bytes a rest
  rw [h.next]
  simp only [checked_iff]
  constructor
  · rintro ⟨a, mid, ⟨hfits, rfl⟩, hkeeps, rfl, rfl⟩
    exact ⟨⟨hfits, hkeeps⟩, rfl⟩
  · rintro ⟨⟨hfits, hkeeps⟩, rfl⟩
    exact ⟨a, rest, ⟨hfits, rfl⟩, hkeeps, rfl, rfl⟩

theorem readUInt32_reads : Reads readUInt32 (· < 256 ^ 4) (toBe 4) := by
  refine readNumber_reads (e := "truncated body") fun bytes => ?_
  simp only [readUInt32, bind, StateT.bind, take]
  split <;> rfl

theorem readInt64_reads : Reads readInt64 (fun n => n < 256 ^ 8 ∧ n ≤ MaxInt64) (toBe 8) := by
  have hnumber : Reads (do return ofBe (← take 8) : WireReader Nat) (· < 256 ^ 8) (toBe 8) := by
    refine readNumber_reads (e := "truncated body") fun bytes => ?_
    simp only [bind, StateT.bind, take]
    split <;> rfl
  have hread : readInt64 = ((do return ofBe (← take 8)) >>= checked (· ≤ MaxInt64) "integer is too large") := by
    unfold readInt64
    rw [bind_assoc]
    rfl
  rw [hread]
  intro bytes n rest
  rw [checked_reads hnumber _ _ bytes n rest]
  simp

theorem readBytes_reads : Reads readBytes FitsField field := by
  intro bytes a rest
  have hread : readBytes =
      ((readUInt32 >>= checked (· ≤ MaxFieldLength) "field is too long") >>= take) := by
    unfold readBytes
    rw [bind_assoc]
  rw [hread, (checked_reads readUInt32_reads _ _).next, ← field_iff]
  refine exists_congr fun length => exists_congr fun mid => ?_
  rw [take_reads length mid a rest]
  simp only [decide_eq_true_eq, id]
  constructor
  · rintro ⟨⟨⟨hlength, hfits⟩, hbytes⟩, hrest⟩
    exact ⟨⟨hlength, hbytes⟩, hfits, hrest⟩
  · rintro ⟨⟨hlength, hbytes⟩, hfits, hrest⟩
    exact ⟨⟨⟨hlength, hfits⟩, hbytes⟩, hrest⟩

theorem readString_reads : Reads readString (fun s => FitsField (utf8 s)) (fun s => field (utf8 s)) :=
  text_reads readBytes_reads _

theorem expectEnd_iff {bytes rest : Bytes} : expectEnd bytes = .ok ((), rest) ↔ bytes = [] ∧ rest = [] := by
  unfold expectEnd
  by_cases h : bytes = []
  · simp [h, eq_comm]
  · simp [h]

/-! ### The rules of the backend -/

/-- Text that is only white space and has none at its ends is empty. -/
theorem blank_iff {value : String} (h : isTrimmed value) : isNullOrWhiteSpace value ↔ value = "" := by
  constructor
  · intro hblank
    unfold isNullOrWhiteSpace at hblank
    unfold isTrimmed at h
    cases hletters : value.toList with
    | nil => exact String.toList_eq_nil_iff.mp hletters
    | cons c rest =>
      rw [hletters] at h hblank
      simp only [List.head?_cons, Option.any_some, List.all_cons, Bool.and_eq_true] at h hblank
      simp [hblank.1] at h
  · rintro rfl
    rfl

theorem isCanonical_iff {value : String} :
    isCanonical value ↔ Bounded value DEVICE_ID_MAX_UTF16_CODE_UNITS ∧ ¬value.toList.any isControl := by
  unfold isCanonical
  simp only [Bool.and_eq_true, Bool.not_eq_true', decide_eq_true_eq, DEVICE_ID_MAX_UTF16_CODE_UNITS,
    Bool.not_eq_true]
  constructor
  · rintro ⟨⟨⟨hblank, hshort⟩, htrimmed⟩, hplain⟩
    refine ⟨⟨htrimmed, fun hempty => ?_, hshort⟩, hplain⟩
    rw [(blank_iff htrimmed).mpr hempty] at hblank
    contradiction
  · rintro ⟨⟨htrimmed, hnonempty, hshort⟩, hplain⟩
    refine ⟨⟨⟨?_, hshort⟩, htrimmed⟩, hplain⟩
    rw [← Bool.not_eq_true, blank_iff htrimmed]
    exact hnonempty

theorem isLabel_iff {label : String} : isLabel label ↔ Bounded label DEVICE_LABEL_MAX_UTF16_CODE_UNITS := by
  unfold isLabel
  simp only [Bool.not_or, Bool.and_eq_true, Bool.not_eq_true', Bool.not_not, decide_eq_false_iff_not,
    Nat.not_lt, DEVICE_LABEL_MAX_UTF16_CODE_UNITS]
  constructor
  · rintro ⟨⟨hblank, hshort⟩, htrimmed⟩
    refine ⟨htrimmed, fun hempty => ?_, hshort⟩
    rw [(blank_iff htrimmed).mpr hempty] at hblank
    contradiction
  · rintro ⟨htrimmed, hnonempty, hshort⟩
    refine ⟨⟨?_, hshort⟩, htrimmed⟩
    rw [← Bool.not_eq_true, blank_iff htrimmed]
    exact hnonempty

/-- The id of a device that the backend takes. -/
structure PlainId (id : String) : Prop where
  fits : FitsField (utf8 id)
  bounded : Bounded id DEVICE_ID_MAX_UTF16_CODE_UNITS
  plain : ¬id.toList.any isControl

theorem readDeviceId_reads : Reads readDeviceId PlainId (fun s => field (utf8 s)) := by
  intro bytes s rest
  refine (checked_reads readString_reads _ _ bytes s rest).trans ?_
  simp only [isCanonical_iff]
  constructor
  · rintro ⟨⟨hfits, hbounded, hplain⟩, hbytes⟩
    exact ⟨⟨hfits, hbounded, hplain⟩, hbytes⟩
  · rintro ⟨⟨hfits, hbounded, hplain⟩, hbytes⟩
    exact ⟨⟨hfits, hbounded, hplain⟩, hbytes⟩

theorem readTime_reads : Reads readTime (· ≤ MAX_UNIX_TIME_MILLISECONDS) (toBe 8) := by
  intro bytes t rest
  have hmax : MAX_UNIX_TIME_MILLISECONDS ≤ MaxInt64 := by decide
  have hint : MaxInt64 < 256 ^ 8 := by decide
  refine (checked_reads readInt64_reads _ _ bytes t rest).trans ?_
  simp only [decide_eq_true_eq]
  constructor
  · rintro ⟨⟨-, htime⟩, hbytes⟩
    exact ⟨htime, hbytes⟩
  · rintro ⟨htime, hbytes⟩
    have hfits : t ≤ MaxInt64 := Nat.le_trans htime hmax
    exact ⟨⟨⟨Nat.lt_of_le_of_lt hfits hint, hfits⟩, htime⟩, hbytes⟩

theorem readValidity_reads : Reads readValidity (fun v => Timely v.1 v.2) (fun v => times v.1 v.2) := by
  rintro bytes ⟨issued, expires⟩ rest
  rw [readValidity, readTime_reads.next]
  constructor
  · rintro ⟨issued', mid, ⟨hissued, rfl⟩, h⟩
    obtain ⟨raw, mid', ⟨hraw, rfl⟩, h'⟩ := readTime_reads.next.mp h
    by_cases hzero : raw = 0
    · rw [if_pos hzero] at h'
      obtain ⟨hvalue, rfl⟩ := pure_reads.mp h'
      obtain ⟨rfl, rfl⟩ := Prod.mk.inj hvalue
      refine ⟨⟨hissued, nofun⟩, ?_⟩
      simp only [hzero, times, List.append_assoc]
      rfl
    · rw [if_neg hzero] at h'
      by_cases hlt : issued' < raw
      · rw [if_pos hlt] at h'
        obtain ⟨hvalue, rfl⟩ := pure_reads.mp h'
        obtain ⟨rfl, rfl⟩ := Prod.mk.inj hvalue
        refine ⟨⟨hissued, ?_⟩, by simp only [times, List.append_assoc]; rfl⟩
        rintro t ⟨⟩
        exact ⟨hlt, hraw⟩
      · rw [if_neg hlt] at h'
        cases h'
  · rintro ⟨⟨hissued, hlater⟩, rfl⟩
    refine ⟨issued, toBe 8 (encodeExpiry expires) ++ rest, ⟨hissued, by simp only [times, List.append_assoc]⟩, ?_⟩
    cases expires with
    | none =>
      refine readTime_reads.next.mpr ⟨0, rest, ⟨Nat.zero_le _, rfl⟩, ?_⟩
      exact pure_reads.mpr ⟨rfl, rfl⟩
    | some t =>
      obtain ⟨hlt, hle⟩ := hlater t rfl
      refine readTime_reads.next.mpr ⟨t, rest, ⟨hle, rfl⟩, ?_⟩
      rw [if_neg (by omega), if_pos hlt]
      exact pure_reads.mpr ⟨rfl, rfl⟩

theorem readAll_iff {body : Bytes} {most : Nat} {value : α} :
    readAll read body most = .ok value ↔ body ≠ [] ∧ body.length ≤ most ∧ ∃ rest, read body = .ok (value, rest) := by
  unfold readAll
  by_cases hlength : body = [] ∨ most < body.length
  · rw [if_pos hlength]
    constructor
    · nofun
    · rintro ⟨hnonempty, hshort, -⟩
      rcases hlength with hempty | hlong
      · exact absurd hempty hnonempty
      · omega
  · rw [if_neg hlength]
    obtain ⟨hnonempty, hshort⟩ := not_or.mp hlength
    constructor
    · intro h
      obtain ⟨⟨value', rest⟩, hread, hvalue⟩ := bind_ok h
      obtain rfl := Except.ok.inj hvalue
      exact ⟨hnonempty, by omega, rest, hread⟩
    · rintro ⟨-, -, rest, hread⟩
      rw [ok_bind hread]
      rfl

theorem readUserId_reads : Reads readUserId (fun s => FitsField (utf8 s) ∧ isCanonicalUuid s)
    (fun s => field (utf8 s)) :=
  checked_reads readString_reads _ _

theorem field_ne_nil (bytes : Bytes) : field bytes ≠ [] := by
  intro h
  have := congrArg List.length h
  simp [field] at this

end IdentityWire

/-! ### Certificates on both sides -/

namespace DeviceCertificate
open IdentityWire

/-- What the backend has of a certificate. -/
def seen (c : DeviceCertificate) : IdentityWire.DeviceCertificate :=
  ⟨c.userId, c.deviceId, c.signerDeviceId, c.sigPublicKey, c.issuedAtMs, c.expiresAtMs⟩

/-- Whether the id of a device has a control character. -/
def holdsControl (c : DeviceCertificate) : Bool :=
  c.deviceId.toList.any isControl || c.signerDeviceId.toList.any isControl

variable {v : IdentityWire.DeviceCertificate}

theorem read_iff {body rest : Bytes} :
    IdentityWire.DeviceCertificate.read body = .ok (v, rest) ↔
      ∃ c : DeviceCertificate, (c.Rules ∧ c.Fits ∧ body = c.layout) ∧ ¬c.holdsControl ∧ c.seen = v ∧ rest = [] := by
  constructor
  · intro h
    obtain ⟨userId, b₁, ⟨⟨huser, hid⟩, rfl⟩, h1⟩ := readUserId_reads.next.mp h
    obtain ⟨deviceId, b₂, ⟨hdevice, rfl⟩, h2⟩ := readDeviceId_reads.next.mp h1
    obtain ⟨label, b₃, ⟨hlabel, rfl⟩, h3⟩ := readString_reads.next.mp h2
    obtain ⟨_, _, hchecked, h4⟩ := bind_reads.mp h3
    obtain ⟨hrule, rfl, rfl⟩ := checked_iff.mp hchecked
    obtain ⟨signer, b₄, ⟨hsigner, rfl⟩, h5⟩ := readDeviceId_reads.next.mp h4
    obtain ⟨key, b₅, ⟨hkey, rfl⟩, h6⟩ := readBytes_reads.next.mp h5
    obtain ⟨_, _, hcheckedKey, h7⟩ := bind_reads.mp h6
    obtain ⟨hkeyRule, rfl, rfl⟩ := checked_iff.mp hcheckedKey
    obtain ⟨⟨issued, expires⟩, b₆, ⟨htimes, rfl⟩, h8⟩ := readValidity_reads.next.mp h7
    obtain ⟨⟨⟩, b₇, hend, h9⟩ := bind_reads.mp h8
    obtain ⟨rfl, rfl⟩ := expectEnd_iff.mp hend
    obtain ⟨rfl, rfl⟩ := pure_reads.mp h9
    refine ⟨⟨userId, deviceId, label, signer, key, issued, expires⟩, ⟨⟨htimes, hid, hdevice.bounded,
      isLabel_iff.mp hrule, hsigner.bounded, of_decide_eq_true hkeyRule⟩,
      ⟨huser, hdevice.fits, hlabel, hsigner.fits, hkey⟩, ?_⟩, ?_, rfl, rfl⟩
    · simp only [layout, List.append_nil]
    · simpa [holdsControl] using And.intro hdevice.plain hsigner.plain
  · rintro ⟨c, ⟨hrules, hfits, rfl⟩, hplain, rfl, rfl⟩
    obtain ⟨hdevice, hsigner⟩ : ¬c.deviceId.toList.any isControl ∧ ¬c.signerDeviceId.toList.any isControl := by
      simpa [holdsControl] using hplain
    refine readUserId_reads.next.mpr ⟨_, _, ⟨⟨hfits.userId, hrules.userId⟩, rfl⟩, ?_⟩
    refine readDeviceId_reads.next.mpr ⟨_, _, ⟨⟨hfits.deviceId, hrules.deviceId, hdevice⟩, rfl⟩, ?_⟩
    refine readString_reads.next.mpr ⟨_, _, ⟨hfits.deviceLabel, rfl⟩, ?_⟩
    refine bind_reads.mpr ⟨_, _, checked_iff.mpr ⟨isLabel_iff.mpr hrules.deviceLabel, rfl, rfl⟩, ?_⟩
    refine readDeviceId_reads.next.mpr
      ⟨_, _, ⟨⟨hfits.signerDeviceId, hrules.signerDeviceId, hsigner⟩, rfl⟩, ?_⟩
    refine readBytes_reads.next.mpr ⟨_, _, ⟨hfits.sigPublicKey, rfl⟩, ?_⟩
    refine bind_reads.mpr ⟨_, _, checked_iff.mpr ⟨decide_eq_true hrules.sigPublicKey, rfl, rfl⟩, ?_⟩
    refine readValidity_reads.next.mpr ⟨(c.issuedAtMs, c.expiresAtMs), [],
      ⟨hrules.times, (List.append_nil _).symm⟩, ?_⟩
    exact bind_reads.mpr ⟨(), [], expectEnd_iff.mpr ⟨rfl, rfl⟩, pure_reads.mpr ⟨rfl, rfl⟩⟩

/-- The backend accepts the bodies that the client writes, without those that have a control character. -/
theorem parse_iff {body : Bytes} :
    IdentityWire.DeviceCertificate.parse body = .ok v ↔
      ∃ c : DeviceCertificate, c.serializeBody = .ok body ∧ ¬c.holdsControl ∧ c.seen = v := by
  unfold IdentityWire.DeviceCertificate.parse
  rw [readAll_iff]
  constructor
  · rintro ⟨-, hlength, rest, hread⟩
    obtain ⟨c, ⟨hrules, hfits, hlayout⟩, hplain, hseen, -⟩ := read_iff.mp hread
    exact ⟨c, serializeBody_iff.mpr ⟨hrules, hfits, hlayout, hlength⟩, hplain, hseen⟩
  · rintro ⟨c, hserialized, hplain, hseen⟩
    obtain ⟨hrules, hfits, hlayout, hlength⟩ := serializeBody_iff.mp hserialized
    refine ⟨?_, hlength, [], read_iff.mpr ⟨c, ⟨hrules, hfits, hlayout⟩, hplain, hseen, rfl⟩⟩
    rw [hlayout, layout]
    simp [field_ne_nil]

end DeviceCertificate

/-! ### Lists on both sides -/

namespace IdentityWire

variable {l : SignedDeviceList}

theorem distinct_iff : l.distinct ↔ l.deviceIds.Nodup := by
  unfold SignedDeviceList.distinct
  have hlength : l.entries.length = l.deviceIds.length := by simp [SignedDeviceList.deviceIds]
  rw [decide_eq_true_eq, hlength]
  constructor
  · intro h
    rw [← (List.dedup_sublist l.deviceIds).eq_of_length h]
    exact List.nodup_dedup _
  · intro h
    rw [h.dedup]

theorem signed_iff : l.signed ↔ l.signerDeviceId ∈ l.deviceIds := by
  simp [SignedDeviceList.signed, SignedDeviceList.deviceIds]

end IdentityWire

open IdentityWire

namespace DeviceListEntry

def seen (e : DeviceListEntry) : IdentityWire.Entry := ⟨e.deviceId, e.signerDeviceId⟩

def holdsControl (e : DeviceListEntry) : Bool :=
  e.deviceId.toList.any isControl || e.signerDeviceId.toList.any isControl

/-- An entry that the backend takes. -/
structure Plain (e : DeviceListEntry) : Prop where
  rules : e.Rules
  fits : e.Fits
  plain : ¬e.holdsControl

theorem plain_iff {deviceId signer : String} : Plain ⟨deviceId, signer⟩ ↔ PlainId deviceId ∧ PlainId signer := by
  constructor
  · rintro ⟨⟨hdevice, hsigner⟩, ⟨hfits, hfits'⟩, hplain⟩
    obtain ⟨hplain, hplain'⟩ : ¬deviceId.toList.any isControl ∧ ¬signer.toList.any isControl := by
      simpa [holdsControl] using hplain
    exact ⟨⟨hfits, hdevice, hplain⟩, hfits', hsigner, hplain'⟩
  · rintro ⟨hdevice, hsigner⟩
    refine ⟨⟨hdevice.bounded, hsigner.bounded⟩, ⟨hdevice.fits, hsigner.fits⟩, ?_⟩
    simpa [holdsControl] using And.intro hdevice.plain hsigner.plain

end DeviceListEntry

theorem plainEntries_iff : ∀ {n : Nat} {bytes rest : Bytes} {out : List IdentityWire.Entry},
    IdentityWire.readEntries n bytes = .ok (out, rest) ↔ ∃ entries : List DeviceListEntry,
      (∀ e ∈ entries, e.Plain) ∧ entries.length = n ∧ entries.map (·.seen) = out ∧
        bytes = entries.flatMap (·.layout) ++ rest
  | 0, bytes, rest, out => by
    unfold IdentityWire.readEntries
    rw [pure_reads]
    constructor
    · rintro ⟨rfl, rfl⟩
      exact ⟨[], nofun, rfl, rfl, rfl⟩
    · rintro ⟨entries, -, hlength, rfl, rfl⟩
      obtain rfl := List.eq_nil_of_length_eq_zero hlength
      exact ⟨rfl, rfl⟩
  | n + 1, bytes, rest, out => by
    constructor
    · intro h
      obtain ⟨deviceId, b₁, ⟨hdevice, rfl⟩, h1⟩ := readDeviceId_reads.next.mp h
      obtain ⟨signer, b₂, ⟨hsigner, rfl⟩, h2⟩ := readDeviceId_reads.next.mp h1
      obtain ⟨others, b₃, hothers, h3⟩ := bind_reads.mp h2
      obtain ⟨rfl, rfl⟩ := pure_reads.mp h3
      obtain ⟨entries, hall, rfl, rfl, rfl⟩ := plainEntries_iff.mp hothers
      refine ⟨⟨deviceId, signer⟩ :: entries, List.forall_mem_cons.mpr
        ⟨DeviceListEntry.plain_iff.mpr ⟨hdevice, hsigner⟩, hall⟩, rfl, rfl, ?_⟩
      simp only [List.flatMap_cons, DeviceListEntry.layout, List.append_assoc]
    · rintro ⟨entries, hall, hlength, rfl, rfl⟩
      obtain ⟨⟨deviceId, signer⟩, others, rfl⟩ := List.exists_cons_of_length_eq_add_one hlength
      obtain ⟨hplain, hothers⟩ := List.forall_mem_cons.mp hall
      obtain ⟨hdevice, hsigner⟩ := DeviceListEntry.plain_iff.mp hplain
      rw [List.flatMap_cons, DeviceListEntry.layout, List.append_assoc, List.append_assoc]
      refine readDeviceId_reads.next.mpr ⟨_, _, ⟨hdevice, rfl⟩, ?_⟩
      refine readDeviceId_reads.next.mpr ⟨_, _, ⟨hsigner, rfl⟩, ?_⟩
      refine bind_reads.mpr ⟨_, rest, plainEntries_iff.mpr ⟨others, hothers, Nat.succ.inj hlength, rfl, rfl⟩, ?_⟩
      exact pure_reads.mpr ⟨rfl, rfl⟩

namespace SignedDeviceList

/-- What the backend has of a list. -/
def seen (l : SignedDeviceList) : IdentityWire.SignedDeviceList :=
  ⟨l.userId, l.generation, l.entries.map (·.seen), l.signerDeviceId, l.issuedAtMs, l.expiresAtMs⟩

/-- Whether the id of a device has a control character. -/
def holdsControl (l : SignedDeviceList) : Bool :=
  l.signerDeviceId.toList.any isControl || l.entries.any (·.holdsControl)

theorem seen_deviceIds (l : SignedDeviceList) : l.seen.deviceIds = l.deviceIds := by
  simp [seen, deviceIds, IdentityWire.SignedDeviceList.deviceIds, DeviceListEntry.seen]

variable {v : IdentityWire.SignedDeviceList}

theorem read_iff {body rest : Bytes} :
    IdentityWire.SignedDeviceList.read body = .ok (v, rest) ↔ ∃ l : SignedDeviceList,
      (l.Rules ∧ l.Fits ∧ body = l.layout) ∧ l.signerDeviceId ∈ l.deviceIds ∧ ¬l.holdsControl ∧
        l.seen = v ∧ rest = [] := by
  have hint : MaxInt64 < 256 ^ 8 := by decide
  have hlong : MaxInt64 + 1 = 2 ^ 63 := by decide
  have hmany : MaxEntries < 256 ^ 4 := by decide
  constructor
  · intro h
    obtain ⟨userId, b₁, ⟨⟨huser, hid⟩, rfl⟩, h1⟩ := readUserId_reads.next.mp h
    obtain ⟨generation, b₂, ⟨⟨-, hfits⟩, rfl⟩, h2⟩ := readInt64_reads.next.mp h1
    obtain ⟨_, _, hcheckedGeneration, h3⟩ := bind_reads.mp h2
    obtain ⟨hgeneration, rfl, rfl⟩ := checked_iff.mp hcheckedGeneration
    obtain ⟨count, b₃, ⟨-, rfl⟩, h4⟩ := readUInt32_reads.next.mp h3
    obtain ⟨_, _, hcheckedCount, h5⟩ := bind_reads.mp h4
    obtain ⟨hcount, rfl, rfl⟩ := checked_iff.mp hcheckedCount
    obtain ⟨_, b₄, hentries, h6⟩ := bind_reads.mp h5
    obtain ⟨entries, hall, rfl, rfl, rfl⟩ := plainEntries_iff.mp hentries
    obtain ⟨signer, b₅, ⟨hsigner, rfl⟩, h7⟩ := readDeviceId_reads.next.mp h6
    obtain ⟨⟨issued, expires⟩, b₆, ⟨htimes, rfl⟩, h8⟩ := readValidity_reads.next.mp h7
    obtain ⟨⟨⟩, b₇, hend, h9⟩ := bind_reads.mp h8
    obtain ⟨rfl, rfl⟩ := expectEnd_iff.mp hend
    obtain ⟨_, _, hcheckedList, h10⟩ := bind_reads.mp h9
    obtain ⟨hdistinct, rfl, rfl⟩ := checked_iff.mp hcheckedList
    obtain ⟨hsigned, rfl, rfl⟩ := checked_iff.mp h10
    let l : SignedDeviceList := ⟨userId, generation, entries, signer, issued, expires⟩
    have hids : l.seen.deviceIds = l.deviceIds := l.seen_deviceIds
    refine ⟨l, ⟨⟨?_, htimes, hid, hsigner.bounded, fun e he => (hall e he).rules, ?_, of_decide_eq_true hcount⟩,
      ⟨huser, fun e he => (hall e he).fits, hsigner.fits⟩, ?_⟩, ?_, ?_, rfl, rfl⟩
    · exact ⟨of_decide_eq_true hgeneration, by dsimp only [l]; omega⟩
    · rw [← hids]
      exact distinct_iff.mp hdistinct
    · simp only [layout, List.append_nil, l]
    · rw [← hids]
      exact signed_iff.mp hsigned
    · have hplain : ∀ e ∈ entries, ¬e.holdsControl := fun e he => (hall e he).plain
      simpa [holdsControl, l] using And.intro hsigner.plain hplain
  · rintro ⟨l, ⟨hrules, hfits, rfl⟩, hsigner, hplain, rfl, rfl⟩
    obtain ⟨hplain, hentries⟩ : ¬l.signerDeviceId.toList.any isControl ∧ ∀ e ∈ l.entries, ¬e.holdsControl := by
      simpa [holdsControl] using hplain
    obtain ⟨hpositive, hshort⟩ := hrules.generation
    have hgeneration : l.generation ≤ MaxInt64 := by omega
    have hcount := hrules.most
    refine readUserId_reads.next.mpr ⟨_, _, ⟨⟨hfits.userId, hrules.userId⟩, rfl⟩, ?_⟩
    refine readInt64_reads.next.mpr ⟨_, _, ⟨⟨by omega, hgeneration⟩, rfl⟩, ?_⟩
    refine bind_reads.mpr ⟨_, _, checked_iff.mpr ⟨decide_eq_true hpositive, rfl, rfl⟩, ?_⟩
    refine readUInt32_reads.next.mpr ⟨_, _, ⟨Nat.lt_of_le_of_lt hcount hmany, rfl⟩, ?_⟩
    refine bind_reads.mpr ⟨_, _, checked_iff.mpr ⟨decide_eq_true hcount, rfl, rfl⟩, ?_⟩
    refine bind_reads.mpr ⟨_, _, plainEntries_iff.mpr ⟨l.entries, fun e he => ⟨hrules.entries e he,
      hfits.entries e he, hentries e he⟩, rfl, rfl, rfl⟩, ?_⟩
    refine readDeviceId_reads.next.mpr
      ⟨_, _, ⟨⟨hfits.signerDeviceId, hrules.signerDeviceId, hplain⟩, rfl⟩, ?_⟩
    refine readValidity_reads.next.mpr ⟨(l.issuedAtMs, l.expiresAtMs), [],
      ⟨hrules.times, (List.append_nil _).symm⟩, ?_⟩
    refine bind_reads.mpr ⟨(), [], expectEnd_iff.mpr ⟨rfl, rfl⟩, ?_⟩
    refine bind_reads.mpr ⟨l.seen, [], checked_iff.mpr ⟨distinct_iff.mpr ?_, rfl, rfl⟩,
      checked_iff.mpr ⟨signed_iff.mpr ?_, rfl, rfl⟩⟩
    · exact l.seen_deviceIds ▸ hrules.distinct
    · exact l.seen_deviceIds ▸ hsigner

/-- The backend accepts the lists that the client accepts, without those that have a control character. -/
theorem parse_iff {body : Bytes} :
    IdentityWire.SignedDeviceList.parse body = .ok v ↔ ∃ l : SignedDeviceList,
      (l.serializeBody = .ok body ∧ l.signerDeviceId ∈ l.deviceIds) ∧ ¬l.holdsControl ∧ l.seen = v := by
  unfold IdentityWire.SignedDeviceList.parse
  rw [readAll_iff]
  constructor
  · rintro ⟨-, hlength, rest, hread⟩
    obtain ⟨l, ⟨hrules, hfits, hlayout⟩, hsigner, hplain, hseen, -⟩ := read_iff.mp hread
    exact ⟨l, ⟨serializeBody_iff.mpr ⟨hrules, hfits, hlayout, hlength⟩, hsigner⟩, hplain, hseen⟩
  · rintro ⟨l, ⟨hserialized, hsigner⟩, hplain, hseen⟩
    obtain ⟨hrules, hfits, hlayout, hlength⟩ := serializeBody_iff.mp hserialized
    refine ⟨?_, hlength, [], read_iff.mpr ⟨l, ⟨hrules, hfits, hlayout⟩, hsigner, hplain, hseen, rfl⟩⟩
    rw [hlayout, layout]
    simp [field_ne_nil]

end SignedDeviceList

/-! ### One format -/

/-- Both sides accept a body or neither, and then have the same fields. -/
def Agree {α β ε ε' : Type} (seen : α → β) (client : Except ε α) (backend : Except ε' β) : Prop :=
  client.toOption.map seen = backend.toOption

theorem toOption_iff {ε α : Type} {x : Except ε α} {a : α} : x.toOption = some a ↔ x = .ok a := by
  cases x <;> simp [Except.toOption]

/-- Where the backend refuses only what holds something more than the client asks for, both agree exactly
    on the bodies that do not hold it. -/
theorem agree_iff {α β ε ε' : Type} {seen : α → β} {client : Except ε α} {backend : Except ε' β}
    {holds : α → Prop} (h : ∀ v, backend = .ok v ↔ ∃ a, client = .ok a ∧ ¬holds a ∧ seen a = v) :
    Agree seen client backend ↔ ¬∃ a, client = .ok a ∧ holds a := by
  unfold Agree
  cases client with
  | error e =>
    have hnone : backend.toOption = none := by
      rw [Option.eq_none_iff_forall_ne_some]
      intro v hv
      obtain ⟨a, ha, -⟩ := (h v).mp (toOption_iff.mp hv)
      cases ha
    simp [Except.toOption] at hnone ⊢
    rw [hnone]
  | ok a =>
    have hbackend : ∀ v, backend.toOption = some v ↔ ¬holds a ∧ seen a = v := by
      intro v
      rw [toOption_iff, h]
      simp
    have hsome : (Except.ok a : Except ε α).toOption.map seen = some (seen a) := rfl
    rw [hsome, eq_comm, hbackend]
    simp

/-- The client and the backend agree on the bodies of both kinds unless a body is one that the client writes
    for a device whose id has a control character. -/
theorem bodies_agree (body : Bytes) :
    (Agree DeviceCertificate.seen (DeviceCertificate.parseBody body) (IdentityWire.DeviceCertificate.parse body) ∧
      Agree SignedDeviceList.seen (SignedDeviceList.parseBody body) (IdentityWire.SignedDeviceList.parse body)) ↔
    (¬∃ c : DeviceCertificate, c.serializeBody = .ok body ∧ c.holdsControl) ∧
      ¬∃ l : SignedDeviceList, (l.serializeBody = .ok body ∧ l.signerDeviceId ∈ l.deviceIds) ∧ l.holdsControl := by
  have hcert : ∀ v, IdentityWire.DeviceCertificate.parse body = .ok v ↔
      ∃ c, DeviceCertificate.parseBody body = .ok c ∧ ¬c.holdsControl ∧ c.seen = v := by
    intro v
    rw [DeviceCertificate.parse_iff]
    simp only [DeviceCertificate.parseBody_iff]
  have hlist : ∀ v, IdentityWire.SignedDeviceList.parse body = .ok v ↔
      ∃ l, SignedDeviceList.parseBody body = .ok l ∧ ¬l.holdsControl ∧ l.seen = v := by
    intro v
    rw [SignedDeviceList.parse_iff]
    simp only [SignedDeviceList.parseBody_iff]
  rw [agree_iff hcert, agree_iff hlist]
  simp only [DeviceCertificate.parseBody_iff, SignedDeviceList.parseBody_iff]

/-- A list of one device whose id has a bell in it. -/
def bellList : SignedDeviceList :=
  ⟨"00000000-0000-4000-8000-000000000001", 1, [⟨"a\x07b", "a\x07b"⟩], "a\x07b", 100, none⟩

theorem bell_disagrees : ¬∀ body : Bytes,
    Agree DeviceCertificate.seen (DeviceCertificate.parseBody body) (IdentityWire.DeviceCertificate.parse body) ∧
      Agree SignedDeviceList.seen (SignedDeviceList.parseBody body) (IdentityWire.SignedDeviceList.parse body) := by
  intro h
  obtain ⟨hclient, hbackend⟩ : SignedDeviceList.parseBody bellList.layout = .ok bellList ∧
      (IdentityWire.SignedDeviceList.parse bellList.layout).toOption = none := by decide
  have hagree := (h bellList.layout).2
  rw [Agree, hclient, hbackend] at hagree
  cases hagree

end Kodosi.Identity
