import Kodosi.Identity.Checked

/-! Pins only move forward. A pin advances by a list whose signer is tied, certificate by certificate, to a
    device of the list that was pinned; its file is never behind it; and so every run, through failed
    saves and restarts, keeps the root, the generation and what is revoked. -/

namespace Kodosi.Identity
open Kodosi.Lib Relation

variable {C : Crypto} {bundle : IdentityBundle} {anchor : Anchor} {existing : Option Pin}
  {nowMs : Nat} {allowExpired : Bool} {p : Parts}

/-! ### From the signer of a list to a device that was pinned -/

/-- The second certificate is the one that its bundle has for the signer of the first. -/
def Next (bodies : Bodies) (b b' : Body) : Prop := bodies[b.certificate.signerDeviceId]? = some b'

/-- A walk that ends well has gone from signer to signer to a device where the visit ended well. -/
theorem walk_ok {bodies : Bodies} {barred : String → Bool} {stopped : Error}
    {visit : String → DeviceCertificate → Option (Except Error Unit)} {seen : List String}
    {current : String} (h : walk bodies barred stopped visit seen current = .ok ()) :
    ∃ first, bodies[current]? = some first ∧ ∃ id last, bodies[id]? = some last ∧
      ¬barred id ∧ visit id last.certificate = some (.ok ()) ∧
      ReflTransGen (Next bodies) first last := by
  fun_induction walk bodies barred stopped visit seen current with
  | case1 => simp at h
  | case2 => simp at h
  | case3 seen current hseen first hfirst result hvisit =>
    rw [not_or] at hseen
    exact ⟨first, hfirst, current, first, hfirst, hseen.2, h ▸ hvisit, .refl⟩
  | case4 seen current hseen first hfirst hvisit ih =>
    obtain ⟨second, hsecond, id, last, hlast, hbarred, hend, hpath⟩ := ih h
    exact ⟨first, hfirst, id, last, hlast, hbarred, hend, .head hsecond hpath⟩

/-- A certificate of the bundle, signed by the key of another certificate of the bundle that stands
    under the device it names. -/
structure IdentityBundle.SignedBy (C : Crypto) (bundle : IdentityBundle) (b b' : Body) : Prop where
  mem : b.envelope ∈ bundle.envelopes ∧ readCertificate b.envelope = .ok b
  signer_mem : b'.envelope ∈ bundle.envelopes ∧ readCertificate b'.envelope = .ok b'
  signer : b.certificate.signerDeviceId = b'.certificate.deviceId
  signed : ∃ signature, decode b.envelope.certificateSignature 3309 = .ok signature ∧
    C.verifySig b'.certificate.sigPublicKey (DEVICE_CERT_V3 ++ b.body) signature

/-- The list that a pin holds. -/
def Pin.list (pin : Pin) : Except Error SignedDeviceList := do
  let body ← decode pin.listBody 527432
  SignedDeviceList.parseBody body

/-- The list of the newer pin is signed with a certificate of its bundle, from which signatures lead to
    a device of the list that was pinned before, under the certificate that it had there. -/
structure Endorsed (C : Crypto) (old new : Pin) (bundle : IdentityBundle) (signer trusted : Body) :
    Prop where
  carries : bundle.deviceList = ⟨new.listBody, new.listSignature⟩
  mem : signer.envelope ∈ bundle.envelopes ∧ readCertificate signer.envelope = .ok signer
  names : ∃ list, new.list = .ok list ∧ list.signerDeviceId = signer.certificate.deviceId
  signed : ∃ body signature, decode new.listBody 527432 = .ok body ∧
    decode new.listSignature 3309 = .ok signature ∧
    C.verifySig signer.certificate.sigPublicKey (DEVICE_LIST_V1 ++ body) signature
  path : ReflTransGen (bundle.SignedBy C) signer trusted
  known : ∃ list, old.list = .ok list ∧ trusted.certificate.deviceId ∈ list.deviceIds
  pinned : ∃ envelope b, old.certificates[trusted.certificate.deviceId]? = some envelope ∧
    readCertificate envelope = .ok b ∧ b.certificate = trusted.certificate

/-- What an accepted pin is in itself: its list parses, has its generation, and names the devices
    whose certificates it holds. -/
structure Pin.Sound (pin : Pin) : Prop where
  list : ∃ list, pin.list = .ok list ∧ list.generation = pin.generation ∧
    ∀ id, id ∈ pin.certificates ↔ id ∈ list.deviceIds

/-- What the later pin of a person has kept of the earlier one. -/
structure Pin.Forward (old new : Pin) : Prop where
  root : new.root = old.root
  incarnation : new.identityIncarnationId = old.identityIncarnationId
  generation : old.generation ≤ new.generation
  same : new.generation = old.generation →
    new.listBody = old.listBody ∧ new.listSignature = old.listSignature
  revoked : old.revoked ⊆ new.revoked

theorem Pin.Forward.refl (pin : Pin) : pin.Forward pin :=
  ⟨rfl, rfl, Nat.le_refl _, fun _ => ⟨rfl, rfl⟩, Finset.Subset.refl _⟩

theorem Pin.Forward.trans {a b c : Pin} (h : a.Forward b) (h' : b.Forward c) : a.Forward c where
  root := h'.root.trans h.root
  incarnation := h'.incarnation.trans h.incarnation
  generation := h.generation.trans h'.generation
  same heq := by
    have hle := h.generation
    have hle' := h'.generation
    obtain ⟨hbody, hsignature⟩ := h.same (by omega)
    obtain ⟨hbody', hsignature'⟩ := h'.same (by omega)
    exact ⟨hbody'.trans hbody, hsignature'.trans hsignature⟩
  revoked := h.revoked.trans h'.revoked

/-- One step forward: a newer list is endorsed by a device of the older one. -/
structure Pin.Advances (C : Crypto) (old new : Pin) : Prop where
  forward : old.Forward new
  endorsed : old.generation < new.generation →
    ∃ bundle signer trusted, Endorsed C old new bundle signer trusted

namespace Parts.Checked

variable (h : p.Checked C bundle anchor existing nowMs allowExpired)
include h

theorem list_eq : (p.pin bundle existing).list = .ok p.list := by
  rw [Pin.list, Parts.pin, ok_bind h.listBody]
  exact h.list

theorem sound : (p.pin bundle existing).Sound := by
  refine ⟨p.list, h.list_eq, rfl, fun id => ?_⟩
  rw [← h.mem_devices, Parts.pin, Std.TreeMap.mem_map]

/-- Each certificate that was read is signed by the next. -/
theorem signedBy {id : String} {b b' : Body} (hb : p.bodies[id]? = some b)
    (hnext : Next p.bodies b b') : bundle.SignedBy C b b' := by
  obtain ⟨-, hmem, hread⟩ := h.readFrom id b hb
  obtain ⟨hdevice', hmem', hread'⟩ := h.readFrom _ b' hnext
  have hcheck := h.checked (id, b) (Std.TreeMap.mem_toList_iff_getElem?_eq_some.mpr hb)
  obtain ⟨⟨⟩, -, hcheck⟩ := bind_ok hcheck
  obtain ⟨signer, hsigner, hcheck⟩ := bind_ok hcheck
  obtain ⟨⟨⟩, -, hcheck⟩ := bind_ok hcheck
  obtain ⟨signature, hsignature, hcheck⟩ := bind_ok hcheck
  obtain ⟨certificate, hverify, -⟩ := bind_ok hcheck
  obtain ⟨⟨⟩, -, hverify⟩ := bind_ok hverify
  obtain ⟨⟨⟩, hfits, -⟩ := bind_ok hverify
  rw [Next] at hnext
  rw [require_ok, hnext] at hsigner
  obtain rfl : b'.certificate = signer := Option.some.inj hsigner
  rw [reject_ok, not_not] at hfits
  exact ⟨⟨hmem, hread⟩, ⟨hmem', hread'⟩, hdevice'.symm, signature, hsignature, hfits⟩

theorem path {first last : Body} (hpath : ReflTransGen (Next p.bodies) first last) {id : String}
    (hfirst : p.bodies[id]? = some first) : ReflTransGen (bundle.SignedBy C) first last := by
  induction hpath using ReflTransGen.head_induction_on generalizing id with
  | refl => exact .refl
  | head hnext _ ih => exact .head (h.signedBy hfirst hnext) (ih hnext)

end Parts.Checked

variable {prior : Map DeviceCertificate} {id : String}

/-- What stands among the parsed certificates of a pin was read from its envelope. -/
theorem readPrior_ok {entries : List (String × CertificateEnvelope)} (h : entries.foldlM readPrior ∅ = .ok prior)
    {certificate : DeviceCertificate} (hid : prior[id]? = some certificate) :
    ∃ envelope b, (id, envelope) ∈ entries ∧ readCertificate envelope = .ok b ∧ b.certificate = certificate := by
  refine foldlM_ok (d := []) (I := fun done prior => ∀ id certificate, prior[id]? = some certificate →
    ∃ envelope b, (id, envelope) ∈ done ∧ readCertificate envelope = .ok b ∧
      b.certificate = certificate) ?_ (by simp) h id certificate hid
  intro done entry prior prior' hread hstep id certificate hid
  obtain ⟨b, hb, hstep⟩ := bind_ok hstep
  obtain rfl := Except.ok.inj hstep
  rw [getElem?_insert] at hid
  by_cases heq : entry.1 = id
  · rw [if_pos heq] at hid
    exact ⟨entry.2, b, by simp [← heq], hb, Option.some.inj hid⟩
  · rw [if_neg heq] at hid
    obtain ⟨envelope, b, hmem, hrest⟩ := hread id certificate hid
    exact ⟨envelope, b, List.mem_append_left _ hmem, hrest⟩

variable {list : SignedDeviceList}

theorem checkPin_ok {root : Root} {pin : Pin} (h : checkPin bundle list root pin = .ok ()) :
    pin.identityIncarnationId = bundle.identityIncarnationId ∧ pin.root = root ∧
      pin.generation ≤ list.generation ∧ (list.generation = pin.generation →
        bundle.deviceList.body = pin.listBody ∧ bundle.deviceList.signature = pin.listSignature) := by
  obtain ⟨⟨⟩, hchanged, h⟩ := bind_ok h
  rw [reject_ok] at hchanged
  push Not at hchanged
  obtain ⟨hincarnation, hroot, hgeneration⟩ := hchanged
  refine ⟨hincarnation, hroot, hgeneration, fun heq => ?_⟩
  rw [if_neg (by omega)] at h
  have hsame := reject_ok.mp h
  push Not at hsame
  exact hsame heq

theorem checkDevices_ok {devices bodies : Bodies} {pin : Pin} (h : checkDevices devices bodies prior list pin = .ok ()) :
    (∀ id ∈ list.deviceIds, id ∉ pin.revoked) ∧
      (pin.generation < list.generation → checkSigners bodies prior pin list.signerDeviceId = .ok ()) := by
  obtain ⟨⟨⟩, hrevoked, h⟩ := bind_ok h
  rw [reject_ok] at hrevoked
  push Not at hrevoked
  refine ⟨hrevoked.2, fun hnewer => ?_⟩
  rw [if_pos hnewer] at h
  obtain ⟨⟨⟩, hsigners, -⟩ := bind_ok h
  exact hsigners

namespace Parts.Checked

variable {pin : Pin} (h : p.Checked C bundle anchor (some pin) nowMs allowExpired)
include h

theorem forward : pin.Forward (p.pin bundle (some pin)) := by
  obtain ⟨hincarnation, hroot, hgeneration, hsame⟩ := checkPin_ok (h.pinned pin rfl)
  refine ⟨hroot.symm, hincarnation.symm, hgeneration, hsame, fun id hid => ?_⟩
  simp [Parts.pin, revokedBy, hid]

/-- The end of the walk from the signer of the list is a device that the pin has a certificate of. -/
theorem endorsed (hsound : pin.Sound) (hnewer : pin.generation < p.list.generation) :
    ∃ signer trusted, Endorsed C pin (p.pin bundle (some pin)) bundle signer trusted := by
  have hsigners := (checkDevices_ok (h.kept pin rfl)).2 hnewer
  obtain ⟨first, hfirst, id, last, hlast, -, hvisit, hpath⟩ := walk_ok hsigners
  obtain ⟨signer, list, hsigner, hverify⟩ := h.signed
  obtain rfl : signer = first := Option.some.inj (hsigner.symm.trans hfirst)
  obtain ⟨hdevice, hmem, hread⟩ := h.readFrom _ _ hfirst
  obtain ⟨hid, -, -⟩ := h.readFrom _ _ hlast
  obtain ⟨⟨⟩, -, hverify⟩ := bind_ok hverify
  obtain ⟨⟨⟩, hfits, -⟩ := bind_ok hverify
  rw [reject_ok, not_not] at hfits
  obtain ⟨older, holder, -, hcertificates⟩ := hsound.list
  cases hprior : p.prior[id]? with
  | none =>
    rw [hprior] at hvisit
    by_cases hself : last.certificate.isSelfSigned
    · simp [hself] at hvisit
    · simp [hself] at hvisit
  | some trusted =>
    rw [hprior] at hvisit
    have hsame := reject_ok.mp (Option.some.inj hvisit)
    rw [not_not] at hsame
    obtain ⟨envelope, b, hentry, hb, hbody⟩ := readPrior_ok h.prior hprior
    have hentry : pin.certificates[id]? = some envelope :=
      Std.TreeMap.mem_toList_iff_getElem?_eq_some.mp hentry
    refine ⟨signer, last, rfl, ⟨hmem, hread⟩, ⟨p.list, h.list_eq, hdevice.symm⟩,
      ⟨p.listBody, p.listSignature, h.listBody, h.listSignature, hfits⟩, h.path hpath hfirst,
      ⟨older, holder, ?_⟩, envelope, b, ?_, hb, hbody.trans hsame⟩
    · rw [hid, ← hcertificates]
      exact mem_iff_getElem?.mpr ⟨envelope, hentry⟩
    · rw [hid]
      exact hentry

theorem advances (hsound : pin.Sound) : pin.Advances C (p.pin bundle (some pin)) :=
  ⟨h.forward, fun hnewer => ⟨bundle, h.endorsed hsound hnewer⟩⟩

end Parts.Checked

theorem Parts.mem_list (hid : id ∈ p.identity.devices) : id ∈ p.list.deviceIds := by
  rw [mem_iff_getElem?] at hid
  obtain ⟨certificate, hid⟩ := hid
  rw [Parts.identity, Std.TreeMap.getElem?_filterMap'] at hid
  obtain ⟨b, -, hb⟩ := Option.bind_eq_some_iff.mp hid
  exact (Option.ite_none_right_eq_some.mp hb).1

/-- No device of a verified identity is revoked in the pin that it made. -/
theorem Parts.Checked.unrevoked (h : p.Checked C bundle anchor existing nowMs allowExpired)
    (hid : id ∈ p.identity.devices) : id ∉ (p.pin bundle existing).revoked := by
  have hmem := p.mem_list hid
  cases existing with
  | none => simp [Parts.pin, revokedBy, hmem]
  | some pin =>
    have hkept := (checkDevices_ok (h.kept pin rfl)).1 id hmem
    simp [Parts.pin, revokedBy, hmem, hkept]

end Kodosi.Identity
