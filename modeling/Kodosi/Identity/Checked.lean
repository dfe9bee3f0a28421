import Kodosi.Identity.Pins

/-! What is known of a bundle that passed the check: each step of the check, the certificates that were
    read, and the way from the signer of the list to a device that was pinned before. -/

namespace Kodosi.Identity
open Kodosi.Lib

variable {C : Crypto} {bundle : IdentityBundle} {anchor : Anchor} {existing : Option Pin}
  {nowMs : Nat} {allowExpired : Bool} {p : Parts}

/-- Every step of the check has ended well. -/
structure Parts.Checked (C : Crypto) (bundle : IdentityBundle) (anchor : Anchor)
    (existing : Option Pin) (nowMs : Nat) (allowExpired : Bool) (p : Parts) : Prop where
  complete : ¬(bundle.identityIncarnationId = 0 ∨ bundle.devices = [] ∨ 256 < bundle.devices.length)
  listBody : decode bundle.deviceList.body 527432 = .ok p.listBody
  listSignature : decode bundle.deviceList.signature 3309 = .ok p.listSignature
  list : SignedDeviceList.parseBody p.listBody = .ok p.list
  user : p.list.userId = bundle.userId
  root : bundle.root C = .ok p.root
  anchored : checkAnchor anchor existing p.root = .ok ()
  pinned : ∀ pin ∈ existing, checkPin bundle p.list p.root pin = .ok ()
  current : isCurrent p.list nowMs allowExpired
  devices : bundle.devices.foldlM (readDevice bundle.userId nowMs) ∅ = .ok p.devices
  entries : p.list.deviceIds.toFinset = p.devices.keys.toFinset
  chain : ¬256 < bundle.certificateChain.length
  bodies : bundle.certificateChain.foldlM (readAncestor bundle.userId) p.devices = .ok p.bodies
  prior : ((existing.map (·.certificates.toList)).getD []).foldlM readPrior ∅ = .ok p.prior
  kept : ∀ pin ∈ existing, checkDevices p.devices p.bodies p.prior p.list pin = .ok ()
  signed : ∃ signer list, p.bodies[p.list.signerDeviceId]? = some signer ∧
    verifySignedDeviceList C p.listBody p.listSignature signer.certificate.sigPublicKey = .ok list
  checked : ∀ entry ∈ p.bodies.toList, checkBody C p.list p.bodies p.prior entry = .ok ()

theorem check_ok (h : check C bundle anchor existing nowMs allowExpired = .ok p) :
    p.Checked C bundle anchor existing nowMs allowExpired := by
  obtain ⟨⟨⟩, hcomplete, h⟩ := bind_ok h
  obtain ⟨listBody, hbody, h⟩ := bind_ok h
  obtain ⟨listSignature, hsignature, h⟩ := bind_ok h
  obtain ⟨list, hlist, h⟩ := bind_ok h
  obtain ⟨⟨⟩, huser, h⟩ := bind_ok h
  obtain ⟨root, hroot, h⟩ := bind_ok h
  obtain ⟨⟨⟩, hanchor, h⟩ := bind_ok h
  obtain ⟨⟨⟩, hpin, h⟩ := bind_ok h
  obtain ⟨⟨⟩, hcurrent, h⟩ := bind_ok h
  obtain ⟨devices, hdevices, h⟩ := bind_ok h
  obtain ⟨⟨⟩, hentries, h⟩ := bind_ok h
  obtain ⟨⟨⟩, hchain, h⟩ := bind_ok h
  obtain ⟨bodies, hbodies, h⟩ := bind_ok h
  obtain ⟨prior, hprior, h⟩ := bind_ok h
  obtain ⟨signer, hsigner, h⟩ := bind_ok h
  obtain ⟨⟨⟩, hkept, h⟩ := bind_ok h
  obtain ⟨list', hsigned, h⟩ := bind_ok h
  obtain ⟨⟨⟩, hchecked, h⟩ := bind_ok h
  obtain rfl := Except.ok.inj h
  rw [reject_ok] at hcomplete huser hcurrent hentries hchain
  exact {
    complete := hcomplete
    listBody := hbody
    listSignature := hsignature
    list := hlist
    user := not_not.mp huser
    root := hroot
    anchored := hanchor
    pinned := fun pin hmem => forM_ok.mp hpin pin (Option.mem_toList.mpr hmem)
    current := not_not.mp hcurrent
    devices := hdevices
    entries := not_not.mp hentries
    chain := hchain
    bodies := hbodies
    prior := hprior
    kept := fun pin hmem => forM_ok.mp hkept pin (Option.mem_toList.mpr hmem)
    signed := ⟨signer, list', require_ok.mp hsigner, hsigned⟩
    checked := forM_ok.mp hchecked }

theorem Parts.Checked.check_eq (h : p.Checked C bundle anchor existing nowMs allowExpired) :
    check C bundle anchor existing nowMs allowExpired = .ok p := by
  obtain ⟨signer, list, hsigner, hsigned⟩ := h.signed
  have hpin : existing.toList.forM (checkPin bundle p.list p.root) = .ok () :=
    forM_ok.mpr fun pin hmem => h.pinned pin (Option.mem_toList.mp hmem)
  have hkept : existing.toList.forM (checkDevices p.devices p.bodies p.prior p.list) = .ok () :=
    forM_ok.mpr fun pin hmem => h.kept pin (Option.mem_toList.mp hmem)
  rw [check, ok_bind (reject_ok.mpr h.complete), ok_bind h.listBody, ok_bind h.listSignature,
    ok_bind h.list, ok_bind (reject_ok.mpr (not_not.mpr h.user)), ok_bind h.root,
    ok_bind h.anchored, ok_bind hpin, ok_bind (reject_ok.mpr (not_not.mpr h.current)),
    ok_bind h.devices, ok_bind (reject_ok.mpr (not_not.mpr h.entries)),
    ok_bind (reject_ok.mpr h.chain), ok_bind h.bodies, ok_bind h.prior,
    ok_bind (require_ok.mpr hsigner), ok_bind hkept, ok_bind hsigned,
    ok_bind (forM_ok.mpr h.checked)]
  rfl

/-! ### The certificates that were read -/

/-- One more certificate of the person, of a device that was not read yet. -/
def Adds (userId : String) (bodies : Bodies) (envelope : CertificateEnvelope) (bodies' : Bodies) :
    Prop :=
  ∃ b, readCertificate envelope = .ok b ∧ b.certificate.userId = userId ∧
    b.certificate.deviceId ∉ bodies ∧ bodies' = bodies.insert b.certificate.deviceId b

variable {e : CertificateEnvelope}

theorem readCertificate_ok {b : Body} (h : readCertificate e = .ok b) :
    b.envelope = e ∧ decode e.certificate MAX_DEVICE_CERTIFICATE_BODY_LEN = .ok b.body ∧
      DeviceCertificate.parseBody b.body = .ok b.certificate := by
  obtain ⟨body, hbody, h⟩ := bind_ok h
  obtain ⟨certificate, hcertificate, h⟩ := bind_ok h
  obtain rfl := Except.ok.inj h
  exact ⟨rfl, hbody, hcertificate⟩

variable {userId : String} {bodies bodies' : Bodies}

theorem readDevice_ok (h : readDevice userId nowMs bodies e = .ok bodies') : Adds userId bodies e bodies' := by
  obtain ⟨b, hb, h⟩ := bind_ok h
  obtain ⟨⟨⟩, hown, h⟩ := bind_ok h
  obtain ⟨⟨⟩, -, h⟩ := bind_ok h
  obtain rfl := Except.ok.inj h
  rw [reject_ok, not_or, not_not] at hown
  exact ⟨b, hb, hown.1, hown.2, rfl⟩

theorem readAncestor_ok : readAncestor userId bodies e = .ok bodies' ↔ Adds userId bodies e bodies' := by
  refine ⟨fun h => ?_, ?_⟩
  · obtain ⟨b, hb, h⟩ := bind_ok h
    obtain ⟨⟨⟩, hown, h⟩ := bind_ok h
    obtain rfl := Except.ok.inj h
    rw [reject_ok, not_or, not_not] at hown
    exact ⟨b, hb, hown.1, hown.2, rfl⟩
  · rintro ⟨b, hb, huser, hnew, rfl⟩
    rw [readAncestor, ok_bind hb, ok_bind (reject_ok.mpr (by rintro (h | h) <;> contradiction))]
    rfl

/-- Every certificate stands under its own device and came from one of the envelopes. -/
def ReadFrom (envelopes : List CertificateEnvelope) (bodies : Bodies) : Prop :=
  ∀ id b, bodies[id]? = some b →
    b.certificate.deviceId = id ∧ b.envelope ∈ envelopes ∧ readCertificate b.envelope = .ok b

theorem getElem?_insert {ν : Type} (m : Map ν) (k a : String) (v : ν) :
    (m.insert k v)[a]? = if k = a then some v else m[a]? := by
  rw [Std.TreeMap.getElem?_insert]
  simp

theorem mem_iff_getElem? {ν : Type} {m : Map ν} {k : String} : k ∈ m ↔ ∃ v, m[k]? = some v := by
  rw [Std.TreeMap.mem_iff_isSome_getElem?, Option.isSome_iff_exists]

theorem Adds.readFrom {envelopes : List CertificateEnvelope} (h : Adds userId bodies e bodies')
    (hread : ReadFrom envelopes bodies) : ReadFrom (envelopes ++ [e]) bodies' := by
  obtain ⟨b, hb, -, -, rfl⟩ := h
  obtain ⟨henvelope, -, -⟩ := readCertificate_ok hb
  intro id c hc
  rw [getElem?_insert] at hc
  by_cases hid : b.certificate.deviceId = id
  · rw [if_pos hid] at hc
    obtain rfl := Option.some.inj hc
    exact ⟨hid, by simp [henvelope], henvelope ▸ hb⟩
  · rw [if_neg hid] at hc
    obtain ⟨hdevice, hmem, hc⟩ := hread id c hc
    exact ⟨hdevice, List.mem_append_left _ hmem, hc⟩

theorem Adds.grows (h : Adds userId bodies e bodies') {id : String} {b : Body} (hb : bodies[id]? = some b) :
    bodies'[id]? = some b := by
  obtain ⟨c, -, -, hnew, rfl⟩ := h
  rw [getElem?_insert, if_neg]
  · exact hb
  · rintro rfl
    exact hnew (mem_iff_getElem?.mpr ⟨b, hb⟩)

namespace Parts.Checked

variable (h : p.Checked C bundle anchor existing nowMs allowExpired)
include h

theorem readFrom_devices : ReadFrom bundle.devices p.devices :=
  foldlM_ok (I := ReadFrom) (d := []) (fun hread hstep => (readDevice_ok hstep).readFrom hread)
    (fun id b hb => by simp at hb) h.devices

theorem readFrom : ReadFrom bundle.envelopes p.bodies :=
  foldlM_ok (I := ReadFrom) (fun hread hstep => (readAncestor_ok.mp hstep).readFrom hread)
    h.readFrom_devices h.bodies

/-- The active devices stay among all the certificates. -/
theorem grows {id : String} {b : Body} (hb : p.devices[id]? = some b) : p.bodies[id]? = some b :=
  foldlM_ok (I := fun _ bodies => bodies[id]? = some b) (d := [])
    (fun hb hstep => (readAncestor_ok.mp hstep).grows hb) hb h.bodies

theorem mem_devices {id : String} : id ∈ p.devices ↔ id ∈ p.list.deviceIds := by
  have := congrArg (id ∈ ·) h.entries
  simpa using this.symm

end Parts.Checked

theorem Pin.same_iff {a b : Pin} (h : a.same b) :
    a.identityIncarnationId = b.identityIncarnationId ∧ a.generation = b.generation ∧
      a.listBody = b.listBody ∧ a.listSignature = b.listSignature ∧ a.revoked = b.revoked ∧
      a.root = b.root := by
  simp only [Pin.same, Bool.and_eq_true, beq_iff_eq] at h
  obtain ⟨⟨⟨⟨⟨⟨hincarnation, hgeneration⟩, hbody⟩, hsignature⟩, -⟩, hrevoked⟩, hroot⟩ := h
  exact ⟨hincarnation, hgeneration, hbody, hsignature, hrevoked, hroot⟩

end Kodosi.Identity
