import Kodosi.Rooms.OwnRoom

/-! The times of a room's states. A client accepts a state whatever the time of the one before it, so time runs
    forward only where the authors let it; then no list and no certificate signs once it has expired. -/

namespace Kodosi.Rooms
open Kodosi.Lib Kodosi.Identity

variable {C : Crypto}

/-! ### What was current at a time -/

section

variable {bundle : IdentityBundle} {anchor : Anchor} {existing : Option Pin} {nowMs : Nat} {p : Parts}

/-- The devices of a bundle that passed have certificates of the time. -/
theorem valid_devices (h : p.Checked C bundle anchor existing nowMs false) {id : String} {b : Body}
    (hb : p.devices[id]? = some b) : b.certificate.isValidAt nowMs := by
  refine foldlM_ok (I := fun _ bodies => ∀ id b, bodies[id]? = some b → b.certificate.isValidAt nowMs) (d := [])
    (fun hall hstep => ?_) (fun id b hb => by simp at hb) h.devices id b hb
  obtain ⟨read, -, hstep⟩ := bind_ok hstep
  obtain ⟨_, -, hstep⟩ := bind_ok hstep
  obtain ⟨_, hvalid, hstep⟩ := bind_ok hstep
  obtain rfl := Except.ok.inj hstep
  intro id b hb
  rw [getElem?_insert] at hb
  by_cases hid : read.certificate.deviceId = id
  · rw [if_pos hid] at hb
    obtain rfl := Option.some.inj hb
    by_contra hexpired
    exact reject_ok.mp hvalid (.inr hexpired)
  · rw [if_neg hid] at hb
    exact hall id b hb

theorem valid_identity (h : p.Checked C bundle anchor existing nowMs false) {id : String}
    {device : DeviceCertificate} (hdevice : p.identity.devices[id]? = some device) : device.isValidAt nowMs := by
  rw [Parts.identity, Std.TreeMap.getElem?_filterMap] at hdevice
  obtain ⟨b, hb, hlisted⟩ := Option.pbind_eq_some_iff.mp hdevice
  split at hlisted
  · rename_i hmem
    obtain rfl := Option.some.inj hlisted
    rw [Std.TreeMap.getKey_eq] at hmem
    obtain ⟨b', hb'⟩ := mem_iff_getElem?.mp (h.mem_devices.mpr hmem)
    obtain rfl := Option.some.inj (hb.symm.trans (h.grows hb'))
    exact valid_devices h hb'
  · cases hlisted

/-- What a bundle says of a person at a time was checked at that time. -/
theorem historical_ok {root : Root} {atMs : Nat} {identity : VerifiedIdentity}
    (h : Pins.historical C bundle root atMs none = .ok identity) :
    ∃ (p : Parts) (existing : Option Pin), p.Checked C bundle (.root root) existing atMs false ∧ p.identity = identity := by
  obtain ⟨history, _, h⟩ := bind_ok h
  unfold Pins.verifyCurrent at h
  dsimp only at h
  split at h
  · cases h
  · rename_i parts hcheck
    refine ⟨parts, _, check_ok hcheck, ?_⟩
    split at h
    · exact Except.ok.inj h
    · exact Except.ok.inj h

end

/-! ### Who signs a state -/

/-- The identity by whose device a state is signed: what the bundle of its author, in it or else before it, says
    of the author at the time of the state. -/
structure Signer (C : Crypto) (v : VerifiedState) (previous : Option VerifiedState) (identity : VerifiedIdentity)
    (device : DeviceCertificate) : Prop where
  known : ∃ bundle root, v.state.members[v.state.authorId]?.or (previous.bind (·.bundle v.state.authorId)) = some bundle ∧
    ((previous.bind (·.bundle v.state.authorId)).getD bundle).root C = .ok root ∧
    Pins.historical C bundle root v.state.createdAtMs none = .ok identity
  holds : identity.devices[v.state.deviceId]? = some device
  signed : ∃ bytes signature, v.hash = digest C bytes ∧
    verifySignature C STATE_DOMAIN bytes signature device.sigPublicKey = .ok ()

section

variable {parse : Bytes → Except Error State} {nowMs room : Nat} {signed : SignedState} {owner : String}
  {ownerRoot : Root} {previous : Option VerifiedState} {v : VerifiedState}

theorem signer_of_verified (h : verifyState C parse nowMs signed room owner ownerRoot previous = .ok v) :
    ∃ identity device, Signer C v previous identity device := by
  obtain ⟨bytes, hverifies⟩ := verifyState_ok h
  obtain ⟨device, hdevice, hsignature⟩ := hverifies.signature
  obtain ⟨bundle, hbundle, hdevice⟩ := bind_ok hdevice
  obtain ⟨root, hroot, hdevice⟩ := bind_ok hdevice
  obtain ⟨identity, hidentity, hdevice⟩ := bind_ok hdevice
  exact ⟨identity, device, ⟨bundle, root, require_ok.mp hbundle, hroot, hidentity⟩, require_ok.mp hdevice,
    bytes, signed.signature, hverifies.hash, hsignature⟩

/-- A list and a certificate that have not expired at a time. -/
def InForce (identity : VerifiedIdentity) (device : DeviceCertificate) (atMs : Nat) : Prop :=
  (∀ t ∈ identity.list.expiresAtMs, atMs < t) ∧ ∀ t ∈ device.expiresAtMs, atMs < t

variable {identity : VerifiedIdentity} {device : DeviceCertificate}

theorem InForce.earlier {atMs earlierMs : Nat} (h : InForce identity device atMs) (hle : earlierMs ≤ atMs) :
    InForce identity device earlierMs :=
  ⟨fun t ht => hle.trans_lt (h.1 t ht), fun t ht => hle.trans_lt (h.2 t ht)⟩

/-- A state is signed by a list and a certificate that are in force when it is made. -/
theorem Signer.inForce (h : Signer C v previous identity device) : InForce identity device v.state.createdAtMs := by
  obtain ⟨bundle, root, -, -, hidentity⟩ := h.known
  obtain ⟨p, existing, hchecked, rfl⟩ := historical_ok hidentity
  refine ⟨fun t ht => ?_, fun t ht => ?_⟩
  · have hlist : p.list.expiresAtMs = some t := ht
    have hcurrent := hchecked.current
    rw [isCurrent, hlist] at hcurrent
    simp only [Bool.false_or, Option.any_some, Bool.and_eq_true, Bool.not_eq_true', decide_eq_false_iff_not,
      Nat.not_le] at hcurrent
    exact hcurrent.2
  · have hvalid := valid_identity hchecked h.holds
    rw [DeviceCertificate.isValidAt, Option.mem_def.mp ht] at hvalid
    exact of_decide_eq_true hvalid

/-! ### Histories -/

/-- A client that knows a history accepts one more state, at some time of its own. -/
def Accepts (C : Crypto) (parse : Bytes → Except Error State) (room : Nat) (owner : String) (ownerRoot : Root)
    (history : List VerifiedState) (offered : Nat × SignedState) (history' : List VerifiedState) : Prop :=
  ∃ v, verifyState C parse offered.1 offered.2 room owner ownerRoot history.getLast? = .ok v ∧ history' = history ++ [v]

/-- Time runs forward in a history: no state is older than one before it, and the list and the certificate that
    sign a state had not expired when any state before it was made. -/
structure RunsForward (C : Crypto) (history : List VerifiedState) : Prop where
  times : history.Pairwise fun a b => a.state.createdAtMs ≤ b.state.createdAtMs
  signers : ∀ before v after, history = before ++ v :: after → ∃ identity device,
    Signer C v before.getLast? identity device ∧ ∀ a ∈ before, InForce identity device a.state.createdAtMs

/-- The later state has the time that `next_room_state` gives it: of some clock, or of the state before if that
    is later. -/
def Dated (a b : VerifiedState) : Prop := ∃ clockMs, b.state.createdAtMs = max clockMs a.state.createdAtMs

theorem dated_iff {a b : VerifiedState} : Dated a b ↔ a.state.createdAtMs ≤ b.state.createdAtMs := by
  constructor
  · rintro ⟨clockMs, hdated⟩
    exact hdated ▸ le_max_right _ _
  · intro hle
    exact ⟨b.state.createdAtMs, (max_eq_left hle).symm⟩

variable {history : List VerifiedState} {offers : List (Nat × SignedState)}

/-- Each state of a history has a signer. -/
theorem history_signers (hrun : Run (Accepts C parse room owner ownerRoot) [] offers history) :
    ∀ before v after, history = before ++ v :: after → ∃ identity device, Signer C v before.getLast? identity device := by
  induction hrun with
  | nil =>
    intro before v after h
    exact absurd h.symm (by simp)
  | snoc _ hnext ih =>
    rename_i known history _ _ _
    obtain ⟨last, hverified, rfl⟩ := hnext
    intro before v after h
    rcases List.eq_nil_or_concat after with rfl | ⟨after', final, rfl⟩
    · obtain ⟨rfl, hlast⟩ := List.append_inj' h rfl
      obtain ⟨rfl, -⟩ := List.cons_eq_cons.mp hlast
      exact signer_of_verified hverified
    · have hshorter : known ++ [last] = (before ++ v :: after') ++ [final] := by
        rw [h]
        simp
      exact ih before v after' (List.append_inj' hshorter rfl).1

/-- Two states that are accepted one after the other. -/
theorem accepts_two {nowMs' : Nat} {signed' : SignedState} {w : VerifiedState}
    (hfirst : verifyState C parse nowMs signed room owner ownerRoot none = .ok v)
    (hsecond : verifyState C parse nowMs' signed' room owner ownerRoot (some v) = .ok w) :
    Run (Accepts C parse room owner ownerRoot) [] [(nowMs, signed), (nowMs', signed')] [v, w] := by
  have hone : Run (Accepts C parse room owner ownerRoot) [] [(nowMs, signed)] [v] :=
    Run.single_iff.mpr ⟨v, hfirst, rfl⟩
  exact .snoc hone ⟨w, hsecond, rfl⟩

end

namespace Plain

open Identity.Plain

/-- A second state that says it was made a second before the first one. -/
def earlyState : State := { ownState 2 (digest crypto bytes₁) with createdAtMs := 2000 }
def earlyBytes : Bytes := Wire.Plain.toVec earlyState.toJson

theorem makes_early : owner.Makes 3000 earlyState where
  owner := rfl
  author := rfl
  device := rfl
  members := rfl
  some := List.cons_ne_nil _ _
  few := show 1 ≤ ROOM_RECIPIENTS_MOST by decide
  recipients r hr := by
    obtain rfl := List.mem_singleton.mp hr
    exact ⟨rfl, rfl⟩
  made := show 2000 ≤ soon 3000 by decide
  known := historical_alone (key_works 1) first_signed (by decide) ⟨by decide, rfl, by decide⟩

theorem length_earlyBytes : earlyBytes.length ≤ STATE_BODY_MOST := by
  have hbytes : earlyBytes.length ≤ 240000 + 2 * (digest crypto bytes₁).utf8ByteSize :=
    length_ownState_at (digest crypto bytes₁) (.inr rfl) (by decide)
  have hplain : crypto.sha256 bytes₁ = bytes₁ := rfl
  rw [utf8ByteSize_digest, hplain] at hbytes
  have hlength := length_bytes₁
  have hmost : STATE_BODY_MOST = 3145728 := rfl
  omega

/-- A reader of the first state and the early one. -/
def parseEarly (bytes : Bytes) : Except Error State := if bytes = bytes₁ then .ok state₁ else .ok earlyState

theorem bytes_ne_early : earlyBytes ≠ bytes₁ := by
  intro h
  have hjson : earlyState.toJson = state₁.toJson :=
    (Wire.Plain.toVec_inj (r := []) (s := []) (congrArg (· ++ []) h)).1
  have htyped : ∀ state, state.members = owner.members → state.roomId = 7 → (Signed.roomState state).Typed := by
    intro state hmembers hroom
    refine ⟨show state.roomId < 2 ^ 128 by omega, fun entry hentry => ?_⟩
    rw [hmembers] at hentry
    obtain rfl := List.mem_singleton.mp (Owner.toList_members owner ▸ hentry)
    exact show 1 < 2 ^ 128 by decide
  have hsame := State.same_of_toJson (htyped _ rfl rfl) (htyped _ rfl rfl) hjson
  exact absurd hsame.createdAtMs (show (2000 : Nat) ≠ 3000 by decide)

theorem verifies_early : verifyState crypto parseEarly 3000 (owner.signs earlyState earlyBytes) 7 userId owner.root
    (some (owner.verified state₁ bytes₁)) = .ok (owner.verified earlyState earlyBytes) := by
  refine Owner.verifyState_own makes_early (if_neg bytes_ne_early) length_earlyBytes ?_ rfl nofun ?_
  · rintro p ⟨⟩
    exact ⟨state₁, bytes₁, rfl, makes 1 ""⟩
  · rintro p ⟨⟩
    exact behind_ownState 2 1 (digest crypto bytes₁) ""

end Plain

end Kodosi.Rooms
