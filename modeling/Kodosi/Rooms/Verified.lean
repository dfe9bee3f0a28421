import Kodosi.Identity.FirstDevice
import Kodosi.Rooms.State

/-! What is known of a state of a room once a client has verified it. -/

namespace Kodosi.Rooms
open Kodosi.Lib Kodosi.Identity

variable {C : Crypto} {parse : Bytes → Except Error State} {nowMs room : Nat} {signed : SignedState} {owner : String}
  {ownerRoot : Root} {previous : Option VerifiedState} {verified : VerifiedState}

/-- What a state must keep of the history before it. -/
def checkHistory (state : State) (owner : String) : Option VerifiedState → Except Error Unit
  | none => checkFirst state owner
  | some previous => checkUpdate state owner previous

structure Verifies (C : Crypto) (parse : Bytes → Except Error State) (nowMs : Nat) (signed : SignedState) (room : Nat)
    (owner : String) (ownerRoot : Root) (previous : Option VerifiedState) (bytes : Bytes)
    (verified : VerifiedState) : Prop where
  body : decode signed.body STATE_BODY_MOST = .ok bytes
  parsed : parse bytes = .ok verified.state
  hash : verified.hash = digest C bytes
  roomId : verified.state.roomId = room
  ownerUserId : verified.state.ownerUserId = owner
  version : verified.state.version = signed.version
  behind : verified.state.version = previous.elim 1 fun p => p.state.version + 1
  ownerMember : owner ∈ verified.state.members
  made : verified.state.createdAtMs ≤ soon nowMs
  identities : memberIdentities C verified.state owner ownerRoot previous = .ok verified.identities
  history : checkHistory verified.state owner previous = .ok ()
  signature : ∃ device, signingDevice C verified.state previous = .ok device ∧
    verifySignature C STATE_DOMAIN bytes signed.signature device.sigPublicKey = .ok ()
  recipients : ∀ r ∈ verified.state.recipients, checkRecipient verified.identities r = .ok ()

theorem verifyState_ok (h : verifyState C parse nowMs signed room owner ownerRoot previous = .ok verified) :
    ∃ bytes, Verifies C parse nowMs signed room owner ownerRoot previous bytes verified := by
  obtain ⟨bytes, hbody, h1⟩ := bind_ok h
  obtain ⟨state, hparsed, h2⟩ := bind_ok h1
  obtain ⟨_, hnamed, h3⟩ := bind_ok h2
  obtain ⟨identities, hidentities, h4⟩ := bind_ok h3
  -- The two ways to check the history meet again behind the check.
  obtain ⟨_, hhistory, h5⟩ : ∃ u, checkHistory state owner previous = .ok u ∧ (do
      let device ← signingDevice C state previous
      verifySignature C STATE_DOMAIN bytes signed.signature device.sigPublicKey
      state.recipients.forM (checkRecipient identities)
      return ⟨state, digest C bytes, identities⟩ : Except Error VerifiedState) = .ok verified := by
    cases previous with
    | none => exact bind_ok h4
    | some p => exact bind_ok h4
  obtain ⟨device, hdevice, h6⟩ := bind_ok h5
  obtain ⟨_, hsignature, h7⟩ := bind_ok h6
  obtain ⟨_, hrecipients, h8⟩ := bind_ok h7
  obtain rfl := Except.ok.inj h8
  have hfacts := reject_ok.mp hnamed
  push Not at hfacts
  obtain ⟨hroom, howner, hversion, hbehind, -, -, hmember, hmade, -, -⟩ := hfacts
  exact ⟨bytes, hbody, hparsed, rfl, hroom, howner, hversion, hbehind, hmember, hmade, hidentities, hhistory,
    ⟨device, hdevice, hsignature⟩, forM_ok.mp hrecipients⟩

variable {state : State}

variable {identities : Map VerifiedIdentity} {device : DeviceCertificate}

/-- A state is accepted when each check accepts it. -/
theorem verifyState_of {bytes : Bytes} (hbody : decode signed.body STATE_BODY_MOST = .ok bytes)
    (hparse : parse bytes = .ok state)
    (hnamed : ¬(state.roomId ≠ room ∨ state.ownerUserId ≠ owner ∨ state.version ≠ signed.version ∨
      state.version ≠ (previous.elim 1 fun p => p.state.version + 1) ∨
      state.members.isEmpty ∨ ROOM_PEOPLE_MOST < state.members.size ∨ owner ∉ state.members ∨
      soon nowMs < state.createdAtMs ∨ state.recipients = [] ∨ ROOM_RECIPIENTS_MOST < state.recipients.length))
    (hidentities : memberIdentities C state owner ownerRoot previous = .ok identities)
    (hhistory : checkHistory state owner previous = .ok ()) (hdevice : signingDevice C state previous = .ok device)
    (hsignature : verifySignature C STATE_DOMAIN bytes signed.signature device.sigPublicKey = .ok ())
    (hrecipients : ∀ r ∈ state.recipients, checkRecipient identities r = .ok ()) :
    verifyState C parse nowMs signed room owner ownerRoot previous = .ok ⟨state, digest C bytes, identities⟩ := by
  rw [verifyState, ok_bind hbody, ok_bind hparse]
  refine (ok_bind (reject_ok.mpr hnamed)).trans ((ok_bind hidentities).trans ?_)
  cases previous with
  | none => exact (ok_bind hhistory).trans ((ok_bind hdevice).trans ((ok_bind hsignature).trans
      ((ok_bind (forM_ok.mpr hrecipients)).trans rfl)))
  | some p => exact (ok_bind hhistory).trans ((ok_bind hdevice).trans ((ok_bind hsignature).trans
      ((ok_bind (forM_ok.mpr hrecipients)).trans rfl)))

theorem decode_encoded {bytes out : Bytes} {limit : Nat} (h : decode (Base64.encode bytes) limit = .ok out) :
    out = bytes := by
  obtain ⟨_, _, h1⟩ := bind_ok h
  obtain ⟨plain, hplain, h2⟩ := bind_ok h1
  obtain ⟨_, _, h3⟩ := bind_ok h2
  rw [require_ok, Base64.decode_encode] at hplain
  rw [← Except.ok.inj h3, ← Option.some.inj hplain]

/-- Whoever has an identity in a verified state is a member of it. -/
theorem memberIdentities_mem (h : memberIdentities C state owner ownerRoot previous = .ok identities) :
    ∀ user ∈ identities, user ∈ state.members := by
  have hall := foldlM_ok (I := fun d (m : Map VerifiedIdentity) => ∀ user ∈ m, user ∈ d.map Prod.fst)
    (fun {d entry m m'} hs hstep => by
      obtain ⟨identity, _, h1⟩ := bind_ok hstep
      obtain rfl := Except.ok.inj h1
      intro user huser
      rw [List.map_append, List.mem_append]
      rw [Std.TreeMap.mem_insert, compare_eq_iff_eq] at huser
      rcases huser with rfl | huser
      · exact .inr (List.mem_singleton_self _)
      · exact .inl (hs user huser)) (d := []) (fun user huser => absurd huser Std.TreeMap.not_mem_emptyc) h
  intro user huser
  have hmem := hall user huser
  rw [List.nil_append, Std.TreeMap.map_fst_toList_eq_keys] at hmem
  exact Std.TreeMap.mem_keys.mp hmem

variable {bundle : IdentityBundle} {identity : VerifiedIdentity}

variable {user : String}

/-- A member whose bundle the state before has keeps the identity. -/
theorem memberIdentity_kept {p : VerifiedState} (huser : user = bundle.userId)
    (hkeeps : p.keeps user bundle = some identity) :
    memberIdentity C state owner ownerRoot (some p) user bundle = .ok identity := by
  rw [memberIdentity, ok_bind (reject_ok.mpr (not_not.mpr huser))]
  simp only [Option.bind_some, hkeeps]
  rfl

/-- A member whom the state before does not know has the identity that the bundle says. -/
theorem memberIdentity_new {root : Root} (huser : user = bundle.userId) (hother : user ≠ owner)
    (hnew : previous.bind (·.bundle user) = none) (hroot : bundle.root C = .ok root)
    (hknown : Pins.historical C bundle root state.createdAtMs none = .ok identity) :
    memberIdentity C state owner ownerRoot previous user bundle = .ok identity := by
  have hkeeps : previous.bind (·.keeps user bundle) = none := by
    cases previous with
    | none => rfl
    | some p =>
      have hnone : p.bundle user = none := hnew
      rw [Option.bind_some, VerifiedState.keeps, hnone, if_neg (by simp)]
  rw [memberIdentity, ok_bind (reject_ok.mpr (not_not.mpr huser)), hkeeps]
  simp only [hnew, if_neg hother, hroot]
  exact (ok_bind rfl).trans ((ok_bind (reject_ok.mpr (by simp [replaces]))).trans hknown)

theorem memberIdentities_two {user' : String} {bundle' : IdentityBundle} {identity' : VerifiedIdentity}
    (hmembers : state.members.toList = [(user, bundle), (user', bundle')])
    (huser : memberIdentity C state owner ownerRoot previous user bundle = .ok identity)
    (huser' : memberIdentity C state owner ownerRoot previous user' bundle' = .ok identity') :
    memberIdentities C state owner ownerRoot previous =
      .ok (((∅ : Map VerifiedIdentity).insert user identity).insert user' identity') := by
  rw [memberIdentities, hmembers]
  simp only [List.foldlM_cons, List.foldlM_nil, huser, huser']
  rfl

/-- The signing device of a member whose bundle has not changed. -/
theorem signingDevice_of {root : Root} (hmember : state.members[state.authorId]? = some bundle)
    (hprior : ∀ known ∈ previous.bind (·.bundle state.authorId), known = bundle) (hroot : bundle.root C = .ok root)
    (hknown : Pins.historical C bundle root state.createdAtMs none = .ok identity)
    (hdevice : identity.devices[state.deviceId]? = some device) : signingDevice C state previous = .ok device := by
  have hbundle : (previous.bind (·.bundle state.authorId)).getD bundle = bundle := by
    cases hfound : previous.bind (·.bundle state.authorId) with
    | none => rfl
    | some known => exact hprior known hfound
  rw [signingDevice, hmember, Option.some_or, ok_bind (require_ok.mpr rfl), hbundle, ok_bind hroot, ok_bind hknown]
  exact require_ok.mpr hdevice

end Kodosi.Rooms
