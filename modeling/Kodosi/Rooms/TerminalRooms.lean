import Kodosi.Rooms.OwnRoom

/-! The room that a terminal is in, as the computer that runs it holds it. The server hands out the owner's
    signed choices, and may replay them, reorder them or forge them. -/

namespace Kodosi.Rooms
open Kodosi.Lib Kodosi.Identity

structure RoomChoice where
  deviceId : String
  signature : String

/-- What an answer of the server says of a terminal. -/
structure SessionDto where
  id : Wire.Uuid
  incarnationId : Wire.Uuid
  ownerUserId : String
  hostDeviceId : String
  missionId : Option Wire.Uuid
  roomSequence : UInt64
  roomChoice : Option RoomChoice

/-- What the client's two ways to look its own person up give: the identity that it keeps, and one that it fetches. -/
structure Looks where
  known : Option VerifiedIdentity
  fetched : Option VerifiedIdentity

/-- The client of a computer: whose it is, and its cryptography. -/
structure BackendClient where
  crypto : Crypto
  isRecoveryDevice : String → Bool
  userId : String
  deviceId : String

/-! ### A choice -/

/-- What a device of the owner signs for a choice. -/
def SessionDto.preimage (dto : SessionDto) (choice : RoomChoice) : Except Error Bytes :=
  terminalRoomPreimage dto.ownerUserId dto.id dto.incarnationId (dto.missionId.map Fin.val) dto.roomSequence.toNat
    choice.deviceId

def signatureHolds (C : Crypto) (dto : SessionDto) (publicKey : Bytes) : Bool :=
  match dto.roomChoice with
  | none => false
  | some choice =>
    match dto.preimage choice with
    | .error _ => false
    | .ok preimage =>
      match decode choice.signature 3309 with
      | .error _ => false
      | .ok signature => C.verifySig publicKey preimage signature

namespace BackendClient

def signedByOwner (b : BackendClient) (looks : Looks) (dto : SessionDto) : Bool :=
  match dto.roomChoice with
  | none => false
  | some choice =>
    if dto.ownerUserId ≠ b.userId ∨ b.isRecoveryDevice choice.deviceId then false
    else
      let key (identity : VerifiedIdentity) : Option Bytes :=
        identity.devices[choice.deviceId]?.map fun certificate => certificate.sigPublicKey
      ((looks.known.bind key).or (looks.fetched.bind key)).any (signatureHolds b.crypto dto)

/-- Whether a choice is newer than the one that is held, and the owner's. -/
def signed (b : BackendClient) (sequence : UInt64) (looks : Looks) (dto : SessionDto) : Bool :=
  decide (sequence < dto.roomSequence) && b.signedByOwner looks dto

end BackendClient

def roomChange (room : Option Wire.Uuid) (sequence : UInt64) (dto : SessionDto) (signed : Bool) :
    Option (Option Wire.Uuid × UInt64) :=
  let newest := if signed then dto.roomSequence else sequence
  if dto.missionId = room then
    if signed then some (room, newest) else none
  else if dto.missionId = none ∨ signed then some (dto.missionId, newest)
  else none

/-! ### A terminal that is published -/

structure Publication where
  sessionId : Wire.Uuid
  incarnationId : Wire.Uuid
  missionId : Option Wire.Uuid
  roomSequence : UInt64

/-- An answer of the server that is about a published terminal: an entry of its list of terminals, which may come
    while the terminal's sharing is being changed; the terminal that was asked for; or that it has none. -/
inductive Answer where
  | listed (dto : SessionDto) (looks : Looks) (changing : Bool)
  | asked (dto : SessionDto) (looks : Looks)
  | missing (cancelled : Bool)

namespace Publication

variable (b : BackendClient) (p : Publication)

/-- What an answer says of the terminal, when it passes the checks of the place where it comes in. -/
def current : Answer → Option (SessionDto × Looks)
  | .listed dto looks changing =>
    if dto.id ≠ p.sessionId ∨ changing ∨ p.incarnationId ≠ dto.incarnationId ∨ dto.hostDeviceId ≠ b.deviceId then none
    else some (dto, looks)
  | .asked dto looks =>
    if dto.incarnationId ≠ p.incarnationId ∨ dto.hostDeviceId ≠ b.deviceId ∨ dto.ownerUserId ≠ b.userId then none
    else some (dto, looks)
  | .missing _ => none

def take (dto : SessionDto) (looks : Looks) : Publication :=
  match roomChange p.missionId p.roomSequence dto (b.signed p.roomSequence looks dto) with
  | none => p
  | some (room, sequence) => { p with missionId := room, roomSequence := sequence }

def clearSharing : Publication := { p with missionId := none }

def step (answer : Answer) : Publication :=
  match answer with
  | .missing cancelled => if cancelled then p else p.clearSharing
  | _ =>
    match p.current b answer with
    | none => p
    | some (dto, looks) => p.take b dto looks

end Publication

/-! ### What was accepted -/

/-- A signed choice that was accepted, and whether it came in the list of terminals. -/
structure Accepted where
  dto : SessionDto
  listed : Bool

def Answer.isListed : Answer → Bool
  | .listed .. => true
  | _ => false

/-- The choice that an answer brings, when it is a newer one of the owner. -/
def Publication.accepts (b : BackendClient) (p : Publication) (answer : Answer) : Option Accepted :=
  match p.current b answer with
  | none => none
  | some (dto, looks) => if b.signed p.roomSequence looks dto then some ⟨dto, answer.isListed⟩ else none

/-- A published terminal and the choices that were accepted for it, the newest one first. -/
structure Hosted where
  publication : Publication
  accepted : List Accepted

def Hosted.start (p : Publication) : Hosted := ⟨p, []⟩

def Hosted.step (b : BackendClient) (h : Hosted) (answer : Answer) : Hosted :=
  ⟨h.publication.step b answer, (h.publication.accepts b answer).toList ++ h.accepted⟩

/-- A device of a person: one of a bundle of the person that passed the check. -/
def OwnDevice (C : Crypto) (userId deviceId : String) (certificate : DeviceCertificate) : Prop :=
  ∃ (p : Parts) (bundle : IdentityBundle) (anchor : Anchor) (existing : Option Pin) (nowMs : Nat) (expired : Bool),
    p.Checked C bundle anchor existing nowMs expired ∧ bundle.userId = userId ∧
      p.identity.devices[deviceId]? = some certificate

/-- The identities that were looked up are what the client verified of its person. -/
def BackendClient.Verified (b : BackendClient) (looks : Looks) : Prop :=
  ∀ identity, looks.known = some identity ∨ looks.fetched = some identity →
    ∀ (id : String) (certificate : DeviceCertificate), identity.devices[id]? = some certificate →
      OwnDevice b.crypto b.userId id certificate

def Answer.looks : Answer → Looks
  | .listed _ looks _ => looks
  | .asked _ looks => looks
  | .missing _ => ⟨none, none⟩

/-- The server answers anything at all; the identities come from the client's own check. -/
def BackendClient.Next (b : BackendClient) (h : Hosted) (answer : Answer) (h' : Hosted) : Prop :=
  b.Verified answer.looks ∧ h' = h.step b answer

/-- A choice of the owner for a terminal: a device of the owner that is no recovery key signed bytes that say this
    owner, the terminal that the answer names, its incarnation, the room and the sequence, and nothing else. -/
structure Chosen (b : BackendClient) (p : Publication) (a : Accepted) : Prop where
  owner : a.dto.ownerUserId = b.userId
  incarnation : a.dto.incarnationId = p.incarnationId
  host : a.dto.hostDeviceId = b.deviceId
  terminal : a.listed → a.dto.id = p.sessionId
  signed : ∃ choice certificate preimage signature, a.dto.roomChoice = some choice ∧
    ¬b.isRecoveryDevice choice.deviceId ∧ OwnDevice b.crypto b.userId choice.deviceId certificate ∧
    a.dto.preimage choice = .ok preimage ∧ decode choice.signature 3309 = .ok signature ∧
    b.crypto.verifySig certificate.sigPublicKey preimage signature ∧
    ∀ (J : JsonText) (said : Signed), said.Typed → said.payload J = .ok preimage →
      (Signed.terminalRoom a.dto.ownerUserId a.dto.id a.dto.incarnationId (a.dto.missionId.map Fin.val)
        a.dto.roomSequence.toNat choice.deviceId).Same said

/-! ### What one answer does -/

section

variable {b : BackendClient} {p : Publication} {dto : SessionDto} {looks : Looks} {answer : Answer}

theorem signatureHolds_iff {C : Crypto} {publicKey : Bytes} :
    signatureHolds C dto publicKey ↔ ∃ choice preimage signature, dto.roomChoice = some choice ∧
      dto.preimage choice = .ok preimage ∧ decode choice.signature 3309 = .ok signature ∧
      C.verifySig publicKey preimage signature := by
  unfold signatureHolds
  constructor
  · intro h
    split at h
    · cases h
    · rename_i choice hchoice
      split at h
      · cases h
      · rename_i preimage hpreimage
        split at h
        · cases h
        · rename_i signature hsignature
          exact ⟨choice, preimage, signature, hchoice, hpreimage, hsignature, h⟩
  · rintro ⟨choice, preimage, signature, hchoice, hpreimage, hsignature, h⟩
    simp only [hchoice, hpreimage, hsignature, h]

/-- The bytes that are signed for a choice say that choice. -/
theorem preimage_says {choice : RoomChoice} {preimage : Bytes} (h : dto.preimage choice = .ok preimage) (J : JsonText)
    (said : Signed) (htyped : said.Typed) (hsaid : said.payload J = .ok preimage) :
    (Signed.terminalRoom dto.ownerUserId dto.id dto.incarnationId (dto.missionId.map Fin.val)
      dto.roomSequence.toNat choice.deviceId).Same said := by
  have hpayload : (Signed.terminalRoom dto.ownerUserId dto.id dto.incarnationId (dto.missionId.map Fin.val)
      dto.roomSequence.toNat choice.deviceId).payload J = .ok preimage := h
  refine (Signed.one_meaning J _ said preimage ?_ htyped hpayload hsaid).2
  refine ⟨dto.id.isLt, dto.incarnationId.isLt, fun id hid => ?_, dto.roomSequence.toNat_lt⟩
  obtain ⟨room, -, rfl⟩ := Option.map_eq_some_iff.mp hid
  exact room.isLt

/-- A choice that counts as the owner's was signed by a device of the owner. -/
theorem signedByOwner_ok (hverified : b.Verified looks) (h : b.signedByOwner looks dto) :
    dto.ownerUserId = b.userId ∧ ∃ choice certificate preimage signature, dto.roomChoice = some choice ∧
      ¬b.isRecoveryDevice choice.deviceId ∧ OwnDevice b.crypto b.userId choice.deviceId certificate ∧
      dto.preimage choice = .ok preimage ∧ decode choice.signature 3309 = .ok signature ∧
      b.crypto.verifySig certificate.sigPublicKey preimage signature := by
  unfold BackendClient.signedByOwner at h
  split at h
  · cases h
  · rename_i choice hchoice
    split at h
    · cases h
    · rename_i hown
      obtain ⟨howner, hrecovery⟩ := not_or.mp hown
      obtain ⟨publicKey, hkey, hholds⟩ := (Option.any_eq_true _ _).mp h
      obtain ⟨choice', preimage, signature, hchoice', hpreimage, hsignature, hfits⟩ := signatureHolds_iff.mp hholds
      obtain rfl := Option.some.inj (hchoice.symm.trans hchoice')
      obtain ⟨identity, certificate, hlooked, hdevice, rfl⟩ : ∃ identity certificate,
          (looks.known = some identity ∨ looks.fetched = some identity) ∧
            identity.devices[choice.deviceId]? = some certificate ∧ certificate.sigPublicKey = publicKey := by
        rcases Option.or_eq_some_iff.mp hkey with hknown | ⟨-, hfetched⟩
        · obtain ⟨identity, hidentity, hmap⟩ := Option.bind_eq_some_iff.mp hknown
          obtain ⟨certificate, hdevice, heq⟩ := Option.map_eq_some_iff.mp hmap
          exact ⟨identity, certificate, .inl hidentity, hdevice, heq⟩
        · obtain ⟨identity, hidentity, hmap⟩ := Option.bind_eq_some_iff.mp hfetched
          obtain ⟨certificate, hdevice, heq⟩ := Option.map_eq_some_iff.mp hmap
          exact ⟨identity, certificate, .inr hidentity, hdevice, heq⟩
      exact ⟨not_ne_iff.mp howner, choice, certificate, preimage, signature, hchoice, hrecovery,
        hverified identity hlooked _ _ hdevice, hpreimage, hsignature, hfits⟩

theorem roomChange_signed (room : Option Wire.Uuid) (sequence : UInt64) (dto : SessionDto) :
    roomChange room sequence dto true = some (dto.missionId, dto.roomSequence) := by
  unfold roomChange
  by_cases hroom : dto.missionId = room
  · rw [if_pos hroom, if_pos rfl, if_pos rfl, hroom]
  · rw [if_neg hroom, if_pos (.inr rfl), if_pos rfl]

/-- Without a signature a terminal only leaves its room. -/
theorem roomChange_unsigned {room : Option Wire.Uuid} {sequence : UInt64} {change : Option Wire.Uuid × UInt64}
    (h : roomChange room sequence dto false = some change) : change = (none, sequence) := by
  unfold roomChange at h
  by_cases hroom : dto.missionId = room
  · rw [if_pos hroom, if_neg Bool.false_ne_true] at h
    cases h
  · rw [if_neg hroom] at h
    by_cases hnone : dto.missionId = none
    · rw [if_pos (.inl hnone), if_neg Bool.false_ne_true, hnone] at h
      exact (Option.some.inj h).symm
    · rw [if_neg (by simp [hnone])] at h
      cases h

/-- What the answers say that pass the checks. -/
theorem current_ok (h : p.current b answer = some (dto, looks)) :
    looks = answer.looks ∧ dto.incarnationId = p.incarnationId ∧ dto.hostDeviceId = b.deviceId ∧
      (answer.isListed → dto.id = p.sessionId) := by
  cases answer with
  | listed dto' looks' changing =>
    simp only [Publication.current] at h
    split at h
    · cases h
    · rename_i hchecks
      obtain ⟨rfl, rfl⟩ := Prod.mk.inj (Option.some.inj h)
      simp only [not_or, ne_eq, not_not] at hchecks
      obtain ⟨hid, -, hincarnation, hhost⟩ := hchecks
      exact ⟨rfl, hincarnation.symm, hhost, fun _ => hid⟩
  | asked dto' looks' =>
    simp only [Publication.current] at h
    split at h
    · cases h
    · rename_i hchecks
      obtain ⟨rfl, rfl⟩ := Prod.mk.inj (Option.some.inj h)
      simp only [not_or, ne_eq, not_not] at hchecks
      exact ⟨rfl, hchecks.1, hchecks.2.1, nofun⟩
  | missing cancelled => cases h

theorem step_eq (h : p.current b answer = some (dto, looks)) : p.step b answer = p.take b dto looks := by
  cases answer with
  | missing cancelled => cases h
  | _ =>
    unfold Publication.step
    simp only [h]

/-- An answer that is accepted brings a newer choice of the owner, and the terminal goes where it says. -/
theorem accepts_some {a : Accepted} (hverified : b.Verified answer.looks) (h : p.accepts b answer = some a) :
    Chosen b p a ∧ p.roomSequence < a.dto.roomSequence ∧
      p.step b answer = { p with missionId := a.dto.missionId, roomSequence := a.dto.roomSequence } := by
  unfold Publication.accepts at h
  split at h
  · cases h
  · rename_i dto looks hcurrent
    split at h
    · rename_i hsigned
      obtain rfl := Option.some.inj h
      obtain ⟨rfl, hincarnation, hhost, hterminal⟩ := current_ok hcurrent
      obtain ⟨hnewer, hown⟩ := Bool.and_eq_true_iff.mp hsigned
      obtain ⟨howner, choice, certificate, preimage, signature, hchoice, hrecovery, hdevice, hpreimage, hsignature,
        hfits⟩ := signedByOwner_ok hverified hown
      refine ⟨⟨howner, hincarnation, hhost, hterminal, choice, certificate, preimage, signature, hchoice, hrecovery,
        hdevice, hpreimage, hsignature, hfits, preimage_says hpreimage⟩, of_decide_eq_true hnewer, ?_⟩
      rw [step_eq hcurrent, Publication.take, hsigned, roomChange_signed]
    · cases h

/-- Any other answer leaves the terminal where it is, or takes it out of its room. -/
theorem accepts_none (h : p.accepts b answer = none) : p.step b answer = p ∨ p.step b answer = p.clearSharing := by
  rcases hcurrent : p.current b answer with _ | ⟨dto, looks⟩
  · cases answer with
    | missing cancelled => cases cancelled <;> simp [Publication.step]
    | _ =>
      unfold Publication.step
      simp only [hcurrent, true_or]
  · rw [step_eq hcurrent, Publication.take]
    have hunsigned : b.signed p.roomSequence looks dto = false := by
      unfold Publication.accepts at h
      simp only [hcurrent] at h
      by_contra hsigned
      rw [if_pos (Bool.eq_true_of_not_eq_false hsigned)] at h
      cases h
    rw [hunsigned]
    split
    · exact .inl rfl
    · rename_i hchange
      obtain ⟨rfl, rfl⟩ := Prod.mk.inj (roomChange_unsigned hchange)
      exact .inr rfl

end

/-! ### Every run of answers -/

/-- Where a published terminal is after answers of the server. -/
structure Moved (b : BackendClient) (p : Publication) (h : Hosted) : Prop where
  session : h.publication.sessionId = p.sessionId
  incarnation : h.publication.incarnationId = p.incarnationId
  /-- In a room it is there by the newest choice, or since its own computer published it. -/
  room : ∀ r, h.publication.missionId = some r → h.accepted = [] ∧ p.missionId = some r ∨
    ∃ a older, h.accepted = a :: older ∧ a.dto.missionId = some r
  chosen : ∀ a ∈ h.accepted, Chosen b p a
  /-- Each choice is newer than every one before it, and than what the terminal was published with. -/
  newer : (h.accepted.map (·.dto.roomSequence) ++ [p.roomSequence]).Pairwise (· > ·)
  sequence : (h.accepted.map (·.dto.roomSequence) ++ [p.roomSequence]).head? = some h.publication.roomSequence

/-- What further answers change: nothing of what was accepted comes back, and only a choice that is newer than all
    of it brings the terminal into a room that it is not in. -/
structure Onward (h h' : Hosted) : Prop where
  sequence : h.publication.roomSequence ≤ h'.publication.roomSequence
  accepted : ∃ newer, h'.accepted = newer ++ h.accepted ∧
    (∀ a ∈ newer, h.publication.roomSequence < a.dto.roomSequence) ∧
    ∀ r, h'.publication.missionId = some r → newer = [] ∧ h.publication.missionId = some r ∨
      ∃ a older, newer = a :: older ∧ a.dto.missionId = some r

section

variable {b : BackendClient} {p : Publication} {h h' h'' : Hosted} {answer : Answer} {answers : List Answer}

theorem Chosen.of_same {a : Accepted} {q : Publication} (hsession : q.sessionId = p.sessionId)
    (hincarnation : q.incarnationId = p.incarnationId) (hchosen : Chosen b q a) : Chosen b p a :=
  ⟨hchosen.owner, hchosen.incarnation.trans hincarnation, hchosen.host,
    fun hlisted => (hchosen.terminal hlisted).trans hsession, hchosen.signed⟩

theorem Onward.refl (h : Hosted) : Onward h h :=
  ⟨UInt64.le_refl _, [], rfl, fun _ ha => absurd ha (List.not_mem_nil), fun _ hroom => .inl ⟨rfl, hroom⟩⟩

theorem Onward.trans (hfirst : Onward h h') (hsecond : Onward h' h'') : Onward h h'' := by
  obtain ⟨newer, heq, hnewer, hroom⟩ := hfirst.accepted
  obtain ⟨newer', heq', hnewer', hroom'⟩ := hsecond.accepted
  refine ⟨UInt64.le_trans hfirst.sequence hsecond.sequence, newer' ++ newer, ?_, fun a ha => ?_, fun r hr => ?_⟩
  · rw [heq', heq, List.append_assoc]
  · rcases List.mem_append.mp ha with ha | ha
    · exact UInt64.lt_of_le_of_lt hfirst.sequence (hnewer' a ha)
    · exact hnewer a ha
  · rcases hroom' r hr with ⟨rfl, hstill⟩ | ⟨a, older, rfl, ha⟩
    · exact hroom r hstill
    · exact .inr ⟨a, older ++ newer, rfl, ha⟩

/-- One answer keeps what holds of a published terminal. -/
theorem Moved.next (hmoved : Moved b p h) (hnext : b.Next h answer h') : Moved b p h' ∧ Onward h h' := by
  obtain ⟨hverified, rfl⟩ := hnext
  unfold Hosted.step
  rcases haccepts : h.publication.accepts b answer with _ | a
  · rw [Option.toList_none, List.nil_append]
    rcases accepts_none haccepts with hstep | hstep
    · rw [hstep]
      exact ⟨hmoved, Onward.refl h⟩
    · rw [hstep]
      refine ⟨⟨hmoved.session, hmoved.incarnation, nofun, hmoved.chosen, hmoved.newer, hmoved.sequence⟩, ?_⟩
      exact ⟨UInt64.le_refl _, [], rfl, fun _ ha => absurd ha (List.not_mem_nil), nofun⟩
  · obtain ⟨hchosen, hnewer, hstep⟩ := accepts_some hverified haccepts
    rw [hstep, Option.toList_some, List.singleton_append]
    refine ⟨⟨hmoved.session, hmoved.incarnation, fun r hr => .inr ⟨a, h.accepted, rfl, hr⟩, ?_, ?_, rfl⟩, ?_⟩
    · intro a' ha'
      rcases List.mem_cons.mp ha' with rfl | ha'
      · exact hchosen.of_same hmoved.session hmoved.incarnation
      · exact hmoved.chosen a' ha'
    · rw [List.map_cons, List.cons_append, List.pairwise_cons]
      refine ⟨fun s hs => ?_, hmoved.newer⟩
      -- The newest of the sequences before is the one that is held.
      have hheld : s ≤ h.publication.roomSequence := by
        have hrising := hmoved.newer
        have hhead := hmoved.sequence
        generalize h.accepted.map (·.dto.roomSequence) ++ [p.roomSequence] = sequences at hs hrising hhead
        cases sequences with
        | nil => cases hs
        | cons first rest =>
          obtain rfl := Option.some.inj hhead
          rcases List.mem_cons.mp hs with rfl | hs
          · exact UInt64.le_refl _
          · exact UInt64.le_of_lt (List.rel_of_pairwise_cons hrising hs)
      exact UInt64.lt_of_le_of_lt hheld hnewer
    · refine ⟨UInt64.le_of_lt hnewer, [a], rfl, fun a' ha' => ?_, fun r hr => .inr ⟨a, [], rfl, hr⟩⟩
      obtain rfl := List.mem_singleton.mp ha'
      exact hnewer

theorem Moved.start (b : BackendClient) (p : Publication) : Moved b p (.start p) :=
  ⟨rfl, rfl, fun _ hr => .inl ⟨rfl, hr⟩, fun _ ha => absurd ha (List.not_mem_nil), List.pairwise_singleton .., rfl⟩

theorem Moved.run (hmoved : Moved b p h) (hrun : Run b.Next h answers h') : Moved b p h' ∧ Onward h h' := by
  induction hrun with
  | nil => exact ⟨hmoved, Onward.refl _⟩
  | snoc _ hnext ih =>
    obtain ⟨hkept, honward⟩ := ih
    obtain ⟨hstill, hfurther⟩ := hkept.next hnext
    exact ⟨hstill, honward.trans hfurther⟩

/-- Whatever the server answers, a published terminal is in a room only where its own computer published it or
    where the newest choice that was accepted puts it; every such choice is the owner's and newer than all before
    it; and no answer brings an older one back. -/
theorem owner_moves {earlier later : List Answer} (hbefore : Run b.Next (.start p) earlier h)
    (hafter : Run b.Next h later h') : Moved b p h ∧ Moved b p h' ∧ Onward h h' := by
  obtain ⟨hmoved, -⟩ := (Moved.start b p).run hbefore
  exact ⟨hmoved, hmoved.run hafter⟩

end

namespace Plain

open Identity.Plain

/-- The computer of the room's owner, and what it knows of itself. -/
def backend : BackendClient := ⟨crypto, fun _ => false, userId, "first"⟩
def looks : Looks := ⟨some owner.identity, none⟩

def published (room : Option Wire.Uuid) : Publication := ⟨7, 9, room, 0⟩

/-- What the owner's device signs to take a terminal into a room. -/
def said (terminal : Wire.Uuid) : Bytes := (terminalRoomPreimage userId terminal 9 (some 5) 1 "first").toOption.getD []

def joined (terminal : Wire.Uuid) : SessionDto where
  id := terminal
  incarnationId := 9
  ownerUserId := userId
  hostDeviceId := "first"
  missionId := some 5
  roomSequence := 1
  roomChoice := some ⟨"first", Base64.encode (owner.key.sign (said terminal))⟩

theorem verified_looks : backend.Verified looks := by
  rintro identity (hknown | hfetched) id certificate hdevice
  · obtain rfl := Option.some.inj hknown
    have htime : first.InTime (ownList userId "first" 1 1000 none) 3000 false := first_in_time (by omega)
    exact ⟨_, _, _, none, 3000, false, first.checked (key_works 1) first_signed (by decide) htime nofun, rfl, hdevice⟩
  · cases hfetched

theorem signed_joined {terminal : Wire.Uuid}
    (hsaid : terminalRoomPreimage userId terminal 9 (some 5) 1 "first" = .ok (said terminal)) :
    backend.signed 0 looks (joined terminal) := by
  have hholds : signatureHolds crypto (joined terminal) owner.device.sigPublicKey := by
    have hdecode : decode (Base64.encode (owner.key.sign (said terminal))) 3309 = .ok (owner.key.sign (said terminal)) :=
      decode_encode (le_of_eq (owner.hworks.length _))
    rw [owner.hkey]
    exact signatureHolds_iff.mpr ⟨_, _, _, rfl, hsaid, hdecode, owner.hworks.verifies _⟩
  have hdevice : owner.identity.devices["first"]? = some owner.device := owner.hdevice
  have hnewer : (0 : UInt64) < 1 := by decide
  refine Bool.and_eq_true_iff.mpr ⟨decide_eq_true hnewer, ?_⟩
  unfold BackendClient.signedByOwner
  simp only [joined, backend, ne_eq, not_true_eq_false, Bool.false_eq_true, or_self, if_false]
  simp only [looks, Option.bind_some, hdevice, Option.map_some, Option.some_or, Option.any_some]
  exact hholds

theorem said_own : terminalRoomPreimage userId 7 9 (some 5) 1 "first" = .ok (said 7) := by decide +kernel

theorem said_other : terminalRoomPreimage userId 8 9 (some 5) 1 "first" = .ok (said 8) := by decide +kernel

/-- The terminal is in the room when the answer with the owner's choice has come. -/
theorem run_joined {terminal : Wire.Uuid} {answer : Answer} (hlooks : answer.looks = looks)
    (hsaid : terminalRoomPreimage userId terminal 9 (some 5) 1 "first" = .ok (said terminal))
    (hcurrent : (published none).current backend answer = some (joined terminal, looks)) :
    Run backend.Next (.start (published none)) [answer] ⟨⟨7, 9, some 5, 1⟩, [⟨joined terminal, answer.isListed⟩]⟩ := by
  have hsigned : backend.signed (published none).roomSequence looks (joined terminal) = true := signed_joined hsaid
  have haccepts : (published none).accepts backend answer = some ⟨joined terminal, answer.isListed⟩ := by
    unfold Publication.accepts
    simp only [hcurrent, hsigned, if_true]
  have hverified : backend.Verified answer.looks := hlooks ▸ verified_looks
  obtain ⟨-, -, hstep⟩ := accepts_some hverified haccepts
  refine Run.single_iff.mpr ⟨hverified, ?_⟩
  unfold Hosted.step Hosted.start
  rw [haccepts, hstep]
  rfl

/-- A leave that nobody signed. -/
def left : SessionDto := { joined 7 with missionId := none, roomChoice := none }

def inRoom : Hosted := ⟨⟨7, 9, some 5, 1⟩, [⟨joined 7, true⟩]⟩
def outside : Hosted := ⟨⟨7, 9, none, 1⟩, [⟨joined 7, true⟩]⟩

/-- After the leave, the owner's choice comes once more, and the terminal stays out of the room. -/
theorem run_left : Run backend.Next inRoom [.listed left looks false, .listed (joined 7) looks false] outside := by
  have hone : Run backend.Next inRoom [.listed left looks false] outside :=
    Run.single_iff.mpr ⟨verified_looks, rfl⟩
  exact .snoc hone ⟨verified_looks, rfl⟩

theorem join_moves : Moved backend (published none) inRoom ∧ Moved backend (published none) outside ∧
    Onward inRoom outside := by
  have hjoined : Run backend.Next (.start (published none)) [.listed (joined 7) looks false] inRoom :=
    run_joined rfl said_own rfl
  exact owner_moves hjoined run_left

/-- A terminal that its computer publishes in a room is in it without a choice; and the choice for one terminal takes
    another one into the room, when the server answers with it where it was asked for the other one. -/
theorem room_without_choice :
    (¬∀ (p : Publication) (answers : List Answer) (h : Hosted), Run backend.Next (.start p) answers h →
      ∀ r, h.publication.missionId = some r → ∃ a older, h.accepted = a :: older ∧ a.dto.missionId = some r) ∧
    ¬∀ (p : Publication) (answers : List Answer) (h : Hosted), Run backend.Next (.start p) answers h →
      ∀ a ∈ h.accepted, a.dto.id = p.sessionId := by
  constructor
  · intro hclaim
    obtain ⟨a, older, hnone, -⟩ := hclaim (published (some 5)) [] _ .nil 5 rfl
    cases hnone
  · intro hclaim
    have hother : Run backend.Next (.start (published none)) [.asked (joined 8) looks]
        ⟨⟨7, 9, some 5, 1⟩, [⟨joined 8, false⟩]⟩ :=
      run_joined rfl said_other rfl
    exact absurd (hclaim _ _ _ hother _ (List.mem_singleton_self _)) (show ¬(8 : Wire.Uuid) = 7 by decide)

end Plain

end Kodosi.Rooms
