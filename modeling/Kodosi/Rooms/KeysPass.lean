import Kodosi.Rooms.NextOf
import Kodosi.Rooms.OwnRoom
import Kodosi.Rooms.People

/-! Whether the server takes the next state of a room: it does exactly when everyone whom the newest keys name is
    still in the room, but for those with whom the operation is concerned. -/

namespace Kodosi.Rooms
open Kodosi.Lib Kodosi.Identity Kodosi.Derive

/-! ### Operations -/

/-- An operation of an honest person on the newest keys of a room. -/
inductive RoomOperation where
  | invite (id : Nat) (guest : String)
  | remove (user : String)
  | leave
  | refuse (id : Nat)
  | refresh

namespace RoomOperation

def add : RoomOperation → Option String
  | .invite _ guest => some guest
  | _ => none

/-- The one whom the operation of a person takes out of the room. -/
def out (me : String) : RoomOperation → Option String
  | .remove user => some user
  | .leave | .refuse _ => some me
  | _ => none

/-- Who may do what: the owner invites and removes, a member leaves, someone invited refuses, a member refreshes. -/
def Honest (room : Mission) (me : String) : RoomOperation → Prop
  | .invite _ guest => me = room.ownerUserId ∧ guest ≠ room.ownerUserId ∧ guest ∉ room.members ∧
      guest ∉ room.invitedUsers
  | .remove user => me = room.ownerUserId ∧ user ≠ room.ownerUserId
  | .leave => me ∈ room.members
  | .refuse id => ∃ invitation ∈ room.invitations, invitation.id = id ∧ invitation.userId = me
  | .refresh => me ∈ room.peopleOf false

/-- The room as the server has it when it looks at the keys. -/
def change (room : Mission) (me : String) : RoomOperation → Mission
  | .invite id guest => room.addInvitation id guest me
  | .remove user => room.dropPerson user
  | .leave => room.dropPerson me
  | .refuse id => room.dropInvitation id
  | .refresh => room

end RoomOperation

section

variable {room : Mission} {me : String} {op : RoomOperation}

/-- The people of the room when the server looks at the keys. -/
theorem mem_change (hroom : room.Apart) (hop : op.Honest room me) {user : String} :
    user ∈ (op.change room me).peopleOf true ↔
      (user ∈ room.peopleOf true ∨ op.add = some user) ∧ op.out me ≠ some user := by
  have hdrop : ∀ {gone : String}, gone ≠ room.ownerUserId → (user ∈ (room.dropPerson gone).peopleOf true ↔
      (user ∈ room.peopleOf true ∨ none = some user) ∧ some gone ≠ some user) := by
    intro gone hgone
    rw [mem_peopleOf, mem_peopleOf]
    simp only [Mission.dropPerson, Mission.invitedUsers, List.mem_filter, List.mem_map, decide_eq_true_eq,
      reduceCtorEq, or_false, Option.some.injEq, ne_eq]
    constructor
    · rintro (rfl | ⟨hmem, hne⟩ | ⟨x, ⟨hx, hne⟩, rfl⟩)
      · exact ⟨.inl rfl, hgone⟩
      · exact ⟨.inr (.inl hmem), fun h => hne h.symm⟩
      · exact ⟨.inr (.inr ⟨x, hx, rfl⟩), fun h => hne h.symm⟩
    · rintro ⟨rfl | hmem | ⟨x, hx, rfl⟩, hne⟩
      · exact .inl rfl
      · exact .inr (.inl ⟨hmem, fun h => hne h.symm⟩)
      · exact .inr (.inr ⟨x, ⟨hx, fun h => hne h.symm⟩, rfl⟩)
  cases op with
  | invite id guest =>
    show user ∈ (room.addInvitation id guest me).peopleOf true ↔ _
    rw [mem_peopleOf, mem_peopleOf]
    simp only [Mission.addInvitation, Mission.invitedUsers, List.map_append, List.mem_append, List.map_cons, List.map_nil,
      List.mem_singleton, RoomOperation.add, RoomOperation.out, Option.some.injEq, ne_eq, reduceCtorEq,
      not_false_eq_true, and_true]
    tauto
  | remove gone => exact hdrop hop.2
  | leave => exact hdrop fun h => hroom.owner (h ▸ hop)
  | refuse id =>
    obtain ⟨invitation, hmem, rfl, rfl⟩ := hop
    have hin : invitation.userId ∈ room.invitedUsers := List.mem_map_of_mem hmem
    have hout := notMem_dropInvitation hroom hmem
    show user ∈ (room.dropInvitation invitation.id).peopleOf true ↔ _
    rw [mem_peopleOf, mem_peopleOf]
    simp only [RoomOperation.add, RoomOperation.out, reduceCtorEq, or_false, ne_eq, Option.some.injEq]
    constructor
    · rintro (rfl | huser | huser)
      · exact ⟨.inl rfl, fun h => hroom.ownerInvited (by rwa [h] at hin)⟩
      · exact ⟨.inr (.inl huser), fun h => hroom.invited _ hin (by rwa [h])⟩
      · exact ⟨.inr (.inr ((List.filter_sublist.map _).subset huser)), fun h => hout (by rwa [h])⟩
    · rintro ⟨rfl | huser | huser, hne⟩
      · exact .inl rfl
      · exact .inr (.inl huser)
      · obtain ⟨x, hx, rfl⟩ := List.mem_map.mp huser
        have hid : x.id ≠ invitation.id := fun h =>
          hne (congrArg (·.userId) (List.inj_on_of_nodup_map hroom.ids hx hmem h).symm)
        exact .inr (.inr (List.mem_map.mpr ⟨x, List.mem_filter.mpr ⟨hx, decide_eq_true hid⟩, rfl⟩))
  | refresh =>
    show user ∈ room.peopleOf true ↔ _
    simp [RoomOperation.add, RoomOperation.out]

end

/-! ### What the server says to the keys of an operation -/

/-- How a client and the server read the text of a key state: what both read is the same state. -/
structure Readers where
  parse : Bytes → Except Error State
  readBody : Bytes → Option KeyStateBody
  agree : ∀ {bytes state body}, parse bytes = .ok state → readBody bytes = some body → body = state.forServer

/-- Everyone whom the newest keys name is in the room, but for those with whom the operation is concerned. -/
def RoomOperation.NamedHere (op : RoomOperation) (room : Mission) (me : String) (body : KeyStateBody) : Prop :=
  ∀ user ∈ body.members, user ∈ room.peopleOf true ∨ op.add = some user ∨ op.out me = some user

section

variable {C : Crypto} {R : Readers} {room : Mission} {me : String} {op : RoomOperation} {row : MissionKeyState}
  {body : KeyStateBody} {previous : VerifiedState} {state : State}

theorem change_same (op : RoomOperation) (room : Mission) (me : String) :
    (op.change room me).id = room.id ∧ (op.change room me).ownerUserId = room.ownerUserId ∧
    (op.change room me).keyVersion = room.keyVersion ∧ (op.change room me).keys = room.keys := by
  cases op <;> exact ⟨rfl, rfl, rfl, rfl⟩

theorem Newest.unique {row' : MissionKeyState} {body' : KeyStateBody} (h : Newest R.readBody room row body)
    (h' : Newest R.readBody room row' body') : row' = row ∧ body' = body := by
  obtain rfl : row' = row := Option.some.inj (h'.found.symm.trans h.found)
  exact ⟨rfl, Option.some.inj (h'.read.symm.trans h.read)⟩

/-- The newest keys as the client knows them are those that the server has. -/
structure SameNewest (C : Crypto) (room : Mission) (row : MissionKeyState) (body : KeyStateBody)
    (previous : VerifiedState) : Prop where
  body : body = previous.state.forServer
  hash : previous.hash = digest C row.body
  roomId : previous.state.roomId = room.id
  owner : previous.state.ownerUserId = room.ownerUserId
  version : previous.state.version = room.keyVersion
  versioned : room.keyVersion ≠ 0

theorem sameNewest (hnewest : Newest R.readBody room row body) {nowMs : Nat} {anchor : Root}
    {before : Option VerifiedState} (hverified : verifyState C R.parse nowMs (stateDto row.toKeyRow) room.id
      room.ownerUserId anchor before = .ok previous) : SameNewest C room row body previous := by
  obtain ⟨bytes, hv⟩ := verifyState_ok hverified
  obtain rfl : bytes = row.body := decode_encoded hv.body
  have hversion : previous.state.version = room.keyVersion := hv.version.trans hnewest.version
  refine ⟨R.agree hv.parsed hnewest.read, hv.hash, hv.roomId, hv.ownerUserId, hversion, ?_⟩
  rw [← hversion, hv.behind]
  cases before <;> simp

/-- The people of the next state are the people of the changed room exactly when the keys name nobody who is gone. -/
theorem members_eq_iff (hroom : room.Apart) (hop : op.Honest room me) (hbody : body = previous.state.forServer)
    (hnamed : ∀ user ∈ room.peopleOf true, user ∈ body.members)
    (hnext : NextOf previous me op.add (op.out me) state) :
    state.forServer.members.toFinset = ((op.change room me).peopleOf true).toFinset ↔ op.NamedHere room me body := by
  have hin : ∀ {s : State} {user : String}, user ∈ s.forServer.members ↔ user ∈ s.members := Std.TreeMap.mem_keys
  have hold : ∀ user, user ∈ body.members ↔ user ∈ previous.state.members := fun user => by rw [hbody, hin]
  rw [Finset.ext_iff]
  constructor
  · intro h user huser
    have hsame := h user
    rw [List.mem_toFinset, List.mem_toFinset, hin, hnext.members, mem_change hroom hop] at hsame
    by_cases hout : op.out me = some user
    · exact .inr (.inr hout)
    · rcases (hsame.mp ⟨.inl ((hold user).mp huser), hout⟩).1 with h | h
      · exact .inl h
      · exact .inr (.inl h)
  · intro h user
    rw [List.mem_toFinset, List.mem_toFinset, hin, hnext.members, mem_change hroom hop]
    constructor
    · rintro ⟨huser | hadd, hout⟩
      · rcases h user ((hold user).mpr huser) with h | h | h
        · exact ⟨.inl h, hout⟩
        · exact ⟨.inr h, hout⟩
        · exact absurd h hout
      · exact ⟨.inr hadd, hout⟩
    · rintro ⟨huser | hadd, hout⟩
      · exact ⟨.inl ((hold user).mp (hnamed user huser)), hout⟩
      · exact ⟨.inr hadd, hout⟩

/-- The next state keeps what the server asks of its history. -/
theorem checkNext_next (hop : op.Honest room me) (hnewest : Newest R.readBody room row body)
    (hsame : SameNewest C room row body previous) (hnext : NextOf previous me op.add (op.out me) state)
    {changed : Mission} (howner : changed.ownerUserId = room.ownerUserId) :
    changed.checkNext C R.readBody state.forServer row = .ok () := by
  have hepoch : row.epoch = previous.state.epoch := by rw [hnewest.epoch, hsame.body]; rfl
  have hold : ∀ user, user ∈ body.members ↔ user ∈ previous.state.members := by
    intro user
    rw [hsame.body]
    exact Std.TreeMap.mem_keys
  have hnew : ∀ user, user ∈ state.forServer.members ↔ user ∈ state.members := fun _ => Std.TreeMap.mem_keys
  have hremoved : ∀ user, user ∈ body.members.filter (· ∉ state.forServer.members) → op.out me = some user := by
    intro user huser
    obtain ⟨hin, hgone⟩ := List.mem_filter.mp huser
    by_contra hout
    exact of_decide_eq_true hgone ((hnew user).mpr ((hnext.members user).mpr ⟨.inl ((hold user).mp hin), hout⟩))
  have hadded : ∀ user, user ∈ state.forServer.members.filter (· ∉ body.members) → op.add = some user := by
    intro user huser
    obtain ⟨hin, hfresh⟩ := List.mem_filter.mp huser
    refine (((hnext.members user).mp ((hnew user).mp hin)).1).resolve_left fun h => ?_
    exact of_decide_eq_true hfresh ((hold user).mpr h)
  have hhash : state.forServer.previousHash = digest C row.body := hnext.hash.trans hsame.hash
  have hepochs : ¬(state.forServer.epoch < row.epoch ∨ row.epoch + 1 < state.forServer.epoch) := by
    have hsame : state.forServer.epoch = state.epoch := rfl
    rcases hnext.epoch with h | ⟨h, -⟩ <;> omega
  refine (ok_bind (reject_ok.mpr ?_)).trans ((ok_bind (require_ok.mpr hnewest.read)).trans
    ((ok_bind (reject_ok.mpr ?_)).trans (reject_ok.mpr ?_)))
  · rintro (h | h)
    · exact h hhash
    · exact hepochs h
  · rintro ⟨hstranger, hchanges⟩
    rw [howner] at hstranger
    have hme : state.forServer.authorId = me := hnext.author
    -- Only the owner adds a person, or removes another one.
    have hown : op.add = none ∧ ∀ user, op.out me = some user → user = me := by
      cases op with
      | invite id guest => exact absurd (hme.trans hop.1) hstranger
      | remove user => exact absurd (hme.trans hop.1) hstranger
      | leave => exact ⟨rfl, fun user h => (Option.some.inj h).symm⟩
      | refuse id => exact ⟨rfl, fun user h => (Option.some.inj h).symm⟩
      | refresh => exact ⟨rfl, nofun⟩
    rcases hchanges with h | ⟨user, huser, hother⟩
    · obtain ⟨user, huser⟩ := List.exists_mem_of_ne_nil _ h
      exact absurd (hown.1.symm.trans (hadded user huser)) nofun
    · exact hother ((hown.2 user (hremoved user huser)).trans hme.symm)
  · rintro ⟨hchanges, hsame⟩
    obtain ⟨user, huser⟩ := List.exists_mem_of_ne_nil _ hchanges
    rcases hnext.epoch with h | ⟨-, h⟩
    · exact hsame (h.trans (by rw [hepoch]))
    · exact absurd (h.symm.trans (hremoved user huser)) nofun

end

/-! ### A room whose member deletes the account -/

namespace Shared
open Plain Identity.Plain

def friendId : String := "00000000-0000-4000-8000-000000000002"

/-- The owner's friend. -/
def friend : Alone where
  userId := friendId
  identityIncarnationId := 3
  deviceId := "phone"
  label := "Phone"
  key := key 3
  issuedAtMs := 1000
  expiresAtMs := none
  certificate := made (buildSelfCert friendId "phone" "Phone" (key 3) 1000 none)
  hcertificate := made_eq (by decide +kernel)

theorem friend_signed : friend.Signed (ownList friendId "phone" 1 1000 none) (listOf friend 1 1000) :=
  signed_of (a := friend) (by decide)

def guest : Owner crypto := .alone (key_works 3) friend_signed

theorem friend_in_time : friend.InTime (ownList friendId "phone" 1 1000 none) 3000 false where
  issued := by decide
  valid := rfl
  current := by decide

/-- The state of the room once the friend is invited. -/
def invited : State :=
  { ownState 2 (digest crypto bytes₁) with
    members := owner.members.insert friendId guest.bundle
    recipients := [⟨userId, "first", "", ⟨"", ""⟩⟩, ⟨friendId, "phone", "", ⟨"", ""⟩⟩] }

def invitedBytes : Bytes := Wire.Plain.toVec invited.toJson

theorem toList_invited : invited.members.toList = [(userId, owner.bundle), (friendId, guest.bundle)] := rfl

theorem ids : userId ≠ friendId := by decide

theorem length_invitedBytes : invitedBytes.length ≤ STATE_BODY_MOST := by
  have hshort : ∀ text ∈ [uuidText 7, userId, "first", Nat.repr 1, Nat.repr 2, Nat.repr 3000], text.utf8ByteSize ≤ 6200 := by
    decide
  simp only [List.forall_mem_cons] at hshort
  obtain ⟨hroom, huser, hdevice, hone, htwo, htime, -⟩ := hshort
  have hguest : (Wire.Plain.fieldsToVec [(friendId, bundleJson guest.bundle)]).length ≤ 87400 + 1 :=
    length_alone (a := friend) (s := listOf friend 1 1000) (by decide) (by decide +kernel)
  have hphone : (Wire.Plain.itemsToVec [Recipient.toJson ⟨friendId, "phone", "", ⟨"", ""⟩⟩]).length ≤ 10 * 6200 + 400 + 1 :=
    length_recipient (by decide)
  have hhash : invited.previousHash.utf8ByteSize ≤ 2 * 240000 := by
    have hsame : invited.previousHash = digest crypto bytes₁ := rfl
    have hplain : crypto.sha256 bytes₁ = bytes₁ := rfl
    rw [hsame, utf8ByteSize_digest, hplain]
    exact Nat.mul_le_mul_left 2 length_bytes₁
  have hmost : ∀ {d : Nat}, d ≤ 2 * 240000 →
      14 * 6200 + 2 * d + (87400 + (87400 + 1)) + (10 * 6200 + 400 + (10 * 6200 + 400 + 1)) + 600 ≤ STATE_BODY_MOST := by
    intro d hd
    have hmost : STATE_BODY_MOST = 3145728 := rfl
    omega
  have hmembers := length_owner.trans (Nat.add_le_add_left hguest _)
  have hrecipients := (length_recipient (m := 6200) (r := ⟨userId, "first", "", ⟨"", ""⟩⟩) (by decide)).trans
    (Nat.add_le_add_left hphone _)
  refine (length_state (s := invited) (m := 6200) (by rw [toList_invited]; exact hmembers) hrecipients rfl ?_).trans (hmost hhash)
  simp only [List.forall_mem_cons]
  exact ⟨hroom, huser, huser, hdevice, htwo, hone, htime, nofun⟩

/-- A reader of states that tells them apart by their versions. -/
def reader (states : List State) (bytes : Bytes) : Except Error State :=
  require .json (states.find? fun s => Wire.Plain.toVec s.toJson = bytes)

theorem version_of_toVec {s t : State} (h : Wire.Plain.toVec s.toJson = Wire.Plain.toVec t.toJson) :
    s.version = t.version := by
  have hjson := (Wire.Plain.toVec_inj (r := []) (s := []) (congrArg (· ++ []) h)).1
  unfold State.toJson at hjson
  simp only [Documents.Value.object.injEq, List.cons.injEq, Prod.mk.injEq, true_and] at hjson
  exact writeNat_inj hjson.2.2.2.2.1

theorem reader_ok {states : List State} (hversions : (states.map (·.version)).Nodup) {s : State} (hs : s ∈ states) :
    reader states (Wire.Plain.toVec s.toJson) = .ok s := by
  have hsome : (states.find? fun t => Wire.Plain.toVec t.toJson = Wire.Plain.toVec s.toJson).isSome :=
    List.find?_isSome.mpr ⟨s, hs, decide_eq_true rfl⟩
  obtain ⟨t, ht⟩ := Option.isSome_iff_exists.mp hsome
  have hbytes := List.find?_some ht
  have hsame : t.version = s.version := version_of_toVec (of_decide_eq_true hbytes)
  obtain rfl := List.inj_on_of_nodup_map hversions (List.mem_of_find?_eq_some ht) hs hsame
  rw [reader, ht]
  rfl

/-! ### What the client verifies -/

def invitedSigned : SignedState := owner.signs invited invitedBytes

def invitedIdentities : Map VerifiedIdentity := owner.identities.insert friendId guest.identity

def verified₁ : VerifiedState := owner.verified state₁ bytes₁

def verified₂ : VerifiedState := ⟨invited, digest crypto invitedBytes, invitedIdentities⟩

theorem keeps_owner : verified₁.keeps userId owner.bundle = some owner.identity := by
  rw [VerifiedState.keeps, if_pos]
  · exact (getElem?_insert _ _ _ _).trans (if_pos rfl)
  · exact Owner.getElem?_members (o := owner)

theorem members_owner : invited.members[userId]? = some owner.bundle := by
  show (owner.members.insert friendId guest.bundle)[userId]? = _
  rw [getElem?_insert, if_neg (by decide)]
  exact Owner.getElem?_members (o := owner)

theorem friend_unknown : verified₁.bundle friendId = none := by
  show (owner.members)[friendId]? = none
  rw [Owner.members, getElem?_insert, if_neg (by decide)]
  rfl

theorem memberIdentities_invited :
    memberIdentities crypto invited userId owner.root (some verified₁) = .ok invitedIdentities := by
  have hknown : Pins.historical crypto guest.bundle guest.root 3000 none = .ok guest.identity :=
    historical_alone (key_works 3) friend_signed (by decide) friend_in_time
  exact memberIdentities_two toList_invited (memberIdentity_kept rfl keeps_owner)
    (memberIdentity_new rfl (by decide) friend_unknown guest.hroot hknown)

theorem signingDevice_invited : signingDevice crypto invited (some verified₁) = .ok owner.device := by
  refine signingDevice_of members_owner ?_ owner.hroot (makes 1 "").known owner.hdevice
  intro known hknown
  have hsame : verified₁.bundle userId = some owner.bundle := Owner.getElem?_members (o := owner)
  exact (Option.some.inj (hsame.symm.trans hknown)).symm

theorem checkUpdate_invited : checkUpdate invited userId verified₁ = .ok () := by
  have hmember : userId ∈ state₁.members := by
    rw [Std.TreeMap.mem_iff_isSome_getElem?]
    exact congrArg Option.isSome (Owner.getElem?_members (o := owner))
  have hremoved : invited.removed state₁ = [] := by
    refine List.filter_eq_nil_iff.mpr fun user huser => ?_
    have huser : user ∈ [userId] := huser
    rw [List.mem_singleton.mp huser, decide_eq_true_eq, not_not, Std.TreeMap.mem_iff_isSome_getElem?, members_owner]
    rfl
  refine (ok_bind (reject_ok.mpr ?_)).trans ((ok_bind (reject_ok.mpr ?_)).trans
    ((ok_bind (reject_ok.mpr ?_)).trans (reject_ok.mpr ?_)))
  · rintro (h | h | h | h)
    · exact h rfl
    · exact absurd h (lt_irrefl 1)
    · exact absurd h (by decide : ¬(2 : Nat) < 1)
    · exact h hmember
  · exact fun h => h.1 rfl
  · exact fun h => h.1 hremoved
  · exact fun h => h.2 rfl

variable {parse : Bytes → Except Error State}

theorem verifies_invited (hparse : parse invitedBytes = .ok invited) :
    verifyState crypto parse 3000 invitedSigned 7 userId owner.root (some verified₁) = .ok verified₂ := by
  have hsignature : verifySignature crypto STATE_DOMAIN invitedBytes invitedSigned.signature owner.device.sigPublicKey =
      .ok () := by
    have hlength : (owner.key.sign (STATE_DOMAIN ++ invitedBytes)).length ≤ 3309 :=
      Nat.le_of_eq (owner.hworks.length _)
    rw [verifySignature, invitedSigned, Owner.signs, ok_bind (decode_encode hlength), owner.hkey]
    exact reject_ok.mpr (not_not.mpr (owner.hworks.verifies _))
  refine verifyState_of (decode_encode length_invitedBytes) hparse ?_ memberIdentities_invited checkUpdate_invited
    signingDevice_invited hsignature ?_
  · have hmember : userId ∈ invited.members := by
      rw [Std.TreeMap.mem_iff_isSome_getElem?, members_owner]
      rfl
    rintro (h | h | h | h | h | h | h | h | h | h)
    · exact h rfl
    · exact h rfl
    · exact h rfl
    · exact h rfl
    · exact absurd h Bool.false_ne_true
    · exact absurd (show 65 < 2 from h) (by decide)
    · exact h hmember
    · exact absurd (show soon 3000 < 3000 from h) (by decide)
    · exact absurd h (List.cons_ne_nil _ _)
    · exact absurd (show ROOM_RECIPIENTS_MOST < 2 from h) (by decide)
  · have hreceives : ∀ {user device : String} {o : Owner crypto}, invitedIdentities[user]? = some o.identity →
        device = o.device.deviceId →
        ¬¬∃ identity ∈ invitedIdentities[user]?, device ∈ identity.devices := by
      rintro user device o huser rfl
      refine not_not.mpr ⟨o.identity, huser, ?_⟩
      rw [Std.TreeMap.mem_iff_isSome_getElem?, o.hdevice]
      rfl
    have howner : invitedIdentities[userId]? = some owner.identity := by
      rw [invitedIdentities, getElem?_insert, if_neg (by decide)]
      exact (getElem?_insert _ _ _ _).trans (if_pos rfl)
    have hguest : invitedIdentities[friendId]? = some guest.identity := by
      rw [invitedIdentities, getElem?_insert, if_pos rfl]
    intro r hr
    refine reject_ok.mpr ?_
    have hr : r ∈ [⟨userId, "first", "", ⟨"", ""⟩⟩, ⟨friendId, "phone", "", ⟨"", ""⟩⟩] := hr
    rcases List.mem_cons.mp hr with rfl | hr
    · exact hreceives howner rfl
    · obtain rfl := List.mem_singleton.mp hr
      exact hreceives hguest rfl

/-! ### The state that the client builds next -/

/-- A stand-in for the sealing of keys: a tag behind the plain text, and one agreed key. -/
def cipher : Cipher where
  sealWith _ _ plain _ := some (plain ++ List.replicate 16 0)
  openWith _ _ _ ciphertext := some (ciphertext.take (ciphertext.length - 16))
  encapsulate _ _ _ := some (List.replicate (KEM_CIPHERTEXT_BYTES + AGREEMENT_BYTES) 0, List.replicate 32 9)
  decapsulate _ _ _ := some (List.replicate 32 9)

def roomKey : RoomKeyPair := ⟨List.replicate ROOM_PUBLIC_BYTES 4, [4]⟩

def credentials : Credentials := ⟨⟨userId, ⟨"first", key 1, roomKey, none⟩⟩, 1⟩

/-- The owner's room as the client holds it. -/
def held : CachedRoom := ⟨[verified₁, verified₂], (∅ : Std.TreeMap Nat Secret).insert 1 (List.replicate 32 8), none, none⟩

/-- What the owner's device signed for its room key. -/
def keyProof : Bytes := RECIPIENT_DOMAIN ++ [utf8 userId, utf8 "first", roomKey.publicKey].flatMap field

theorem roomKeyProof_first : roomKeyProof userId "first" roomKey.publicKey = .ok keyProof := by
  refine signedFields_iff.mpr ⟨?_, rfl⟩
  have hkey : FitsField roomKey.publicKey := by
    have hlength : roomKey.publicKey.length = 1216 := List.length_replicate
    rw [FitsField, hlength]
    decide
  simp only [List.forall_mem_cons]
  exact ⟨show _ ≤ MAX_FIELD_LEN by decide, show _ ≤ MAX_FIELD_LEN by decide, hkey, nofun⟩

def ownKey : RecipientKey :=
  ⟨userId, "first", Base64.encode roomKey.publicKey, Base64.encode (owner.key.sign keyProof)⟩

/-- What the server and the pins answer, with an answer for the friend. -/
def answers (friend : Except RoomError IdentityBundle) : Answers where
  identity user := if user = userId then .ok owner.bundle else friend
  anchor _ := .error (.backend 404)
  verifyBundle _ _ := .error (.backend 404)
  roomKeys user := .ok (if user = userId then [ownKey] else [])

/-- The friend is still there, or gone. -/
def friendHere : Except RoomError IdentityBundle := .ok guest.bundle
def friendGone : Except RoomError IdentityBundle := .error (.backend 404)

theorem recipientKey_own : recipientKey crypto userId owner.identity ownKey = .ok (some ownKey) := by
  have hlength : roomKey.publicKey.length = ROOM_PUBLIC_BYTES := List.length_replicate
  have hkey : decode ownKey.publicKey ROOM_PUBLIC_BYTES = .ok roomKey.publicKey :=
    decode_encode (Nat.le_of_eq hlength)
  have hsignature : decode ownKey.signature 3309 = .ok (owner.key.sign keyProof) :=
    decode_encode (Nat.le_of_eq (owner.hworks.length _))
  have hdevice : owner.identity.devices[ownKey.deviceId]? = some owner.device := owner.hdevice
  have huser : ¬ownKey.userId ≠ userId := not_not.mpr rfl
  rw [recipientKey, ok_bind (reject_ok.mpr huser), hdevice]
  refine (ok_bind hkey).trans ?_
  rw [if_neg (not_not.mpr hlength)]
  refine (ok_bind roomKeyProof_first).trans ((ok_bind hsignature).trans ((ok_bind (reject_ok.mpr ?_)).trans rfl))
  rw [owner.hkey]
  exact not_not.mpr (owner.hworks.verifies _)

variable {answer : Except RoomError IdentityBundle} {replaced : List String}

/-- Whether the friend is there or gone, the people of the state stay. -/
theorem nextStanding_held (h : answer = friendHere ∧ replaced = [] ∨ answer = friendGone ∧ replaced = [friendId]) :
    nextStanding crypto (answers answer) userId verified₂ 3000 none none =
      .ok (⟨invited.members, invitedIdentities, replaced⟩, false) := by
  have hown : (answers answer).identity userId = .ok owner.bundle := by
    show (if userId = userId then .ok owner.bundle else answer) = _
    rw [if_pos rfl]
  have hother : (answers answer).identity friendId = answer := by
    show (if friendId = userId then .ok owner.bundle else answer) = _
    rw [if_neg (by decide)]
  have hbundle : memberBundle (answers answer) userId = .ok owner.bundle := by
    have hsame : ¬owner.bundle.userId ≠ userId := not_not.mpr rfl
    rw [memberBundle, ok_bind hown, ok_bind (reject_ok.mpr hsame)]
    rfl
  have hone : Standing.member crypto (answers answer) userId verified₂ 3000 ⟨invited.members, invitedIdentities, []⟩
      (userId, owner.bundle) = .ok ⟨invited.members, invitedIdentities, []⟩ := by
    rw [Standing.member]
    simp only [hbundle]
    exact if_pos rfl
  have htwo : Standing.member crypto (answers answer) userId verified₂ 3000 ⟨invited.members, invitedIdentities, []⟩
      (friendId, guest.bundle) = .ok ⟨invited.members, invitedIdentities, replaced⟩ := by
    rw [Standing.member]
    rcases h with ⟨rfl, rfl⟩ | ⟨rfl, rfl⟩
    · have hguest : memberBundle (answers friendHere) friendId = .ok guest.bundle := by
        have hsame : ¬guest.bundle.userId ≠ friendId := not_not.mpr rfl
        rw [memberBundle, hother, friendHere, ok_bind rfl, ok_bind (reject_ok.mpr hsame)]
        rfl
      simp only [hguest]
      exact if_pos rfl
    · have hguest : memberBundle (answers friendGone) friendId = .error (.backend 404) := by
        rw [memberBundle, hother]
        rfl
      simp only [hguest]
      rfl
  have hstanding : roomStanding crypto (answers answer) userId verified₂ 3000 =
      .ok ⟨invited.members, invitedIdentities, replaced⟩ := by
    have hlist : verified₂.state.members.toList = [(userId, owner.bundle), (friendId, guest.bundle)] := toList_invited
    rw [roomStanding, hlist, List.foldlM_cons]
    refine (ok_bind hone).trans ?_
    rw [List.foldlM_cons]
    exact (ok_bind htwo).trans rfl
  have hreturn : returnByOwner (answers answer) userId verified₂ none ⟨invited.members, invitedIdentities, replaced⟩ =
      .ok (⟨invited.members, invitedIdentities, replaced⟩, false) := by
    refine (if_pos rfl).trans ?_
    rcases h with ⟨-, rfl⟩ | ⟨-, rfl⟩
    · rfl
    · rfl
  exact (ok_bind hstanding).trans ((ok_bind hreturn).trans rfl)

theorem roomRecipients_held (answer : Except RoomError IdentityBundle) (h : replaced = [] ∨ replaced = [friendId]) :
    roomRecipients crypto (answers answer) ⟨invited.members, invitedIdentities, replaced⟩ = .ok [ownKey] := by
  have hkeys : faults ([ownKey].mapM (recipientKey crypto userId owner.identity)) = .ok [some ownKey] := by
    rw [List.mapM_cons, recipientKey_own]
    rfl
  have hlist : invitedIdentities.toList = [(userId, owner.identity), (friendId, guest.identity)] := rfl
  have hown : userId ∉ replaced := by
    rcases h with rfl | rfl
    · exact List.not_mem_nil
    · exact fun h => absurd (List.mem_singleton.mp h) (by decide)
  have hanswer : (answers answer).roomKeys userId = .ok [ownKey] := congrArg Except.ok (if_pos rfl)
  have hother : (answers answer).roomKeys friendId = .ok [] := congrArg Except.ok (if_neg (by decide))
  rw [roomRecipients, hlist]
  simp only [List.foldlM_cons, List.foldlM_nil, if_neg hown, hanswer, hother]
  have hmine : (do
      let keys ← (.ok [ownKey] : Except RoomError (List RecipientKey))
      let found ← faults (keys.mapM (recipientKey crypto userId owner.identity))
      return [] ++ found.reduceOption : Except RoomError (List RecipientKey)) = .ok [ownKey] :=
    (ok_bind rfl).trans ((ok_bind hkeys).trans rfl)
  refine (ok_bind hmine).trans ?_
  rcases h with rfl | rfl
  · rfl
  · rfl

theorem wrapRoomState_own (state : State) (hroom : state.roomId = 7) (key : Secret) (coins : Nat → Coins) :
    ∃ wrapped, wrapRoomState cipher state [ownKey] key coins = .ok wrapped := by
  have hcontext : wrapContext state userId "first" = .ok (WRAP_DOMAIN ++ [utf8 (uuidText state.roomId),
      toBe 8 state.version, toBe 8 state.epoch, utf8 userId, utf8 "first"].flatMap field) := by
    have hnumber : ∀ n, FitsField (toBe 8 n) := by
      intro n
      rw [FitsField, length_toBe]
      decide
    refine signedFields_iff.mpr ⟨?_, rfl⟩
    rw [hroom]
    simp only [List.forall_mem_cons]
    exact ⟨show _ ≤ MAX_FIELD_LEN by decide, hnumber _, hnumber _, show _ ≤ MAX_FIELD_LEN by decide,
      show _ ≤ MAX_FIELD_LEN by decide, nofun⟩
  have hlength : roomKey.publicKey.length = ROOM_PUBLIC_BYTES := List.length_replicate
  have hkey : decode ownKey.publicKey ROOM_PUBLIC_BYTES = .ok roomKey.publicKey :=
    decode_encode (Nat.le_of_eq hlength)
  have hwrap : ∃ recipient, wrap cipher state userId "first" roomKey.publicKey key (coins 0) = .ok recipient := by
    rw [wrap, ok_bind (reject_ok.mpr (not_not.mpr hlength)), ok_bind hcontext]
    exact ⟨_, rfl⟩
  obtain ⟨recipient, hrecipient⟩ := hwrap
  have hone : (do
      let publicKey ← decode ownKey.publicKey ROOM_PUBLIC_BYTES
      wrap cipher state ownKey.userId ownKey.deviceId publicKey key (coins 0) : Except Error Recipient) =
      .ok recipient := (ok_bind hkey).trans hrecipient
  rw [wrapRoomState]
  simp only [List.zipIdx_cons, List.zipIdx_nil, List.mapM_cons, List.mapM_nil, hone]
  exact ⟨_, rfl⟩

/-- The owner's device makes the next state, whether the friend is there or gone. -/
theorem makes_next (h : answer = friendHere ∧ replaced = [] ∨ answer = friendGone ∧ replaced = [friendId])
    (coins : StateCoins) :
    ∃ state, nextRoomState crypto cipher (answers answer) credentials 7 held none none 3000 coins =
      .ok (some state) := by
  have hnewest : require (RoomError.invalid "Room keys are missing.") held.states.getLast? = .ok verified₂ := rfl
  have hkey : require (RoomError.invalid "Room keys are still arriving on this device.") held.keys[1]? =
      .ok (List.replicate 32 8) := require_ok.mpr Std.TreeMap.getElem?_insert_self
  have hstanding := nextStanding_held h
  have hrecipients := roomRecipients_held answer (h.imp And.right And.right)
  have hnew : (([ownKey].map fun r => (r.userId, r.deviceId)).toFinset : Finset (String × String)) =
      {(userId, "first")} := rfl
  have hold : ((verified₂.state.recipients.map fun r => (r.userId, r.deviceId)).toFinset : Finset (String × String)) =
      {(userId, "first"), (friendId, "phone")} := rfl
  have hin : ((friendId, "phone") : String × String) ∉ ({(userId, "first")} : Finset (String × String)) := by decide
  have hless : ¬({(userId, "first"), (friendId, "phone")} : Finset (String × String)) ⊆ {(userId, "first")} :=
    fun hsub => hin (hsub (by decide))
  have hseal : ∃ sealed, sealPrevious cipher 7 2 coins.secret (List.replicate 32 8) coins.nonce = .ok sealed := by
    have hcontext : historyContext 7 2 = .ok (HISTORY_DOMAIN ++ [utf8 (uuidText 7), toBe 8 2].flatMap field) := by
      refine signedFields_iff.mpr ⟨?_, rfl⟩
      simp only [List.forall_mem_cons]
      exact ⟨show _ ≤ MAX_FIELD_LEN by decide, show _ ≤ MAX_FIELD_LEN by decide, nofun⟩
    rw [sealPrevious, ok_bind hcontext]
    exact ⟨_, rfl⟩
  obtain ⟨sealed, hsealed⟩ := hseal
  rw [nextRoomState, ok_bind hnewest]
  simp only [show verified₂.state.epoch = 1 from rfl]
  rw [ok_bind hkey, show max 3000 verified₂.state.createdAtMs = 3000 from rfl,
    show credentials.userId = userId from rfl, ok_bind hstanding]
  dsimp only
  rw [ok_bind hrecipients, hnew, hold, if_neg fun h => hless (h.2.2.2.2).le, if_pos (.inr (.inr (.inr hless))),
    hsealed]
  obtain ⟨wrapped, hwrapped⟩ := wrapRoomState_own { verified₂.state with
    version := verified₂.state.version + 1
    previousHash := verified₂.hash
    authorId := userId
    deviceId := credentials.keys.deviceId
    createdAtMs := 3000
    epoch := 2
    previousKey := some sealed } rfl coins.secret coins.wraps
  exact ⟨wrapped, (ok_bind rfl).trans ((ok_bind (congrArg faults hwrapped)).trans rfl)⟩

/-! ### The room on the server -/

section

variable {states : List State}

def readBody (states : List State) (bytes : Bytes) : Option KeyStateBody :=
  (reader states bytes).toOption.map State.forServer

/-- The texts of states, as a client and the server read them. -/
def readers (states : List State) : Readers where
  parse := reader states
  readBody := readBody states
  agree h h' := by
    rw [readBody, h] at h'
    exact (Option.some.inj h').symm

variable {s : State}

theorem parse_readers (hversions : (states.map (·.version)).Nodup) (hs : s ∈ states) :
    (readers states).parse (Wire.Plain.toVec s.toJson) = .ok s :=
  reader_ok hversions hs

theorem readBody_ok (hversions : (states.map (·.version)).Nodup) (hs : s ∈ states) :
    readBody states (Wire.Plain.toVec s.toJson) = some s.forServer := by
  rw [readBody, reader_ok hversions hs]
  rfl

/-- The owner's device stores a state. -/
def stored (hversions : (states.map (·.version)).Nodup) (s : State) (hs : s ∈ states) (hauthor : s.authorId = userId) :
    PreparedKeys (readBody states) userId where
  device := ⟨userId, s.deviceId, owner.device.sigPublicKey⟩
  body := Wire.Plain.toVec s.toJson
  signature := owner.key.sign (STATE_DOMAIN ++ Wire.Plain.toVec s.toJson)
  state := s.forServer
  read := readBody_ok hversions hs
  author := hauthor
  signer := rfl

def friends : Mission.Surroundings where
  areFriends a b := a ≠ b
  irrefl user := by simp
  tooManyInvitations := false
  tooManyRooms := false
  roomPeople := 16

def rowOf (s : State) : MissionKeyState :=
  ⟨⟨s.version, Wire.Plain.toVec s.toJson, owner.key.sign (STATE_DOMAIN ++ Wire.Plain.toVec s.toJson)⟩, s.epoch⟩

/-- The room as the owner stored its first keys, invited the friend, as the friend came in, and as the friend's
    account is deleted. -/
def room₁ : Mission := { Mission.new 7 userId false with keyVersion := 1, keys := [rowOf state₁] }
def room₂ : Mission :=
  { room₁ with invitations := [⟨5, friendId, userId⟩], keyVersion := 2, keys := [rowOf state₁, rowOf invited] }
def room₃ : Mission := { room₂ with members := [friendId], invitations := [] }
def room₄ : Mission := { room₃ with members := [] }

variable (hversions : (states.map (·.version)).Nodup)

theorem appendKeys_stored (room : Mission) (hs : s ∈ states) (hauthor : s.authorId = userId)
    (hroom : s.roomId = room.id) (howner : s.ownerUserId = room.ownerUserId)
    (hversion : s.version = room.keyVersion + 1) (hmembers : s.members.keys.toFinset = (room.peopleOf true).toFinset)
    (hhistory : room.checkHistory crypto (readBody states) s.forServer = .ok ())
    (hrecipients : ∀ r ∈ s.recipients, r.userId ∈ s.members.keys) :
    room.appendKeys crypto (readBody states) (some (stored hversions s hs hauthor)) =
      .ok { room with keys := room.keys ++ [rowOf s], keyVersion := s.version } := by
  refine (ok_bind (reject_ok.mpr ?_)).trans ((ok_bind (reject_ok.mpr (not_not.mpr hmembers))).trans
    ((ok_bind hhistory).trans ((ok_bind (reject_ok.mpr ?_)).trans rfl)))
  · rintro (h | h | h)
    · exact h hroom
    · exact h howner
    · exact h hversion
  · rintro ⟨r, hr, hout⟩
    exact hout (hrecipients r hr)

theorem step_of {C : Crypto} {readBody : Bytes → Option KeyStateBody} {room room' : Mission}
    (result : Except ApiException Mission) {e : MissionEvent readBody} (h : result = .ok room')
    (he : room.next C e = some (result.toOption.getD room)) : room.Step C e room' := by
  rw [Mission.Step, he, h]
  rfl

theorem stores_first (hs : state₁ ∈ states) : (Mission.new 7 userId false).Step crypto
    (.storeKeys userId (some (stored hversions state₁ hs rfl))) room₁ := by
  have hpeople : userId ∈ (Mission.new 7 userId false).peopleOf false := List.mem_cons_self
  have hkeys : state₁.members.keys = [userId] := rfl
  have hmembers : state₁.members.keys.toFinset =
      ((Mission.new 7 userId false).peopleOf true).toFinset := by rw [hkeys]; rfl
  have hhistory : (Mission.new 7 userId false).checkHistory crypto (readBody states) state₁.forServer = .ok () := rfl
  have hrecipients : ∀ r ∈ state₁.recipients, r.userId ∈ state₁.members.keys := by
    intro r hr
    have hr : r ∈ [⟨userId, "first", "", ⟨"", ""⟩⟩] := hr
    rw [List.mem_singleton.mp hr, hkeys]
    exact List.mem_singleton_self userId
  have happend := appendKeys_stored hversions (Mission.new 7 userId false) hs rfl rfl rfl rfl hmembers hhistory
    hrecipients
  exact step_of _ ((ok_bind (reject_ok.mpr (not_not.mpr hpeople))).trans happend) rfl

theorem invites_friend (hs : invited ∈ states) (hs₁ : state₁ ∈ states) : room₁.Step crypto
    (.invite friends userId 5 friendId (some (stored hversions invited hs rfl))) room₂ := by
  have hread : readBody states bytes₁ = some state₁.forServer := readBody_ok hversions hs₁
  have hkeys : invited.members.keys = [userId, friendId] := rfl
  have hfirst : state₁.members.keys = [userId] := rfl
  have hremoved : state₁.members.keys.filter (· ∉ invited.members.keys) = [] := by
    rw [hkeys, hfirst]
    decide
  have hmembers : invited.members.keys.toFinset =
      ((room₁.addInvitation 5 friendId userId).peopleOf true).toFinset := by rw [hkeys]; rfl
  have hhistory : (room₁.addInvitation 5 friendId userId).checkHistory crypto (readBody states) invited.forServer =
      .ok () := by
    have hfound : (room₁.addInvitation 5 friendId userId).keys.find? (·.version = 1) = some (rowOf state₁) := rfl
    have hnext : (room₁.addInvitation 5 friendId userId).checkNext crypto (readBody states) invited.forServer (rowOf state₁) =
        .ok () := by
      refine (ok_bind (reject_ok.mpr ?_)).trans ((ok_bind (require_ok.mpr hread)).trans
        ((ok_bind (reject_ok.mpr fun h => h.1 rfl)).trans (reject_ok.mpr fun h => h.1 ?_)))
      · rintro (h | h | h)
        · exact h rfl
        · exact absurd h (lt_irrefl 1)
        · exact absurd h (by decide : ¬(2 : Nat) < 1)
      · exact hremoved
    have hversion : (room₁.addInvitation 5 friendId userId).keyVersion ≠ 0 := one_ne_zero
    rw [Mission.checkHistory, if_neg hversion]
    exact (ok_bind (require_ok.mpr hfound)).trans hnext
  have hrecipients : ∀ r ∈ invited.recipients, r.userId ∈ invited.members.keys := by
    intro r hr
    have hr : r ∈ [⟨userId, "first", "", ⟨"", ""⟩⟩, ⟨friendId, "phone", "", ⟨"", ""⟩⟩] := hr
    rw [hkeys]
    rcases List.mem_cons.mp hr with rfl | hr
    · exact List.mem_cons_self
    · rw [List.mem_singleton.mp hr]
      exact List.mem_cons_of_mem _ (List.mem_singleton_self friendId)
  have happend := appendKeys_stored hversions (room₁.addInvitation 5 friendId userId) hs rfl rfl rfl rfl hmembers
    hhistory hrecipients
  have hpeople : userId ∈ room₁.peopleOf false := List.mem_cons_self
  have hfriends : ¬¬friends.areFriends userId friendId := not_not.mpr (by decide)
  have hnew : ¬(friendId ∈ room₁.members ∨ friendId ∈ room₁.invitedUsers) := by rintro (h | h) <;> cases h
  refine step_of (room₁.invite crypto (readBody states) friends userId 5 friendId
    (some (stored hversions invited hs rfl))) ?_ rfl
  refine (ok_bind (reject_ok.mpr (not_not.mpr hpeople))).trans ((ok_bind (reject_ok.mpr (not_not.mpr rfl))).trans
    ((ok_bind (reject_ok.mpr nofun)).trans ((ok_bind (reject_ok.mpr hfriends)).trans ?_)))
  rw [if_neg hnew]
  refine (ok_bind (reject_ok.mpr nofun)).trans ((ok_bind (reject_ok.mpr nofun)).trans
    ((ok_bind (reject_ok.mpr (by decide))).trans ((ok_bind (reject_ok.mpr ?_)).trans happend)))
  rintro ⟨x, hx, -⟩
  cases hx

theorem friend_comes : room₂.Step crypto (.accept friends friendId 5 : MissionEvent (readBody states)) room₃ := by
  have hfound : room₂.invitations.find? (fun x => x.id = 5 ∧ x.userId = friendId) = some ⟨5, friendId, userId⟩ := by
    rfl
  have hfriends : ¬¬friends.areFriends userId friendId := not_not.mpr (by decide)
  refine step_of (room₂.acceptInvitation friends friendId 5) ?_ rfl
  refine (ok_bind (require_ok.mpr hfound)).trans ((ok_bind (reject_ok.mpr hfriends)).trans
    ((ok_bind (reject_ok.mpr ?_)).trans rfl))
  exact fun h => absurd h.2 nofun

theorem friend_goes : room₃.Step crypto (.deleteAccount friendId : MissionEvent (readBody states)) room₄ := by
  have hother : room₃.ownerUserId ≠ friendId := ids
  have hgone : room₃.members.filter (· ≠ friendId) = [] := rfl
  show room₃.deleteAccount friendId = some room₄
  rw [Mission.deleteAccount, if_neg hother, hgone]
  rfl

theorem reachable₃ (hversions : (states.map (·.version)).Nodup) (hs : invited ∈ states)
    (hs₁ : state₁ ∈ states) : room₃.Reachable crypto (readBody states) :=
  ⟨7, userId, false, _, .snoc (.snoc (.snoc .nil (stores_first hversions hs₁)) (invites_friend hversions hs hs₁))
    friend_comes⟩

theorem reachable₄ (hversions : (states.map (·.version)).Nodup) (hs : invited ∈ states)
    (hs₁ : state₁ ∈ states) : room₄.Reachable crypto (readBody states) := by
  obtain ⟨id, owner, dosi, es, hrun⟩ := reachable₃ hversions hs hs₁
  exact ⟨id, owner, dosi, _, .snoc hrun friend_goes⟩

theorem newest_invited (hversions : (states.map (·.version)).Nodup) (hs : invited ∈ states) (room : Mission)
    (hkeys : room.keys = [rowOf state₁, rowOf invited])
    (hversion : room.keyVersion = 2) : Newest (readBody states) room (rowOf invited) invited.forServer := by
  refine ⟨?_, ?_, readBody_ok hversions hs, rfl⟩
  · rw [hkeys, hversion]
    rfl
  · rw [hversion]
    rfl

end

/-- The state that the owner's device makes next, with the friend there or gone. -/
theorem next_held (h : answer = friendHere ∧ replaced = [] ∨ answer = friendGone ∧ replaced = [friendId])
    (coins : StateCoins) :
    ∃ state, nextRoomState crypto cipher (answers answer) credentials 7 held none none 3000 coins = .ok (some state) ∧
      NextOf verified₂ userId none none state := by
  obtain ⟨state, hstate⟩ := makes_next h coins
  have hidentities := memberIdentities_mem memberIdentities_invited
  exact ⟨state, hstate, nextRoomState_ok rfl hidentities hstate⟩

theorem versions_held {state : State} (h : state.version = 3) : ([state₁, invited, state].map (·.version)).Nodup := by
  have hversions : [state₁, invited, state].map (·.version) = [1, 2, 3] := by
    simp only [List.map_cons, List.map_nil, h]
    rfl
  rw [hversions]
  decide

/-- The owner's client accepts the row that the server has. -/
theorem verifies_row (room : Mission) (hid : room.id = 7) (howner : room.ownerUserId = userId)
    (hparse : parse (Wire.Plain.toVec invited.toJson) = .ok invited) :
    verifyState crypto parse 3000 (stateDto (rowOf invited).toKeyRow) room.id room.ownerUserId owner.root
      (some verified₁) = .ok verified₂ := by
  have hdto : ∀ s : State, stateDto (rowOf s).toKeyRow = owner.signs s (Wire.Plain.toVec s.toJson) := fun _ => rfl
  rw [hid, howner, hdto]
  exact verifies_invited hparse

def coins : StateCoins := ⟨List.replicate 32 7, List.replicate 12 0, fun _ => ⟨[], List.replicate 12 0⟩⟩

end Shared

/-! ### The rule -/

/-- A room takes the next keys exactly when the newest ones name nobody who is gone. -/
theorem keys_pass_iff (C : Crypto) (K : Cipher) (A : Answers) (R : Readers) (room : Mission)
    (hreachable : room.Reachable C R.readBody) (row : MissionKeyState) (body : KeyStateBody)
    (hnewest : Newest R.readBody room row body) (cached : CachedRoom) (previous : VerifiedState)
    (hcached : cached.states.getLast? = some previous) (seenMs : Nat) (anchor : Root) (before : Option VerifiedState)
    (hverified : verifyState C R.parse seenMs (stateDto row.toKeyRow) room.id room.ownerUserId anchor before =
      .ok previous)
    (credentials : Credentials) (op : RoomOperation) (hop : op.Honest room credentials.userId) (nowMs : Nat)
    (coins : StateCoins) (state : State)
    (hnext : nextRoomState C K A credentials room.id cached op.add (op.out credentials.userId) nowMs coins =
      .ok (some state))
    (keys : PreparedKeys R.readBody credentials.userId) (hkeys : R.parse keys.body = .ok state) :
    (∃ room', (op.change room credentials.userId).appendKeys C R.readBody (some keys) = .ok room') ↔
      op.NamedHere room credentials.userId body := by
  obtain ⟨happart, hsound⟩ := sound_reachable hreachable
  have hsame := sameNewest hnewest hverified
  obtain ⟨bytes, hv⟩ := verifyState_ok hverified
  have hof := nextRoomState_ok hcached (memberIdentities_mem hv.identities) hnext
  have hread : keys.state = state.forServer := R.agree hkeys keys.read
  obtain ⟨hid, howner, hversion, hrows⟩ := change_same op room credentials.userId
  obtain ⟨row', body', hnewest', hpeople⟩ := hsound hsame.versioned
  obtain ⟨rfl, rfl⟩ := hnewest.unique hnewest'
  rw [← members_eq_iff happart hop hsame.body hpeople hof]
  constructor
  · rintro ⟨room', h⟩
    obtain ⟨hzero, -⟩ | ⟨k, hk, -, hmembers, -⟩ := appendKeys_ok h
    · exact absurd (hversion.symm.trans hzero) hsame.versioned
    · obtain rfl := Option.some.inj hk
      rw [← hread]
      exact hmembers
  · intro hmembers
    have hhistory : (op.change room credentials.userId).checkHistory C R.readBody keys.state = .ok () := by
      rw [Mission.checkHistory, hversion, if_neg hsame.versioned, hrows, hread]
      exact (ok_bind (require_ok.mpr hnewest.found)).trans (checkNext_next hop hnewest hsame hof howner)
    refine ⟨_, (ok_bind (reject_ok.mpr ?_)).trans ((ok_bind (reject_ok.mpr ?_)).trans ((ok_bind hhistory).trans
      ((ok_bind (reject_ok.mpr ?_)).trans rfl)))⟩
    · rw [hread, hid, howner, hversion]
      have hroom : state.forServer.roomId = room.id := hof.roomId.trans hsame.roomId
      have hown : state.forServer.ownerUserId = room.ownerUserId := hof.owner.trans hsame.owner
      have hnumber : state.forServer.version = room.keyVersion + 1 :=
        hof.version.trans (congrArg (· + 1) hsame.version)
      simp [hroom, hown, hnumber]
    · rw [hread]
      exact not_not.mpr hmembers
    · rw [hread]
      rintro ⟨r, hr, hout⟩
      exact hout (Std.TreeMap.mem_keys.mpr (hof.recipients r hr))

open Plain Shared Identity.Plain in
/-- The owner's refresh passes while the friend is in the room. -/
theorem friend_keys_pass : ∃ (state : State) (keys : PreparedKeys (readBody [state₁, invited, state]) userId),
    (readers [state₁, invited, state]).parse keys.body = .ok state ∧
      ∃ room', room₃.appendKeys crypto (readBody [state₁, invited, state]) (some keys) = .ok room' := by
  obtain ⟨state, hstate, hnext⟩ := next_held (.inl ⟨rfl, rfl⟩) coins
  have hversions := versions_held hnext.version
  have hin : invited ∈ [state₁, invited, state] := by simp
  have hfirst : state₁ ∈ [state₁, invited, state] := by simp
  have hlast : state ∈ [state₁, invited, state] := by simp
  have hnewest := newest_invited hversions hin room₃ rfl rfl
  have hverified := verifies_row room₃ rfl rfl (reader_ok hversions hin)
  have hop : RoomOperation.refresh.Honest room₃ credentials.userId := List.mem_cons_self
  have hnamed : RoomOperation.refresh.NamedHere room₃ credentials.userId invited.forServer := by
    intro user huser
    have huser : user ∈ [userId, friendId] := huser
    exact .inl huser
  have hread : (readers [state₁, invited, state]).parse (stored hversions state hlast hnext.author).body = .ok state :=
    parse_readers hversions hlast
  exact ⟨state, _, hread, (keys_pass_iff crypto cipher (answers friendHere) (readers [state₁, invited, state]) room₃
    (reachable₃ hversions hin hfirst) (rowOf invited) invited.forServer hnewest held verified₂ rfl 3000 owner.root
    (some verified₁) hverified credentials .refresh hop 3000 coins state hstate _ hread).mpr hnamed⟩

open Plain Shared Identity.Plain in
/-- The owner's refresh once the friend's account is deleted. -/
theorem gone_keys_fail : ∃ (state : State) (keys : PreparedKeys (readBody [state₁, invited, state]) userId),
    room₄.Reachable crypto (readBody [state₁, invited, state]) ∧
      Newest (readBody [state₁, invited, state]) room₄ (rowOf invited) invited.forServer ∧
      verifyState crypto (reader [state₁, invited, state]) 3000 (stateDto (rowOf invited).toKeyRow) room₄.id
        room₄.ownerUserId owner.root (some verified₁) = .ok verified₂ ∧
      held.states.getLast? = some verified₂ ∧ RoomOperation.refresh.Honest room₄ credentials.userId ∧
      nextRoomState crypto cipher (answers friendGone) credentials room₄.id held none none 3000 coins =
        .ok (some state) ∧
      reader [state₁, invited, state] keys.body = .ok state ∧
      room₄.appendKeys crypto (readBody [state₁, invited, state]) (some keys) =
        .error (.conflict "Room membership changed; refresh before retrying.") := by
  obtain ⟨state, hstate, hnext⟩ := next_held (.inr ⟨rfl, rfl⟩) coins
  have hversions := versions_held hnext.version
  have hin : invited ∈ [state₁, invited, state] := by simp
  have hfirst : state₁ ∈ [state₁, invited, state] := by simp
  have hlast : state ∈ [state₁, invited, state] := by simp
  refine ⟨state, stored hversions state hlast hnext.author, reachable₄ hversions hin hfirst,
    newest_invited hversions hin room₄ rfl rfl, verifies_row room₄ rfl rfl (reader_ok hversions hin), rfl,
    List.mem_cons_self, hstate, reader_ok hversions hlast, ?_⟩
  have hroom : ¬(state.roomId ≠ room₄.id ∨ state.ownerUserId ≠ room₄.ownerUserId ∨
      state.version ≠ room₄.keyVersion + 1) := by
    rintro (h | h | h)
    · exact h hnext.roomId
    · exact h hnext.owner
    · exact h hnext.version
  have hmembers : state.forServer.members.toFinset ≠ (room₄.peopleOf true).toFinset := by
    intro h
    have hfriend : friendId ∈ state.forServer.members.toFinset :=
      List.mem_toFinset.mpr (Std.TreeMap.mem_keys.mpr ((hnext.members friendId).mpr ⟨.inl ?_, nofun⟩))
    · rw [h, List.mem_toFinset] at hfriend
      have hfriend : friendId ∈ [userId] := hfriend
      exact ids (List.mem_singleton.mp hfriend).symm
    · refine Std.TreeMap.mem_keys.mp ?_
      have hkeys : invited.members.keys = [userId, friendId] := rfl
      show friendId ∈ invited.members.keys
      rw [hkeys]
      exact List.mem_cons_of_mem _ (List.mem_singleton_self _)
  refine (ok_bind (reject_ok.mpr hroom)).trans ?_
  show (reject (state.forServer.members.toFinset ≠ (room₄.peopleOf true).toFinset) _ >>= fun _ => _) = _
  rw [reject, if_pos hmembers]
  rfl

end Kodosi.Rooms
