import Kodosi.Rooms.Membership

/-! The people of a room on the server, whatever the requests and the deletions of accounts: nobody is in it twice,
    everyone in it is named by the newest keys, and these name only people in it as long as nobody's account goes. -/

namespace Kodosi.Rooms
open Kodosi.Lib Kodosi.Identity

/-! ### The room on the server -/

/-- Nobody is in a room twice. -/
structure Mission.Apart (room : Mission) : Prop where
  owner : room.ownerUserId ∉ room.members
  ownerInvited : room.ownerUserId ∉ room.invitedUsers
  invited : ∀ user ∈ room.invitedUsers, user ∉ room.members
  once : room.invitedUsers.Nodup
  ids : (room.invitations.map (·.id)).Nodup
  versions : ∀ row ∈ room.keys, row.version ≤ room.keyVersion

/-- The newest key state as the server reads it. -/
structure Newest (readBody : Bytes → Option KeyStateBody) (room : Mission) (row : MissionKeyState)
    (body : KeyStateBody) : Prop where
  found : room.keys.find? (·.version = room.keyVersion) = some row
  version : row.version = room.keyVersion
  read : readBody row.body = some body
  epoch : row.epoch = body.epoch

/-- Everyone in a room is named by its newest keys. -/
structure Mission.Sound (readBody : Bytes → Option KeyStateBody) (room : Mission) : Prop where
  apart : room.Apart
  newest : room.keyVersion ≠ 0 → ∃ row body, Newest readBody room row body ∧
    ∀ user ∈ room.peopleOf true, user ∈ body.members

section

variable {C : Crypto} {readBody : Bytes → Option KeyStateBody} {room room' : Mission} {userId : String}

variable {user : String}

theorem mem_peopleOf : user ∈ room.peopleOf true ↔
    user = room.ownerUserId ∨ user ∈ room.members ∨ user ∈ room.invitedUsers := by
  simp [Mission.peopleOf, Mission.invitedUsers]

variable {keys : Option (PreparedKeys readBody userId)}

/-- What is known once a key state is stored. -/
theorem appendKeys_ok (h : room.appendKeys C readBody keys = .ok room') :
    room.keyVersion = 0 ∧ room' = room ∨ ∃ k, keys = some k ∧ k.state.version = room.keyVersion + 1 ∧
      k.state.members.toFinset = (room.peopleOf true).toFinset ∧
      room' = { room with
        keys := room.keys ++ [⟨⟨k.state.version, k.body, k.signature⟩, k.state.epoch⟩]
        keyVersion := k.state.version } := by
  cases keys with
  | none =>
    obtain ⟨_, hversion, h1⟩ := bind_ok h
    exact .inl ⟨by simpa using reject_ok.mp hversion, (Except.ok.inj h1).symm⟩
  | some k =>
    obtain ⟨_, hroom, h1⟩ := bind_ok h
    obtain ⟨_, hmembers, h2⟩ := bind_ok h1
    obtain ⟨_, _, h3⟩ := bind_ok h2
    obtain ⟨_, _, h4⟩ := bind_ok h3
    have hversion := reject_ok.mp hroom
    push Not at hversion
    exact .inr ⟨k, rfl, hversion.2.2, not_not.mp (reject_ok.mp hmembers), (Except.ok.inj h4).symm⟩

/-- However the people were before, a stored key state names them. -/
theorem sound_appendKeys (hroom : room.Apart) (h : room.appendKeys C readBody keys = .ok room') :
    room'.Sound readBody := by
  obtain ⟨hzero, rfl⟩ | ⟨k, -, hversion, hmembers, rfl⟩ := appendKeys_ok h
  · exact ⟨hroom, fun hne => absurd hzero hne⟩
  · refine ⟨⟨hroom.owner, hroom.ownerInvited, hroom.invited, hroom.once, hroom.ids, ?_⟩, fun _ => ?_⟩
    · intro row hrow
      rcases List.mem_append.mp hrow with hold | hnew
      · have := hroom.versions row hold
        show row.version ≤ k.state.version
        omega
      · obtain rfl := List.mem_singleton.mp hnew
        exact Nat.le_refl _
    · refine ⟨⟨⟨k.state.version, k.body, k.signature⟩, k.state.epoch⟩, k.state, ⟨?_, rfl, k.read, rfl⟩, ?_⟩
      · have hnone : room.keys.find? (·.version = k.state.version) = none := by
          refine List.find?_eq_none.mpr fun row hrow => ?_
          have := hroom.versions row hrow
          simp only [decide_eq_true_eq]
          omega
        show (room.keys ++ _).find? (·.version = k.state.version) = _
        rw [List.find?_append, hnone]
        simp
      · intro user huser
        have huser : user ∈ (room.peopleOf true).toFinset := List.mem_toFinset.mpr huser
        rw [← hmembers] at huser
        exact List.mem_toFinset.mp huser

/-! ### What the operations do to the people -/

variable {id : Nat}

theorem apart_addInvitation (hroom : room.Apart) {guest inviter : String} (howner : guest ≠ room.ownerUserId)
    (hmember : guest ∉ room.members) (hinvited : guest ∉ room.invitedUsers) (hid : ∀ x ∈ room.invitations, x.id ≠ id) :
    (room.addInvitation id guest inviter).Apart := by
  have husers : (room.addInvitation id guest inviter).invitedUsers = room.invitedUsers ++ [guest] := by
    simp [Mission.addInvitation, Mission.invitedUsers]
  refine ⟨hroom.owner, ?_, ?_, ?_, ?_, hroom.versions⟩
  · rw [husers, List.mem_append, List.mem_singleton]
    rintro (h | h)
    · exact hroom.ownerInvited h
    · exact howner h.symm
  · rw [husers]
    intro user huser
    rcases List.mem_append.mp huser with h | h
    · exact hroom.invited user h
    · rw [List.mem_singleton.mp h]
      exact hmember
  · rw [husers]
    exact List.nodup_append.mpr ⟨hroom.once, List.nodup_singleton _, by
      rintro a ha b hb rfl
      exact hinvited (List.mem_singleton.mp hb ▸ ha)⟩
  · show ((room.invitations ++ _).map (·.id)).Nodup
    rw [List.map_append]
    refine List.nodup_append.mpr ⟨hroom.ids, List.nodup_singleton _, ?_⟩
    rintro a ha b hb rfl
    obtain ⟨x, hx, rfl⟩ := List.mem_map.mp ha
    exact hid x hx (List.mem_singleton.mp hb)

/-- Fewer people in the room are still in it once. -/
theorem Mission.Apart.fewer (hroom : room.Apart) (howner : room'.ownerUserId = room.ownerUserId)
    (hmembers : room'.members.Sublist room.members) (hinvitations : room'.invitations.Sublist room.invitations)
    (hkeys : room'.keys = room.keys) (hversion : room'.keyVersion = room.keyVersion) : room'.Apart where
  owner h := hroom.owner (hmembers.subset (howner ▸ h))
  ownerInvited h := hroom.ownerInvited ((hinvitations.map _).subset (howner ▸ h))
  invited user huser h := hroom.invited user ((hinvitations.map _).subset huser) (hmembers.subset h)
  once := hroom.once.sublist (hinvitations.map _)
  ids := hroom.ids.sublist (hinvitations.map _)
  versions row hrow := by
    rw [hversion]
    exact hroom.versions row (hkeys ▸ hrow)

theorem apart_dropInvitation (hroom : room.Apart) (id : Nat) : (room.dropInvitation id).Apart :=
  hroom.fewer rfl (List.Sublist.refl _) List.filter_sublist rfl rfl

theorem apart_dropPerson (hroom : room.Apart) (user : String) : (room.dropPerson user).Apart :=
  hroom.fewer rfl List.filter_sublist List.filter_sublist rfl rfl

variable {invitation : MissionInvitation}

/-- The invitation of a person is the only one of the person. -/
theorem notMem_dropInvitation (hroom : room.Apart) (hmem : invitation ∈ room.invitations) :
    invitation.userId ∉ (room.dropInvitation invitation.id).invitedUsers := by
  intro h
  obtain ⟨other, hother, huser⟩ := List.mem_map.mp h
  obtain ⟨hin, hid⟩ := List.mem_filter.mp hother
  obtain rfl : other = invitation := List.inj_on_of_nodup_map hroom.once hin hmem huser
  simp at hid

theorem sound_accept (hroom : room.Sound readBody) (hmem : invitation ∈ room.invitations) :
    ((room.addMember invitation.userId).dropInvitation invitation.id).Sound readBody := by
  have hin : invitation.userId ∈ room.invitedUsers := List.mem_map_of_mem hmem
  have hnew : invitation.userId ∉ room.members := hroom.apart.invited _ hin
  have hadd : room.addMember invitation.userId = { room with members := room.members ++ [invitation.userId] } :=
    if_neg hnew
  have hdrop := apart_dropInvitation hroom.apart invitation.id
  have hout := notMem_dropInvitation hroom.apart hmem
  rw [hadd]
  refine ⟨⟨?_, hdrop.ownerInvited, ?_, hdrop.once, hdrop.ids, hdrop.versions⟩, fun hversion => ?_⟩
  · show room.ownerUserId ∉ room.members ++ [invitation.userId]
    rw [List.mem_append, List.mem_singleton]
    rintro (h | h)
    · exact hroom.apart.owner h
    · exact hroom.apart.ownerInvited (h ▸ hin)
  · intro user huser
    show user ∉ room.members ++ [invitation.userId]
    rw [List.mem_append, List.mem_singleton]
    rintro (h | rfl)
    · exact hdrop.invited user huser h
    · exact hout huser
  · obtain ⟨row, body, hnewest, hnamed⟩ := hroom.newest hversion
    refine ⟨row, body, ⟨hnewest.found, hnewest.version, hnewest.read, hnewest.epoch⟩, fun user huser => hnamed user ?_⟩
    rw [mem_peopleOf] at huser ⊢
    rcases huser with h | h | h
    · exact .inl h
    · rcases List.mem_append.mp h with h | h
      · exact .inr (.inl h)
      · exact .inr (.inr (List.mem_singleton.mp h ▸ hin))
    · exact .inr (.inr ((List.filter_sublist.map _).subset h))

theorem sound_deleteAccount (hroom : room.Sound readBody) (h : room.deleteAccount user = some room') :
    room'.Sound readBody := by
  unfold Mission.deleteAccount at h
  split at h
  · cases h
  · obtain rfl := Option.some.inj h
    refine ⟨hroom.apart.fewer rfl List.filter_sublist List.filter_sublist rfl rfl, fun hversion => ?_⟩
    obtain ⟨row, body, hnewest, hnamed⟩ := hroom.newest hversion
    refine ⟨row, body, ⟨hnewest.found, hnewest.version, hnewest.read, hnewest.epoch⟩, fun user huser => hnamed user ?_⟩
    rw [mem_peopleOf] at huser ⊢
    rcases huser with h | h | h
    · exact .inl h
    · exact .inr (.inl (List.filter_sublist.subset h))
    · exact .inr (.inr ((List.filter_sublist.map _).subset h))

variable {around : Mission.Surroundings}

/-- What is known once a person is invited. -/
theorem invite_ok {guest : String} (hroom : room.Sound readBody)
    (h : room.invite C readBody around userId id guest keys = .ok room') :
    room' = room ∨ ((room.addInvitation id guest userId).Apart ∧ room.ownerUserId = userId) ∧
      (room.addInvitation id guest userId).appendKeys C readBody keys = .ok room' := by
  obtain ⟨_, _, h1⟩ := bind_ok h
  obtain ⟨_, howner, h2⟩ := bind_ok h1
  obtain ⟨_, _, h3⟩ := bind_ok h2
  obtain ⟨_, hfriends, h4⟩ := bind_ok h3
  have howner := not_not.mp (reject_ok.mp howner)
  split at h4
  · exact .inl (Except.ok.inj h4).symm
  · rename_i hnew
    obtain ⟨_, _, h5⟩ := bind_ok h4
    obtain ⟨_, _, h6⟩ := bind_ok h5
    obtain ⟨_, _, h7⟩ := bind_ok h6
    obtain ⟨_, hid, h8⟩ := bind_ok h7
    push Not at hnew
    have hid := reject_ok.mp hid
    push Not at hid
    refine .inr ⟨⟨apart_addInvitation hroom.apart ?_ hnew.1 hnew.2 hid, howner⟩, h8⟩
    rintro rfl
    rw [← howner] at hfriends
    exact reject_ok.mp hfriends (by simp [around.irrefl])

/-- What is known once an invitation is accepted. -/
theorem accept_ok (h : room.acceptInvitation around userId id = .ok room') :
    ∃ invitation ∈ room.invitations, room' = (room.addMember invitation.userId).dropInvitation invitation.id := by
  obtain ⟨invitation, hfound, h1⟩ := bind_ok h
  obtain ⟨_, _, h2⟩ := bind_ok h1
  obtain ⟨_, _, h3⟩ := bind_ok h2
  have hfound := require_ok.mp hfound
  have huser : invitation.userId = userId := by
    have := List.find?_some hfound
    simp only [decide_eq_true_eq] at this
    exact this.2
  refine ⟨invitation, List.mem_of_find?_eq_some hfound, ?_⟩
  rw [huser]
  exact (Except.ok.inj h3).symm

/-- A request leaves the room as it is, or changes it as it says. -/
theorem ok_or_same {P : Mission → Prop} {result : Except ApiException Mission}
    (h : some (result.toOption.getD room) = some room') (hsame : P room)
    (hok : ∀ changed, result = .ok changed → P changed) : P room' := by
  obtain rfl := Option.some.inj h
  cases result with
  | error e => exact hsame
  | ok changed => exact hok changed rfl

variable {e : MissionEvent readBody}

theorem sound_step (hroom : room.Sound readBody) (h : room.Step C e room') : room'.Sound readBody := by
  cases e with
  | invite around userId id guest keys =>
    refine ok_or_same h hroom fun changed hok => ?_
    obtain hsame | ⟨happart, happend⟩ := invite_ok hroom hok
    · exact hsame ▸ hroom
    · exact sound_appendKeys happart.1 happend
  | accept around userId id =>
    refine ok_or_same h hroom fun changed hok => ?_
    obtain ⟨invitation, hmem, rfl⟩ := accept_ok hok
    exact sound_accept hroom hmem
  | refuse userId id keys =>
    refine ok_or_same h hroom fun changed hok => ?_
    obtain ⟨invitation, _, h1⟩ := bind_ok hok
    exact sound_appendKeys (apart_dropInvitation hroom.apart _) h1
  | removeMember actor userId keys =>
    refine ok_or_same h hroom fun changed hok => ?_
    obtain ⟨_, _, h1⟩ := bind_ok hok
    obtain ⟨_, _, h2⟩ := bind_ok h1
    obtain ⟨_, _, h3⟩ := bind_ok h2
    exact sound_appendKeys (apart_dropPerson hroom.apart _) h3
  | storeKeys userId keys =>
    refine ok_or_same h hroom fun changed hok => ?_
    obtain ⟨_, _, h1⟩ := bind_ok hok
    exact sound_appendKeys hroom.apart h1
  | deleteAccount user => exact sound_deleteAccount hroom h

theorem sound_new (id : Nat) (owner : String) (dosi : Bool) : (Mission.new id owner dosi).Sound readBody :=
  ⟨⟨List.not_mem_nil, List.not_mem_nil, nofun, List.nodup_nil, List.nodup_nil, nofun⟩, fun h => absurd rfl h⟩

/-- A room that was made and then changed by any requests and deletions of accounts. -/
def Mission.Reachable (C : Crypto) (readBody : Bytes → Option KeyStateBody) (room : Mission) : Prop :=
  ∃ id owner dosi, ∃ es : List (MissionEvent readBody), Run (Mission.Step C) (Mission.new id owner dosi) es room

theorem sound_reachable (h : room.Reachable C readBody) : room.Sound readBody := by
  obtain ⟨id, owner, dosi, es, hrun⟩ := h
  exact hrun.invariant (fun hs hstep => sound_step hs hstep) (sound_new id owner dosi)

/-! ### Rooms that nobody's account leaves -/

/-- The newest keys name only people who are in the room. -/
structure Mission.Kept (readBody : Bytes → Option KeyStateBody) (room : Mission) : Prop where
  inviters : ∀ x ∈ room.invitations, x.inviterUserId = room.ownerUserId
  named : room.keyVersion ≠ 0 → ∀ row body, Newest readBody room row body →
    ∀ user ∈ body.members, user ∈ room.peopleOf true

/-- A step that deletes the account of nobody in the room. -/
def Keeps (room : Mission) : MissionEvent readBody → Prop
  | .deleteAccount user => user ∉ room.peopleOf true
  | _ => True

theorem kept_appendKeys (hroom : room.Apart) (hinviters : ∀ x ∈ room.invitations, x.inviterUserId = room.ownerUserId)
    (h : room.appendKeys C readBody keys = .ok room') : room'.Kept readBody := by
  obtain ⟨hzero, rfl⟩ | ⟨k, -, hversion, hmembers, rfl⟩ := appendKeys_ok h
  · exact ⟨hinviters, fun hne => absurd hzero hne⟩
  · refine ⟨hinviters, fun _ row body hnewest user huser => ?_⟩
    have hnone : room.keys.find? (·.version = k.state.version) = none := by
      refine List.find?_eq_none.mpr fun row hrow => ?_
      have := hroom.versions row hrow
      simp only [decide_eq_true_eq]
      omega
    have hfound := hnewest.found
    dsimp only at hfound
    rw [List.find?_append, hnone] at hfound
    obtain rfl : _ = row := by simpa using hfound
    obtain rfl : k.state = body := Option.some.inj (k.read.symm.trans hnewest.read)
    exact List.mem_toFinset.mp (hmembers ▸ List.mem_toFinset.mpr huser)

theorem Newest.of_keys {row : MissionKeyState} {body : KeyStateBody} (h : Newest readBody room' row body)
    (hkeys : room'.keys = room.keys) (hversion : room'.keyVersion = room.keyVersion) : Newest readBody room row body :=
  ⟨by rw [← hkeys, ← hversion]; exact h.found, by rw [← hversion]; exact h.version, h.read, h.epoch⟩

theorem kept_accept (hroom : room.Sound readBody) (hkept : room.Kept readBody) (hmem : invitation ∈ room.invitations) :
    ((room.addMember invitation.userId).dropInvitation invitation.id).Kept readBody := by
  have hnew : invitation.userId ∉ room.members := hroom.apart.invited _ (List.mem_map_of_mem hmem)
  have hadd : room.addMember invitation.userId = { room with members := room.members ++ [invitation.userId] } :=
    if_neg hnew
  rw [hadd]
  refine ⟨fun x hx => hkept.inviters x (List.mem_filter.mp hx).1, fun hversion row body hnewest user huser => ?_⟩
  have hold := hkept.named hversion row body (hnewest.of_keys rfl rfl) user huser
  rw [mem_peopleOf] at hold ⊢
  rcases hold with h | h | h
  · exact .inl h
  · exact .inr (.inl (List.mem_append_left _ h))
  · obtain ⟨x, hx, rfl⟩ := List.mem_map.mp h
    by_cases hid : x.id = invitation.id
    · obtain rfl := List.inj_on_of_nodup_map hroom.apart.ids hx hmem hid
      exact .inr (.inl (List.mem_append_right _ (List.mem_singleton_self _)))
    · exact .inr (.inr (List.mem_map_of_mem (List.mem_filter.mpr ⟨hx, decide_eq_true hid⟩)))

theorem kept_deleteAccount (hkept : room.Kept readBody) (hout : user ∉ room.peopleOf true)
    (h : room.deleteAccount user = some room') : room'.Kept readBody := by
  unfold Mission.deleteAccount at h
  split at h
  · cases h
  · obtain rfl := Option.some.inj h
    rw [mem_peopleOf] at hout
    push Not at hout
    have hinvitations : room.invitations.filter (fun x => x.userId ≠ user ∧ x.inviterUserId ≠ user) =
        room.invitations := by
      refine List.filter_eq_self.mpr fun x hx => decide_eq_true ⟨?_, ?_⟩
      · rintro rfl
        exact hout.2.2 (List.mem_map_of_mem hx)
      · rw [hkept.inviters x hx]
        exact hout.1.symm
    have hmembers : room.members.filter (· ≠ user) = room.members :=
      List.filter_eq_self.mpr fun x hx => decide_eq_true fun h => hout.2.1 (h ▸ hx)
    rw [hinvitations, hmembers]
    exact hkept

theorem kept_step (hroom : room.Sound readBody) (hkept : room.Kept readBody) (hkeeps : Keeps room e)
    (h : room.Step C e room') : room'.Kept readBody := by
  cases e with
  | invite around userId id guest keys =>
    refine ok_or_same h hkept fun changed hok => ?_
    obtain hsame | ⟨happart, happend⟩ := invite_ok hroom hok
    · exact hsame ▸ hkept
    · refine kept_appendKeys happart.1 ?_ happend
      intro x hx
      rcases List.mem_append.mp hx with hx | hx
      · exact hkept.inviters x hx
      · rw [List.mem_singleton.mp hx]
        exact happart.2.symm
  | accept around userId id =>
    refine ok_or_same h hkept fun changed hok => ?_
    obtain ⟨invitation, hmem, rfl⟩ := accept_ok hok
    exact kept_accept hroom hkept hmem
  | refuse userId id keys =>
    refine ok_or_same h hkept fun changed hok => ?_
    obtain ⟨invitation, _, h1⟩ := bind_ok hok
    exact kept_appendKeys (apart_dropInvitation hroom.apart _)
      (fun x hx => hkept.inviters x (List.mem_filter.mp hx).1) h1
  | removeMember actor userId keys =>
    refine ok_or_same h hkept fun changed hok => ?_
    obtain ⟨_, _, h1⟩ := bind_ok hok
    obtain ⟨_, _, h2⟩ := bind_ok h1
    obtain ⟨_, _, h3⟩ := bind_ok h2
    exact kept_appendKeys (apart_dropPerson hroom.apart _) (fun x hx => hkept.inviters x (List.mem_filter.mp hx).1) h3
  | storeKeys userId keys =>
    refine ok_or_same h hkept fun changed hok => ?_
    obtain ⟨_, _, h1⟩ := bind_ok hok
    exact kept_appendKeys hroom.apart hkept.inviters h1
  | deleteAccount user => exact kept_deleteAccount hkept hkeeps h

end

end Kodosi.Rooms
