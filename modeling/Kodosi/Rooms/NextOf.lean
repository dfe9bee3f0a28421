import Kodosi.Rooms.NextState
import Kodosi.Rooms.Verified

/-! The next state that a client builds: its people are those of the state before, with the one who comes in and
    without the one who goes, whatever the server and the pins answer about them. -/

namespace Kodosi.Rooms
open Kodosi.Lib Kodosi.Identity

/-! ### The people of the next state -/

/-- The people of a standing are those of the state before, and those of a list. -/
structure Standing.Of (previous : VerifiedState) (users : List String) (standing : Standing) : Prop where
  kept : ∀ user ∈ previous.state.members, user ∈ standing.members
  known : ∀ user ∈ standing.members, user ∈ previous.state.members ∨ user ∈ users
  identified : ∀ user ∈ standing.identities, user ∈ standing.members
  replaced : ∀ user ∈ standing.replaced, user ∈ users

section

variable {C : Crypto} {A : Answers} {me : String} {previous : VerifiedState} {standing : Standing}
  {users : List String}

theorem Standing.Of.more (h : standing.Of previous users) (more : List String) : standing.Of previous (users ++ more) :=
  ⟨h.kept, fun user hu => (h.known user hu).imp_right (List.mem_append_left _), h.identified,
    fun user hu => List.mem_append_left _ (h.replaced user hu)⟩

theorem mem_insert_iff {ν : Type} {m : Map ν} {k a : String} {v : ν} : a ∈ m.insert k v ↔ k = a ∨ a ∈ m := by
  rw [Std.TreeMap.mem_insert, compare_eq_iff_eq]

/-- A person comes in with any bundle. -/
theorem Standing.Of.insert (h : standing.Of previous users) (user : String) (bundle : IdentityBundle)
    (identity : VerifiedIdentity) : (standing.insert user bundle identity).Of previous (users ++ [user]) := by
  refine ⟨fun u hu => ?_, fun u hu => ?_, fun u hu => ?_, (h.more [user]).replaced⟩
  · exact mem_insert_iff.mpr (.inr (h.kept u hu))
  · rcases mem_insert_iff.mp hu with rfl | hu
    · exact .inr (List.mem_append_right _ (List.mem_singleton_self _))
    · exact (h.more [user]).known u hu
  · rcases mem_insert_iff.mp hu with rfl | hu
    · exact mem_insert_iff.mpr (.inl rfl)
    · exact mem_insert_iff.mpr (.inr (h.identified u hu))

theorem Standing.Of.replace (h : standing.Of previous users) (user : String) :
    ({ standing with replaced := standing.replaced ++ [user] } : Standing).Of previous (users ++ [user]) := by
  refine ⟨h.kept, (h.more [user]).known, h.identified, fun u hu => ?_⟩
  rcases List.mem_append.mp hu with hu | hu
  · exact (h.more [user]).replaced u hu
  · exact List.mem_append_right _ hu

variable {standing' : Standing}

theorem Standing.Of.member {atMs : Nat} {entry : String × IdentityBundle} (h : standing.Of previous users)
    (hok : standing.member C A me previous atMs entry = .ok standing') :
    standing'.Of previous (users ++ [entry.1]) := by
  unfold Standing.member at hok
  split at hok
  · unfold Standing.join at hok
    split at hok
    · obtain rfl := Except.ok.inj hok
      exact h.more _
    · obtain ⟨root, _, h1⟩ := bind_ok hok
      split at h1
      · obtain rfl := Except.ok.inj h1
        exact h.replace _
      · split at h1
        · obtain rfl := Except.ok.inj h1
          exact h.insert _ _ _
        · split at h1
          · cases h1
          · obtain rfl := Except.ok.inj h1
            exact h.more _
  · obtain rfl := Except.ok.inj hok
    exact h.more _
  · obtain rfl := Except.ok.inj hok
    exact h.replace _
  · obtain rfl := Except.ok.inj hok
    exact h.replace _
  · cases hok

theorem roomStanding_of {atMs : Nat} (hidentities : ∀ user ∈ previous.identities, user ∈ previous.state.members)
    (hok : roomStanding C A me previous atMs = .ok standing) : standing.Of previous previous.state.members.keys := by
  have hstart : (⟨previous.state.members, previous.identities, []⟩ : Standing).Of previous [] :=
    ⟨fun _ h => h, fun _ h => .inl h, hidentities, nofun⟩
  have hall := foldlM_ok (I := fun d s => Standing.Of previous (d.map Prod.fst) s)
    (fun hs hstep => by
      rw [List.map_append]
      exact hs.member hstep) (d := []) hstart hok
  rwa [List.nil_append, Std.TreeMap.map_fst_toList_eq_keys] at hall

variable {remove : Option String}

theorem returnMembers_of {returned : Bool} (h : standing.Of previous users)
    (hok : returnMembers A remove standing = .ok (standing', returned)) :
    standing'.Of previous (users ++ standing.replaced) := by
  have hstart : standing.Of previous (users ++ []) := h.more []
  exact foldlM_ok (I := fun d (p : Standing × Bool) => p.1.Of previous (users ++ d))
    (fun {d user p p'} hs hstep => by
      obtain ⟨s, r⟩ := p
      rw [← List.append_assoc]
      dsimp only at hstep
      split at hstep
      · obtain rfl := Except.ok.inj hstep
        exact hs.more _
      · split at hstep
        · obtain rfl := Except.ok.inj hstep
          rename_i bundle identity _
          have hin := hs.insert user bundle identity
          exact ⟨hin.kept, hin.known, hin.identified, fun u hu => hin.replaced u (List.mem_filter.mp hu).1⟩
        · split at hstep
          · cases hstep
          · obtain rfl := Except.ok.inj hstep
            exact hs.more _) (d := []) hstart hok

/-- The people of the next state. -/
structure Standing.Next (previous : VerifiedState) (add remove : Option String) (standing : Standing) : Prop where
  members : ∀ user, user ∈ standing.members ↔ (user ∈ previous.state.members ∨ add = some user) ∧ remove ≠ some user
  identified : ∀ user ∈ standing.identities, user ∈ standing.members

variable {add : Option String}

theorem nextStanding_next {created : Nat} {returned : Bool}
    (hidentities : ∀ user ∈ previous.identities, user ∈ previous.state.members)
    (hok : nextStanding C A me previous created add remove = .ok (standing, returned)) :
    standing.Next previous add remove := by
  obtain ⟨first, hfirst, h1⟩ := bind_ok hok
  have hof := roomStanding_of hidentities hfirst
  obtain ⟨⟨second, back⟩, hsecond, h2⟩ := bind_ok h1
  have hof' : second.Of previous (previous.state.members.keys ++ first.replaced) := by
    unfold returnByOwner at hsecond
    split at hsecond
    · exact returnMembers_of hof hsecond
    · obtain ⟨rfl, rfl⟩ := Prod.mk.inj (Except.ok.inj hsecond)
      exact hof.more _
  have hold : ∀ user ∈ previous.state.members.keys ++ first.replaced, user ∈ previous.state.members := by
    intro user huser
    rcases List.mem_append.mp huser with h | h
    · exact Std.TreeMap.mem_keys.mp h
    · exact Std.TreeMap.mem_keys.mp (hof.replaced user h)
  obtain ⟨third, hthird, h3⟩ := bind_ok h2
  have hmembers : (∀ user, user ∈ third.members ↔ user ∈ previous.state.members ∨ add = some user) ∧
      ∀ user ∈ third.identities, user ∈ third.members := by
    cases add with
    | none =>
      obtain rfl := Except.ok.inj hthird
      refine ⟨fun user => ⟨fun h => .inl ?_, ?_⟩, hof'.identified⟩
      · exact (hof'.known user h).elim id (hold user)
      · rintro (h | h)
        · exact hof'.kept user h
        · cases h
    | some guest =>
      obtain ⟨⟨bundle, identity⟩, _, h4⟩ := bind_ok hthird
      obtain rfl := Except.ok.inj h4
      have hin := hof'.insert guest bundle identity
      refine ⟨fun user => ⟨fun h => ?_, ?_⟩, hin.identified⟩
      · rcases mem_insert_iff.mp h with rfl | h
        · exact .inr rfl
        · exact .inl ((hof'.known user h).elim id (hold user))
      · rintro (h | h)
        · exact hin.kept user h
        · exact mem_insert_iff.mpr (.inl (Option.some.inj h))
  cases remove with
  | none =>
    obtain ⟨rfl, rfl⟩ := Prod.mk.inj (Except.ok.inj h3)
    exact ⟨fun user => by simp [hmembers.1], hmembers.2⟩
  | some gone =>
    obtain ⟨rfl, rfl⟩ := Prod.mk.inj (Except.ok.inj h3)
    have herase : ∀ {ν : Type} {m : Map ν} {a : String}, a ∈ m.erase gone ↔ gone ≠ a ∧ a ∈ m := by
      intro ν m a
      rw [Std.TreeMap.mem_erase, ne_eq, ne_eq, compare_eq_iff_eq]
    refine ⟨fun user => ?_, fun user huser => ?_⟩
    · show user ∈ third.members.erase gone ↔ _
      rw [herase, hmembers.1]
      simp [and_comm]
    · obtain ⟨hne, hin⟩ := herase.mp huser
      exact herase.mpr ⟨hne, hmembers.2 user hin⟩

theorem faults_ok {α : Type} {x : Except Error α} {a : α} (h : faults x = .ok a) : x = .ok a := by
  cases x with
  | error e => cases h
  | ok b => exact congrArg Except.ok (Except.ok.inj h)

theorem mapM_ok {α β ε : Type} {f : α → Except ε β} : ∀ {as : List α} {bs : List β}, as.mapM f = .ok bs →
    ∀ b ∈ bs, ∃ a ∈ as, f a = .ok b
  | [], bs, h, b, hb => by
    obtain rfl := Except.ok.inj h
    cases hb
  | a :: as, bs, h, b, hb => by
    rw [List.mapM_cons] at h
    obtain ⟨b', hb', h1⟩ := bind_ok h
    obtain ⟨bs', hbs', h2⟩ := bind_ok h1
    obtain rfl := Except.ok.inj h2
    rcases List.mem_cons.mp hb with rfl | hb
    · exact ⟨a, List.mem_cons_self, hb'⟩
    · obtain ⟨a', ha', hfa'⟩ := mapM_ok hbs' b hb
      exact ⟨a', List.mem_cons_of_mem _ ha', hfa'⟩

theorem recipientKey_user {user : String} {identity : VerifiedIdentity} {key found : RecipientKey}
    (h : recipientKey C user identity key = .ok (some found)) : found.userId = user := by
  obtain ⟨_, huser, h1⟩ := bind_ok h
  have huser := not_not.mp (reject_ok.mp huser)
  split at h1
  · cases h1
  · obtain ⟨publicKey, _, h2⟩ := bind_ok h1
    split at h2
    · cases h2
    · obtain ⟨preimage, _, h3⟩ := bind_ok h2
      obtain ⟨signature, _, h4⟩ := bind_ok h3
      obtain ⟨_, _, h5⟩ := bind_ok h4
      obtain rfl := Option.some.inj (Except.ok.inj h5)
      exact huser

variable {recipients : List RecipientKey}

/-- The keys of the next state are for its people. -/
theorem roomRecipients_users (hok : roomRecipients C A standing = .ok recipients) :
    ∀ r ∈ recipients, r.userId ∈ standing.identities := by
  have hall := foldlM_ok (I := fun d (found : List RecipientKey) => ∀ r ∈ found, r.userId ∈ d.map Prod.fst)
    (fun {d entry found found'} hs hstep => by
      obtain ⟨user, identity⟩ := entry
      intro r hr
      rw [List.map_append, List.mem_append]
      dsimp only at hstep
      split at hstep
      · obtain rfl := Except.ok.inj hstep
        exact .inl (hs r hr)
      · obtain ⟨keys, _, h1⟩ := bind_ok hstep
        obtain ⟨mine, hmine, h2⟩ := bind_ok h1
        obtain rfl := Except.ok.inj h2
        rcases List.mem_append.mp hr with hr | hr
        · exact .inl (hs r hr)
        · obtain ⟨key, -, hkey⟩ := mapM_ok (faults_ok hmine) (some r) (List.reduceOption_mem_iff.mp hr)
          exact .inr (List.mem_singleton.mpr (recipientKey_user hkey))) (d := [])
    (fun r hr => absurd hr List.not_mem_nil) hok
  intro r hr
  have huser := hall r hr
  rw [List.nil_append, Std.TreeMap.map_fst_toList_eq_keys] at huser
  exact Std.TreeMap.mem_keys.mp huser

theorem wrapRoomState_ok {K : Cipher} {state state' : State} {key : Secret} {coins : Nat → Coins}
    (h : wrapRoomState K state recipients key coins = .ok state') :
    ∃ wrapped : List Recipient, state' = { state with recipients := wrapped } ∧
      ∀ r ∈ wrapped, ∃ recipient ∈ recipients, r.userId = recipient.userId := by
  obtain ⟨wrapped, hwrapped, h1⟩ := bind_ok h
  refine ⟨wrapped, (Except.ok.inj h1).symm, fun r hr => ?_⟩
  obtain ⟨⟨recipient, n⟩, hmem, hone⟩ := mapM_ok hwrapped r hr
  obtain ⟨publicKey, _, h2⟩ := bind_ok hone
  obtain ⟨_, _, h3⟩ := bind_ok h2
  obtain ⟨context, _, h4⟩ := bind_ok h3
  obtain ⟨⟨ciphertext, derived⟩, _, h5⟩ := bind_ok h4
  obtain ⟨sealed, _, h6⟩ := bind_ok h5
  obtain rfl := Except.ok.inj h6
  exact ⟨recipient, List.fst_mem_of_mem_zipIdx hmem, rfl⟩

/-- What the next state has to do with the one before. -/
structure NextOf (previous : VerifiedState) (me : String) (add remove : Option String) (state : State) : Prop where
  roomId : state.roomId = previous.state.roomId
  owner : state.ownerUserId = previous.state.ownerUserId
  author : state.authorId = me
  version : state.version = previous.state.version + 1
  hash : state.previousHash = previous.hash
  members : ∀ user, user ∈ state.members ↔ (user ∈ previous.state.members ∨ add = some user) ∧ remove ≠ some user
  recipients : ∀ r ∈ state.recipients, r.userId ∈ state.members
  epoch : state.epoch = previous.state.epoch + 1 ∨ state.epoch = previous.state.epoch ∧ remove = none

theorem nextRoomState_ok {K : Cipher} {credentials : Credentials} {room nowMs : Nat} {cached : CachedRoom}
    {coins : StateCoins} {state : State} (hprevious : cached.states.getLast? = some previous)
    (hidentities : ∀ user ∈ previous.identities, user ∈ previous.state.members)
    (hok : nextRoomState C K A credentials room cached add remove nowMs coins = .ok (some state)) :
    NextOf previous credentials.userId add remove state := by
  obtain ⟨newest, hnewest, h1⟩ := bind_ok hok
  obtain rfl : newest = previous := Option.some.inj ((require_ok.mp hnewest).symm.trans hprevious)
  obtain ⟨priorKey, _, h2⟩ := bind_ok h1
  obtain ⟨⟨standing, returned⟩, hstanding, h3⟩ := bind_ok h2
  have hnext := nextStanding_next hidentities hstanding
  obtain ⟨recipients, hrecipients, h4⟩ := bind_ok h3
  have husers := roomRecipients_users hrecipients
  have hfor : ∀ {wrapped : List Recipient}, (∀ r ∈ wrapped, ∃ recipient ∈ recipients, r.userId = recipient.userId) →
      ∀ r ∈ wrapped, r.userId ∈ standing.members := by
    intro wrapped hwrapped r hr
    obtain ⟨recipient, hin, huser⟩ := hwrapped r hr
    rw [huser]
    exact hnext.identified _ (husers recipient hin)
  dsimp only at h4
  split at h4
  · cases h4
  · split at h4
    · obtain ⟨previousKey, _, h5⟩ := bind_ok h4
      obtain ⟨wrappedState, hwrapped, h6⟩ := bind_ok h5
      obtain rfl := Option.some.inj (Except.ok.inj h6)
      obtain ⟨wrapped, rfl, hwraps⟩ := wrapRoomState_ok (faults_ok hwrapped)
      exact ⟨rfl, rfl, rfl, rfl, rfl, hnext.members, hfor hwraps, .inl rfl⟩
    · rename_i hsame
      obtain ⟨wrappedState, hwrapped, h6⟩ := bind_ok h4
      obtain rfl := Option.some.inj (Except.ok.inj h6)
      obtain ⟨wrapped, rfl, hwraps⟩ := wrapRoomState_ok (faults_ok hwrapped)
      refine ⟨rfl, rfl, rfl, rfl, rfl, hnext.members, hfor hwraps, .inr ⟨rfl, ?_⟩⟩
      push Not at hsame
      simpa using hsame.1

end

end Kodosi.Rooms
