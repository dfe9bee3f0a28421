import Kodosi.Identity.FriendLists
import Kodosi.Lib.Run
import Kodosi.Wire.Stream

/-! What the devices of an account do to its list of friends, whatever the order: as long as the signers are approved,
    each list is what the changes before it make of the empty one. A call that was overtaken on its own device takes
    the device back to an older list, and a device that knows no friends puts an empty list over one that it does not
    take. -/

namespace Kodosi.Identity
open Kodosi.Lib

variable {J : JsonText} {user : String} {a : Account}

/-! ### Lists that follow from the changes -/

/-- What changes make of the empty list. -/
def changed (changes : List Change) : Friends := changes.foldl (fun friends change => (change friends).1) ∅

/-- The friends of the server's list with that revision. -/
def Base (lists : List FriendList) (revision : Nat) (friends : Friends) : Prop :=
  (revision = 0 ∧ friends = ∅) ∨ ∃ l ∈ lists, l.revision = revision ∧ friends = l.friends

/-- What a call has read is a list of the server, and what it puts is its change of such a list. -/
def Call.Fine (lists : List FriendList) (c : Call) : Prop :=
  match c.phase with
  | .reading => True
  | .asking kept => ∀ l, kept = some l → l ∈ lists
  | .checking kept stored => stored ∈ lists ∧ keptRevision kept ≤ stored.revision
  | .keeping stored => stored ∈ lists
  | .putting list expected cause => cause = .wanted ∧ expected < list.revision ∧
      ∃ friends, Base lists expected friends ∧ list.friends = (c.goal.applied friends).1
  | .storing list cause => list ∈ lists ∧ cause = .wanted

structure Account.Agreed (a : Account) : Prop where
  rising : a.lists.Pairwise (·.revision < ·.revision)
  positive : ∀ l ∈ a.lists, 0 < l.revision
  kept : ∀ (device : String) (l : FriendList), a.kept device = some l → l ∈ a.lists
  calls : ∀ (id : Nat) (c : Call), a.calls id = some c → c.Fine a.lists
  changes : a.changes.length = a.lists.length
  follow : ∀ (i : Nat) (l : FriendList), a.lists[i]? = some l → l.friends = changed (a.changes.take (i + 1))

variable {lists : List FriendList}

theorem Base.more {revision : Nat} {friends : Friends} (h : Base lists revision friends) (l : FriendList) :
    Base (lists ++ [l]) revision friends := by
  rcases h with h | ⟨m, hm, h⟩
  · exact .inl h
  · exact .inr ⟨m, List.mem_append_left _ hm, h⟩

theorem Call.Fine.more {c : Call} (h : c.Fine lists) (l : FriendList) : c.Fine (lists ++ [l]) := by
  obtain ⟨device, goal, phase⟩ := c
  cases phase with
  | reading => trivial
  | asking kept => exact fun m hm => List.mem_append_left _ (h m hm)
  | checking kept stored => exact ⟨List.mem_append_left _ h.1, h.2⟩
  | keeping stored => exact List.mem_append_left _ h
  | putting list expected cause =>
    obtain ⟨hcause, hlt, friends, hbase, happlied⟩ := h
    exact ⟨hcause, hlt, friends, hbase.more l, happlied⟩
  | storing list cause => exact ⟨List.mem_append_left _ h.1, h.2⟩

/-- The newest revision is the largest. -/
theorem revision_le (h : lists.Pairwise (·.revision < ·.revision)) {l : FriendList} (hl : l ∈ lists) :
    l.revision ≤ keptRevision lists.getLast? := by
  obtain ⟨init, last, rfl⟩ := (List.eq_nil_or_concat' lists).resolve_left (List.ne_nil_of_mem hl)
  rw [List.getLast?_concat]
  rcases List.mem_append.mp hl with hl | hl
  · exact ((List.pairwise_append.mp h).2.2 l hl last (List.mem_singleton_self _)).le
  · obtain rfl := List.mem_singleton.mp hl
    exact Nat.le_refl _

/-- Of the newest revision there is one list. -/
theorem base_last (hrising : lists.Pairwise (·.revision < ·.revision)) (hpositive : ∀ l ∈ lists, 0 < l.revision)
    {friends : Friends} (h : Base lists (keptRevision lists.getLast?) friends) :
    friends = friendsOf lists.getLast? := by
  rcases List.eq_nil_or_concat' lists with rfl | ⟨init, last, rfl⟩
  · rcases h with ⟨-, rfl⟩ | ⟨l, hl, -⟩
    · rfl
    · exact absurd hl List.not_mem_nil
  · rw [List.getLast?_concat] at h ⊢
    have hlast : 0 < last.revision := hpositive last (List.mem_append_right _ (List.mem_singleton_self _))
    rcases h with ⟨hzero, -⟩ | ⟨l, hl, hrevision, rfl⟩
    · exact absurd (show last.revision = 0 from hzero) (by omega)
    · rcases List.mem_append.mp hl with hl | hl
      · have hlt := (List.pairwise_append.mp hrising).2.2 l hl last (List.mem_singleton_self _)
        exact absurd (show l.revision = last.revision from hrevision) (by omega)
      · obtain rfl := List.mem_singleton.mp hl
        rfl

namespace Account

namespace Agreed

variable {id : Nat} {call : Call}

theorem goto {phase : Phase} (h : a.Agreed) (hfine : Call.Fine a.lists { call with phase }) :
    (a.goto id call phase).Agreed := by
  refine ⟨h.rising, h.positive, h.kept, fun id' c hc => ?_, h.changes, h.follow⟩
  by_cases hid : id' = id
  · subst hid
    obtain rfl := Option.some.inj ((Function.update_self id' _ a.calls).symm.trans hc)
    exact hfine
  · exact h.calls id' c ((Function.update_of_ne hid _ a.calls).symm.trans hc)

theorem finish (h : a.Agreed) : (a.finish id).Agreed := by
  refine ⟨h.rising, h.positive, h.kept, fun id' c hc => ?_, h.changes, h.follow⟩
  by_cases hid : id' = id
  · subst hid
    exact absurd ((Function.update_self id' _ a.calls).symm.trans hc) nofun
  · exact h.calls id' c ((Function.update_of_ne hid _ a.calls).symm.trans hc)

variable {list : FriendList}

theorem keep (h : a.Agreed) {device : String} (hlist : list ∈ a.lists) : (a.keep device list).Agreed := by
  refine ⟨h.rising, h.positive, fun device' l hl => ?_, h.calls, h.changes, h.follow⟩
  by_cases hdevice : device' = device
  · subst hdevice
    obtain rfl := Option.some.inj ((Function.update_self device' _ a.kept).symm.trans hl)
    exact hlist
  · exact h.kept device' l ((Function.update_of_ne hdevice _ a.kept).symm.trans hl)

theorem putFriends {revision expected : Nat} {friends : Friends} (h : a.Agreed) (hlt : expected < revision)
    (hbase : Base a.lists expected friends) (happlied : list.friends = (call.goal.applied friends).1) :
    (putFriends J id call list revision expected .wanted a).Agreed := by
  unfold Account.putFriends
  simp only
  split
  · exact h.finish
  · exact h.goto ⟨rfl, hlt, friends, hbase, happlied⟩

theorem synced {stored : Nat} (h : a.Agreed) (hbase : Base a.lists stored list.friends) :
    (synced J id call list stored a).Agreed := by
  unfold Account.synced
  split
  · exact h.finish
  · rename_i change tries hgoal
    split
    · exact h.putFriends (by omega) hbase (by rw [hgoal]; rfl)
    · exact h.finish
  · rename_i hgoal
    split
    · exact h.putFriends (by omega) hbase (by rw [hgoal]; rfl)
    · exact h.finish

variable {kept : Option FriendList}

theorem answered {answer : Option FriendList} (h : a.Agreed) (hkept : ∀ l, kept = some l → l ∈ a.lists)
    (hanswer : answer = a.lists.getLast?) :
    (answered J user id call kept a answer).Agreed := by
  cases answer with
  | none =>
    have hlists : a.lists = [] := List.getLast?_eq_none_iff.mp hanswer.symm
    obtain rfl : kept = none := by
      cases kept with
      | none => rfl
      | some l => exact absurd (hlists ▸ hkept l rfl) List.not_mem_nil
    exact h.synced (.inl ⟨rfl, rfl⟩)
  | some stored =>
    have hstored : stored ∈ a.lists := List.mem_of_getLast? hanswer.symm
    refine h.goto ⟨hstored, ?_⟩
    cases kept with
    | none => exact Nat.zero_le _
    | some l =>
      have hle := revision_le h.rising (hkept l rfl)
      rw [← hanswer] at hle
      exact hle

theorem check {stored : FriendList} (h : a.Agreed) (hstored : stored ∈ a.lists)
    (hle : keptRevision kept ≤ stored.revision) (happroved : stored.signerDeviceId ∈ a.approved) :
    (check J user id call kept stored a).Agreed := by
  have htaken : (decide (stored.signerDeviceId ∈ a.approved) && decide (keptRevision kept ≤ stored.revision)) = true := by
    rw [decide_eq_true happroved, decide_eq_true hle]
    rfl
  unfold Account.check
  simp only [htaken, if_true]
  exact goto ⟨h.rising, h.positive, h.kept, h.calls, h.changes, h.follow⟩ hstored

/-- A list that the server takes follows from the newest one. -/
theorem took {friends : Friends} {cause : Cause} (h : a.Agreed) (hlt : keptRevision a.lists.getLast? < list.revision)
    (hbase : Base a.lists (keptRevision a.lists.getLast?) friends)
    (happlied : list.friends = (call.goal.applied friends).1) : (a.took call list cause).Agreed := by
  have hfriends := base_last h.rising h.positive hbase
  refine ⟨?_, ?_, fun device l hl => List.mem_append_left _ (h.kept device l hl),
    fun id' c hc => (h.calls id' c hc).more list, ?_, ?_⟩
  · refine List.pairwise_append.mpr ⟨h.rising, List.pairwise_singleton _ _, fun l hl m hm => ?_⟩
    obtain rfl := List.mem_singleton.mp hm
    exact (revision_le h.rising hl).trans_lt hlt
  · intro l hl
    rcases List.mem_append.mp hl with hl | hl
    · exact h.positive l hl
    · obtain rfl := List.mem_singleton.mp hl
      omega
  · show (a.changes ++ [_]).length = (a.lists ++ [list]).length
    rw [List.length_append, List.length_append, h.changes]
    rfl
  · intro i l hl
    have hl : (a.lists ++ [list])[i]? = some l := hl
    show l.friends = changed ((a.changes ++ [call.goal.applied]).take (i + 1))
    by_cases hi : i < a.lists.length
    · rw [List.getElem?_append_left hi] at hl
      rw [List.take_append_of_le_length (by rw [h.changes]; exact hi)]
      exact h.follow i l hl
    · -- The new list is the last, and all changes lead to it.
      have hone : i = a.lists.length := by
        have := (List.getElem?_eq_some_iff.mp hl).1
        rw [List.length_append, List.length_singleton] at this
        omega
      subst hone
      obtain rfl : list = l := by simpa using hl
      have hall : (a.changes ++ [call.goal.applied]).length ≤ a.lists.length + 1 := by
        rw [List.length_append, h.changes]
        exact Nat.le_refl _
      rw [List.take_of_length_le hall, changed, List.foldl_append]
      show _ = (call.goal.applied (changed a.changes)).1
      rw [happlied, hfriends]
      congr 2
      rcases List.eq_nil_or_concat' a.lists with hnil | ⟨init, last, hlast⟩
      · have hchanges : a.changes = [] := List.length_eq_zero_iff.mp (by rw [h.changes, hnil]; rfl)
        rw [hnil, hchanges]
        rfl
      · have hfollow := h.follow init.length last (by rw [hlast]; simp)
        rw [List.take_of_length_le (by rw [h.changes, hlast]; simp)] at hfollow
        rw [hlast, List.getLast?_concat]
        exact hfollow

theorem put {expected : Nat} {cause : Cause} {lost : Bool} (h : a.Agreed)
    (hcall : Call.Fine a.lists { call with phase := .putting list expected cause }) :
    (put id call list expected cause lost a).Agreed := by
  obtain ⟨rfl, hlt, friends, hbase, happlied⟩ := hcall
  unfold Account.put
  split
  · rename_i lists hok
    have hexpected : keptRevision a.lists.getLast? = expected := by
      unfold replaceSignedList at hok
      split at hok
      · cases hok
      · split at hok
        · cases hok
        · rename_i heq
          exact not_not.mp heq
    have htook : (a.took call list .wanted).Agreed := h.took (hexpected ▸ hlt) (hexpected ▸ hbase) happlied
    simp only
    split
    · exact htook.finish
    · exact htook.goto ⟨List.mem_append_right _ (List.mem_singleton_self _), rfl⟩
  · exact h.finish
  · split
    · exact h.goto trivial
    · exact h.finish

end Agreed

/-- Every signer is approved. -/
def Approved (a : Account) : Prop := ∀ l ∈ a.lists, l.signerDeviceId ∈ a.approved

/-- A step of an account whose signers are approved, with a server that answers with its newest list. -/
def Trusted (a : Account) (e : FriendEvent) : Prop :=
  a.Approved ∧ match e with
    | .answer _ place => a.lists[place]? = a.lists.getLast?
    | _ => True

variable {id : Nat}

theorem agreed_turn {f : Call → Account} (h : a.Agreed) (hf : ∀ c, a.calls id = some c → (f c).Agreed) :
    (a.turn id f).Agreed := by
  unfold turn
  cases hc : a.calls id with
  | none => exact h
  | some c => exact hf c hc

theorem agreed_step {e : FriendEvent} (h : a.Agreed) (htrusted : a.Trusted e) : (step J user a e).Agreed := by
  obtain ⟨happroved, hanswer⟩ := htrusted
  cases e with
  | approve device => exact ⟨h.rising, h.positive, h.kept, h.calls, h.changes, h.follow⟩
  | revoke device => exact ⟨h.rising, h.positive, h.kept, h.calls, h.changes, h.follow⟩
  | call id device goal =>
    simp only [step]
    split
    · exact h.goto trivial
    · exact h
  | read id =>
    refine agreed_turn h fun c hc => ?_
    split
    · exact h.goto fun l hl => h.kept c.device l hl
    · exact h
  | answer id place =>
    refine agreed_turn h fun c hc => ?_
    split
    · rename_i kept hphase
      have hfine := h.calls id c hc
      rw [Call.Fine, hphase] at hfine
      exact h.answered hfine hanswer
    · exact h
  | check id =>
    refine agreed_turn h fun c hc => ?_
    split
    · rename_i kept stored hphase
      have hfine := h.calls id c hc
      rw [Call.Fine, hphase] at hfine
      exact h.check hfine.1 hfine.2 (happroved stored hfine.1)
    · exact h
  | keep id =>
    refine agreed_turn h fun c hc => ?_
    split
    · rename_i stored hphase
      have hfine := h.calls id c hc
      rw [Call.Fine, hphase] at hfine
      exact (h.keep hfine).synced (.inr ⟨stored, hfine, rfl, rfl⟩)
    · exact h
  | put id lost =>
    refine agreed_turn h fun c hc => ?_
    split
    · rename_i list expected cause hphase
      have hfine := h.calls id c hc
      rw [Call.Fine, hphase] at hfine
      exact h.put hfine
    · exact h
  | store id =>
    refine agreed_turn h fun c hc => ?_
    split
    · rename_i list cause hphase
      have hfine := h.calls id c hc
      rw [Call.Fine, hphase] at hfine
      obtain ⟨hlist, rfl⟩ := hfine
      exact (h.keep hlist).finish
    · exact h
  | fail id => exact h.finish

theorem agreed_new : Account.new.Agreed where
  rising := List.Pairwise.nil
  positive _ hl := absurd hl List.not_mem_nil
  kept _ _ hl := nomatch hl
  calls _ _ hc := nomatch hc
  changes := rfl
  follow _ _ hl := nomatch hl

theorem agreed_run : ∀ (es : List FriendEvent) {a : Account}, a.Agreed → Run.Allows Trusted (step J user) a es →
    (es.foldl (step J user) a).Agreed
  | [], _, h, _ => h
  | _ :: es, _, h, hallows => agreed_run es (agreed_step h hallows.1) hallows.2

/-! ### What each step adds to what happened -/

/-- A list of a repair is the one that the device knew, with a newer revision than the server's. -/
def Repairs (a : Account) : Prop :=
  ∀ (id : Nat) (c : Call) (list : FriendList) (expected : Nat) (kept : Option FriendList) (stored : FriendList)
    (approved : Bool), a.calls id = some c → c.phase = .putting list expected (.repair kept stored approved) →
      list.friends = friendsOf kept ∧ expected < list.revision

/-- What happened stays, and the calls are those that were there but for one. -/
structure Quiet (id : Nat) (a b : Account) : Prop where
  stores : b.stores = a.stores
  heard : b.heard = a.heard
  replaced : b.replaced = a.replaced
  calls : ∀ id', id' ≠ id → b.calls id' = a.calls id'
  repair : ∀ (c : Call) (list : FriendList) (expected : Nat) (kept : Option FriendList) (stored : FriendList)
    (approved : Bool), b.calls id = some c → c.phase = .putting list expected (.repair kept stored approved) →
      list.friends = friendsOf kept ∧ expected < list.revision

namespace Quiet

variable {id : Nat} {call : Call} {b : Account}

theorem goto {phase : Phase} (hphase : ∀ list expected kept stored approved,
    phase = .putting list expected (.repair kept stored approved) →
      list.friends = friendsOf kept ∧ expected < list.revision) : Quiet id a (a.goto id call phase) := by
  refine ⟨rfl, rfl, rfl, fun id' hid => Function.update_of_ne hid _ _, fun c list expected kept stored approved hc h => ?_⟩
  obtain rfl := Option.some.inj ((Function.update_self id _ a.calls).symm.trans hc)
  exact hphase list expected kept stored approved h

theorem finish : Quiet id a (a.finish id) := by
  refine ⟨rfl, rfl, rfl, fun id' hid => Function.update_of_ne hid _ _, fun c list expected kept stored approved hc h => ?_⟩
  exact absurd ((Function.update_self id _ a.calls).symm.trans hc) nofun

theorem putFriends {list : FriendList} {revision expected : Nat} {cause : Cause} (hcause : ∀ kept stored approved,
    cause = .repair kept stored approved → list.friends = friendsOf kept ∧ expected < revision) :
    Quiet id a (putFriends J id call list revision expected cause a) := by
  unfold Account.putFriends
  simp only
  split
  · exact finish
  · refine goto fun list' expected' kept stored approved h => ?_
    obtain ⟨rfl, rfl, rfl⟩ := Phase.putting.inj h
    exact hcause kept stored approved rfl

theorem synced {list : FriendList} {stored : Nat} : Quiet id a (synced J id call list stored a) := by
  unfold Account.synced
  split
  · exact finish
  · split
    · exact putFriends nofun
    · exact finish
  · split
    · exact putFriends nofun
    · exact finish

theorem answered {kept answer : Option FriendList} : Quiet id a (answered J user id call kept a answer) := by
  unfold Account.answered
  split
  · simp only
    split
    · exact synced
    · exact putFriends nofun
  · exact goto nofun

theorem repairs (h : Quiet id a b) (ha : a.Repairs) : b.Repairs := by
  intro id' c list expected kept stored approved hc hphase
  by_cases hid : id' = id
  · subst hid
    exact h.repair c list expected kept stored approved hc hphase
  · exact ha id' c list expected kept stored approved ((h.calls id' hid).symm.trans hc) hphase

end Quiet

/-- The kept revision of a device never goes down, a list that is older than the kept one is not taken, and a list whose
    signer is not approved never gives way to an empty list that takes away friends of the device or of the server. -/
structure Kept (a : Account) : Prop where
  stores : ∀ p ∈ a.stores, p.1 ≤ p.2
  heard : ∀ h ∈ a.heard, h.revision < h.kept → h.taken = false
  replaced : ∀ r ∈ a.replaced, r.put = ∅ → r.known = ∅ ∧ r.current = ∅

/-- A call of another list than the device keeps by now is not overtaken: nothing newer was kept since. And a device
    puts its list over one that it does not take only if it knows friends, or no friends are lost. -/
def Safe (a : Account) : FriendEvent → Prop
  | .keep id => ∀ (c : Call) (stored : FriendList), a.calls id = some c → c.phase = .keeping stored →
      keptRevision (a.kept c.device) ≤ stored.revision
  | .store id => ∀ (c : Call) (list : FriendList) (cause : Cause), a.calls id = some c → c.phase = .storing list cause →
      keptRevision (a.kept c.device) ≤ list.revision
  | .put id _ => ∀ (c : Call) (list : FriendList) (kept : Option FriendList) (stored : FriendList), a.calls id = some c →
      c.phase = .putting list (keptRevision a.lists.getLast?) (.repair kept stored false) → friendsOf kept = ∅ →
        friendsOf (a.kept c.device) = ∅ ∧ friendsOf a.lists.getLast? = ∅
  | _ => True

variable {b : Account}

theorem kept_append {p : Nat × Nat} (hstores : b.stores = a.stores ++ [p]) (hheard : b.heard = a.heard)
    (hreplaced : b.replaced = a.replaced) : b.Kept ↔ a.Kept ∧ p.1 ≤ p.2 := by
  refine ⟨fun h => ⟨⟨fun q hq => ?_, hheard ▸ h.heard, hreplaced ▸ h.replaced⟩, ?_⟩,
    fun ⟨h, hp⟩ => ⟨fun q hq => ?_, hheard ▸ h.heard, hreplaced ▸ h.replaced⟩⟩
  · exact h.stores q (hstores ▸ List.mem_append_left _ hq)
  · exact h.stores p (hstores ▸ List.mem_append_right _ (List.mem_singleton_self p))
  · rw [hstores] at hq
    rcases List.mem_append.mp hq with hq | hq
    · exact h.stores q hq
    · obtain rfl := List.mem_singleton.mp hq
      exact hp

/-- What is taken is not older. -/
theorem kept_heard {kept revision : Nat} {approved : Bool} (hstores : b.stores = a.stores)
    (hheard : b.heard = a.heard ++ [⟨kept, revision, approved && decide (kept ≤ revision)⟩])
    (hreplaced : b.replaced = a.replaced) : b.Kept ↔ a.Kept := by
  refine ⟨fun h => ⟨hstores ▸ h.stores, fun x hx => ?_, hreplaced ▸ h.replaced⟩,
    fun h => ⟨hstores ▸ h.stores, fun x hx hold => ?_, hreplaced ▸ h.replaced⟩⟩
  · exact h.heard x (hheard ▸ List.mem_append_left _ hx)
  · rw [hheard] at hx
    rcases List.mem_append.mp hx with hx | hx
    · exact h.heard x hx hold
    · obtain rfl := List.mem_singleton.mp hx
      show (approved && decide (kept ≤ revision)) = false
      rw [decide_eq_false (Nat.not_le_of_gt hold), Bool.and_false]

theorem kept_same (hstores : b.stores = a.stores) (hheard : b.heard = a.heard) (hreplaced : b.replaced = a.replaced) :
    b.Kept ↔ a.Kept :=
  ⟨fun h => ⟨hstores ▸ h.stores, hheard ▸ h.heard, hreplaced ▸ h.replaced⟩,
    fun h => ⟨hstores ▸ h.stores, hheard ▸ h.heard, hreplaced ▸ h.replaced⟩⟩

variable {P : Prop}

theorem same_kept (hstores : b.stores = a.stores) (hheard : b.heard = a.heard) (hreplaced : b.replaced = a.replaced)
    (hP : P) : b.Kept ↔ a.Kept ∧ P :=
  (kept_same hstores hheard hreplaced).trans (and_iff_left hP).symm

theorem Quiet.kept (h : Quiet id a b) (hP : P) : b.Kept ↔ a.Kept ∧ P :=
  same_kept h.stores h.heard h.replaced hP

variable {list : FriendList}

variable {expected : Nat}

theorem replaceSignedList_ok {lists' : List FriendList} (h : replaceSignedList lists list expected = .ok lists') :
    keptRevision lists.getLast? = expected := by
  unfold replaceSignedList at h
  split at h
  · cases h
  · split at h
    · cases h
    · rename_i heq
      exact not_not.mp heq

theorem replaceSignedList_newest (h : keptRevision lists.getLast? < list.revision) :
    replaceSignedList lists list (keptRevision lists.getLast?) = .ok (lists ++ [list]) := by
  rw [replaceSignedList, if_neg (Nat.not_le_of_gt h), if_neg (not_not.mpr rfl)]

/-- A put that is refused replaces nothing, and was not of a repair of the newest list. -/
theorem put_refused {call : Call} {cause : Cause} {lost : Bool} {refusal : Refusal} (h : a.Repairs)
    (hcall : a.calls id = some call) (hphase : call.phase = .putting list expected cause)
    (hno : replaceSignedList a.lists list expected = .error refusal) (hb : Quiet id a b) :
    b.Repairs ∧ (b.Kept ↔ a.Kept ∧ a.Safe (.put id lost)) := by
  refine ⟨hb.repairs h, hb.kept fun c list' kept stored hc hphase' _ => ?_⟩
  obtain rfl := Option.some.inj (hcall.symm.trans hc)
  obtain ⟨rfl, rfl, rfl⟩ := Phase.putting.inj (hphase.symm.trans hphase')
  have hlt := (h id call list _ kept stored false hcall hphase).2
  rw [replaceSignedList_newest hlt] at hno
  cases hno

theorem put_kept {call : Call} {cause : Cause} {lost : Bool} (h : a.Repairs) (hcall : a.calls id = some call)
    (hphase : call.phase = .putting list expected cause) :
    (put id call list expected cause lost a).Repairs ∧
      ((put id call list expected cause lost a).Kept ↔ a.Kept ∧ a.Safe (.put id lost)) := by
  unfold put
  split
  · rename_i lists hok
    obtain rfl := replaceSignedList_ok hok
    have hquiet : Quiet id (a.took call list cause)
        (if lost then (a.took call list cause).finish id
          else (a.took call list cause).goto id call (.storing list cause)) := by
      split
      · exact Quiet.finish
      · exact Quiet.goto nofun
    refine ⟨hquiet.repairs h, (kept_same hquiet.stores hquiet.heard hquiet.replaced).trans ?_⟩
    match cause, hphase with
    | .repair kept stored false, hphase =>
      obtain ⟨hfriends, -⟩ := h id call list _ kept stored false hcall hphase
      refine ⟨fun hkept => ⟨⟨hkept.stores, hkept.heard, fun r hr => hkept.replaced r (List.mem_append_left _ hr)⟩, ?_⟩,
        fun ⟨hkept, hsafe⟩ => ⟨hkept.stores, hkept.heard, fun r hr => ?_⟩⟩
      · intro c list' kept' stored' hc hphase' hempty
        obtain rfl := Option.some.inj (hcall.symm.trans hc)
        obtain ⟨rfl, -, hcause⟩ := Phase.putting.inj (hphase.symm.trans hphase')
        obtain ⟨rfl, -, -⟩ := Cause.repair.inj hcause
        exact hkept.replaced _ (List.mem_append_right _ (List.mem_singleton_self _)) (hfriends.trans hempty)
      · rcases List.mem_append.mp hr with hr | hr
        · exact hkept.replaced r hr
        · obtain rfl := List.mem_singleton.mp hr
          exact fun hput => hsafe call list kept stored hcall hphase (hfriends.symm.trans hput)
    | .repair kept stored true, hphase =>
      refine same_kept rfl rfl rfl fun c list' kept' stored' hc hphase' _ => ?_
      obtain rfl := Option.some.inj (hcall.symm.trans hc)
      obtain ⟨-, -, hcause⟩ := Phase.putting.inj (hphase.symm.trans hphase')
      cases hcause
    | .missing, hphase | .wanted, hphase =>
      refine same_kept rfl rfl rfl fun c list' kept' stored' hc hphase' _ => ?_
      obtain rfl := Option.some.inj (hcall.symm.trans hc)
      obtain ⟨-, -, hcause⟩ := Phase.putting.inj (hphase.symm.trans hphase')
      cases hcause
  · rename_i hno
    exact put_refused h hcall hphase hno Quiet.finish
  · rename_i hno
    split
    · exact put_refused h hcall hphase hno (Quiet.goto nofun)
    · exact put_refused h hcall hphase hno Quiet.finish

/-- What a device keeps is one more entry of what it kept. -/
theorem keep_kept {device : String} (h : a.Repairs) (hb : Quiet id (a.keep device list) b)
    (hP : P ↔ keptRevision (a.kept device) ≤ list.revision) :
    b.Repairs ∧ (b.Kept ↔ a.Kept ∧ P) := by
  refine ⟨hb.repairs h, (kept_same hb.stores hb.heard hb.replaced).trans ?_⟩
  have hstores : (a.keep device list).stores = a.stores ++ [(keptRevision (a.kept device), list.revision)] := rfl
  rw [hP]
  exact kept_append hstores rfl rfl

theorem step_kept (e : FriendEvent) (h : a.Repairs) :
    (step J user a e).Repairs ∧ ((step J user a e).Kept ↔ a.Kept ∧ a.Safe e) := by
  have hsame : ∀ {P : Prop}, P → a.Repairs ∧ (a.Kept ↔ a.Kept ∧ P) := fun hP => ⟨h, (and_iff_left hP).symm⟩
  cases e with
  | approve device => exact ⟨h, same_kept rfl rfl rfl trivial⟩
  | revoke device => exact ⟨h, same_kept rfl rfl rfl trivial⟩
  | call id device goal =>
    simp only [step]
    split
    · have hquiet : Quiet id a (a.goto id ⟨device, goal, .reading⟩ .reading) := Quiet.goto nofun
      exact ⟨hquiet.repairs h, hquiet.kept trivial⟩
    · exact hsame trivial
  | read id =>
    simp only [step, turn]
    cases hc : a.calls id with
    | none => exact hsame trivial
    | some c =>
      simp only [Option.elim_some]
      split
      · have hquiet : Quiet id a (a.goto id c (.asking (a.kept c.device))) := Quiet.goto nofun
        exact ⟨hquiet.repairs h, hquiet.kept trivial⟩
      · exact hsame trivial
  | answer id place =>
    simp only [step, turn]
    cases hc : a.calls id with
    | none => exact hsame trivial
    | some c =>
      simp only [Option.elim_some]
      split
      · rename_i kept hphase
        have hquiet : Quiet id a (answered J user id c kept a a.lists[place]?) := Quiet.answered
        exact ⟨hquiet.repairs h, hquiet.kept trivial⟩
      · exact hsame trivial
  | check id =>
    simp only [step, turn]
    cases hc : a.calls id with
    | none => exact hsame trivial
    | some c =>
      simp only [Option.elim_some]
      split
      · rename_i kept stored hphase
        have hquiet : ∃ b : Account, b.Repairs ∧ (b.Kept ↔ a.Kept) ∧ Quiet id b (check J user id c kept stored a) := by
          refine ⟨{ a with heard := a.heard ++ [⟨keptRevision kept, stored.revision,
            decide (stored.signerDeviceId ∈ a.approved) && decide (keptRevision kept ≤ stored.revision)⟩] },
            h, kept_heard rfl rfl rfl, ?_⟩
          unfold check
          simp only
          split
          · exact Quiet.goto nofun
          · refine Quiet.putFriends fun kept' stored' approved' hcause => ?_
            obtain ⟨rfl, rfl, -⟩ := Cause.repair.inj hcause
            refine ⟨?_, by omega⟩
            cases kept with
            | none => rfl
            | some l => rfl
        obtain ⟨b, hb, hkept, hquiet⟩ := hquiet
        refine ⟨hquiet.repairs hb, (hquiet.kept (P := True) trivial).trans ?_⟩
        rw [hkept]
        exact Iff.rfl
      · exact hsame trivial
  | keep id =>
    simp only [step, turn]
    cases hc : a.calls id with
    | none => exact hsame fun c stored hc' => absurd (hc.symm.trans hc') nofun
    | some c =>
      simp only [Option.elim_some]
      split
      · rename_i stored hphase
        refine keep_kept h Quiet.synced ⟨fun hsafe => hsafe c stored hc hphase, fun hle c' stored' hc' hphase' => ?_⟩
        obtain rfl := Option.some.inj (hc.symm.trans hc')
        obtain rfl := Phase.keeping.inj (hphase.symm.trans hphase')
        exact hle
      · rename_i hno
        refine hsame fun c' stored hc' hphase => ?_
        obtain rfl := Option.some.inj (hc.symm.trans hc')
        exact absurd hphase (hno stored)
  | put id lost =>
    simp only [step, turn]
    cases hc : a.calls id with
    | none => exact hsame fun c list kept stored hc' => absurd (hc.symm.trans hc') nofun
    | some c =>
      simp only [Option.elim_some]
      split
      · rename_i list expected cause hphase
        exact put_kept h hc hphase
      · rename_i hno
        refine hsame fun c' list kept stored hc' hphase => ?_
        obtain rfl := Option.some.inj (hc.symm.trans hc')
        exact absurd hphase (hno _ _ _)
  | store id =>
    simp only [step, turn]
    cases hc : a.calls id with
    | none => exact hsame fun c list cause hc' => absurd (hc.symm.trans hc') nofun
    | some c =>
      simp only [Option.elim_some]
      split
      · rename_i list cause hphase
        have hquiet : Quiet id (a.keep c.device list) (store J id c list cause a) := by
          unfold store
          simp only
          split
          · exact Quiet.finish
          · exact Quiet.synced
        refine keep_kept h hquiet ⟨fun hsafe => hsafe c list cause hc hphase, fun hle c' list' cause' hc' hphase' => ?_⟩
        obtain rfl := Option.some.inj (hc.symm.trans hc')
        obtain ⟨rfl, -⟩ := Phase.storing.inj (hphase.symm.trans hphase')
        exact hle
      · rename_i hno
        refine hsame fun c' list cause hc' hphase => ?_
        obtain rfl := Option.some.inj (hc.symm.trans hc')
        exact absurd hphase (hno list cause)
  | fail id =>
    have hquiet : Quiet id a (a.finish id) := Quiet.finish
    exact ⟨hquiet.repairs h, hquiet.kept trivial⟩

theorem kept_run : ∀ (es : List FriendEvent) {a : Account}, a.Repairs →
    ((es.foldl (step J user) a).Kept ↔ a.Kept ∧ Run.Allows Safe (step J user) a es)
  | [], _, _ => (and_iff_left trivial).symm
  | e :: es, _, h => by
    obtain ⟨hrepairs, hkept⟩ := @step_kept J user _ e h
    rw [List.foldl_cons, kept_run es hrepairs, hkept, and_assoc]
    rfl

theorem kept_new : Account.new.Kept :=
  ⟨fun _ hp => absurd hp List.not_mem_nil, fun _ hh => absurd hh List.not_mem_nil,
    fun _ hr => absurd hr List.not_mem_nil⟩

theorem repairs_new : Account.new.Repairs := fun _ _ _ _ _ _ _ hc => nomatch hc

/-- As long as the signers are approved, each list of the server is what the changes before it make of the empty one,
    and each device keeps one of them. That no device goes back to an older list, and that no empty list takes the place
    of one whose signer is not approved, holds in exactly the runs in which no call is overtaken on its own device
    before it keeps its list, and in which a device that knows no friends puts its list over no others. -/
theorem friends_kept_iff (es : List FriendEvent) :
    let a := es.foldl (step J user) new
    ((Run.Allows Trusted (step J user) new es → a.changes.length = a.lists.length ∧
        (∀ (i : Nat) (l : FriendList), a.lists[i]? = some l → l.friends = changed (a.changes.take (i + 1))) ∧
        ∀ (device : String) (l : FriendList), a.kept device = some l → l ∈ a.lists) ∧
      (∀ p ∈ a.stores, p.1 ≤ p.2) ∧ (∀ h ∈ a.heard, h.revision < h.kept → h.taken = false) ∧
      ∀ r ∈ a.replaced, r.put = ∅ → r.known = ∅ ∧ r.current = ∅) ↔
    Run.Allows Safe (step J user) new es := by
  have hkept := (@kept_run J user es _ repairs_new).trans (and_iff_right kept_new)
  refine Iff.trans ⟨fun ⟨_, hstores, hheard, hreplaced⟩ => ⟨hstores, hheard, hreplaced⟩,
    fun h => ⟨fun htrusted => ?_, h.stores, h.heard, h.replaced⟩⟩ hkept
  have hagreed := agreed_run es agreed_new htrusted
  exact ⟨hagreed.changes, hagreed.follow, hagreed.kept⟩

end Account

/-! ### A device that is new -/

/-- JSON as bytes that end by themselves. -/
noncomputable def plainText : JsonText := ⟨Wire.Plain.toVec, Wire.Plain.fromSlice, Wire.Plain.fromSlice_toVec⟩

def addBob : Change := fun friends => (friends.insert "bob" ⟨"bob", none, false⟩, true)

/-- A laptop adds a friend and is removed; then a phone that has no list yet reads it. -/
def removed : List FriendEvent :=
  [.approve "laptop", .approve "phone", .call 0 "laptop" (.change addBob 2), .read 0, .answer 0 0, .put 0 false, .store 0,
    .revoke "laptop", .call 1 "phone" .sync, .read 1, .answer 1 0, .check 1, .put 1 false]

/-- The phone puts an empty list over the one with the friend. -/
theorem friend_lost :
    (removed.foldl (Account.step plainText "me") .new).lists.map (fun l => l.friends.toList.map Prod.fst) =
      [["bob"], []] ∧
    ¬∀ r ∈ (removed.foldl (Account.step plainText "me") .new).replaced, r.put = ∅ → r.known = ∅ ∧ r.current = ∅ := by
  refine ⟨by decide +kernel, fun hall => ?_⟩
  have hlog : (removed.foldl (Account.step plainText "me") .new).replaced.map
      (fun r => (r.put.isEmpty, r.current.isEmpty)) = [(true, false)] := by decide +kernel
  obtain ⟨r, hr, hflags⟩ := List.mem_map.mp (hlog ▸ List.mem_singleton_self _)
  obtain ⟨hput, hcurrent⟩ := Prod.mk.inj hflags
  have hnone := (hall r hr (Std.ExtTreeMap.isEmpty_iff.mp hput)).2
  rw [hnone] at hcurrent
  cases hcurrent

end Kodosi.Identity
