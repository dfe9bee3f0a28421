import Kodosi.Rooms.KeyLoads
import Kodosi.Rooms.OwnRoom

/-! Calls that load keys side by side: the head and the cache only go forward, and a call fails over a changed
    history exactly when another call stored a newer head after this one read. -/

namespace Kodosi.Rooms
open Kodosi.Lib Kodosi.Identity Kodosi.Derive

/-! ### What follows the history of the server -/

/-- The rows of a room are numbered from one. -/
def Numbered (rows : List KeyRow) : Prop := ∀ i row, rows[i]? = some row → row.version = i + 1

/-- A version and a hash of the history. -/
def Stands (C : Crypto) (rows : List KeyRow) (version : Nat) (hash : String) : Prop :=
  ∃ i row, rows[i]? = some row ∧ version = i + 1 ∧ hash = digest C row.body

def Follows (C : Crypto) (rows : List KeyRow) (cached : CachedRoom) : Prop :=
  ∀ i v, cached.states[i]? = some v → v.state.version = i + 1 ∧ Stands C rows (i + 1) v.hash

/-- The states of an answer are those behind the ones that the call has. -/
def Page (rows : List KeyRow) (cached : CachedRoom) (states : List SignedState) : Prop :=
  ∃ page, page <+: rows.drop cached.states.length ∧ states = page.map stateDto

def Phase.Follows (C : Crypto) (rows : List KeyRow) : Phase → Prop
  | .asking cached _ | .reading cached _ _ _ _ | .initializing cached _ | .remembering cached =>
    Rooms.Follows C rows cached
  | .answered cached _ history => Rooms.Follows C rows cached ∧ Page rows cached history.states
  | .registering | .done _ => True

section

variable {C : Crypto} {rows : List KeyRow} {cached : CachedRoom}

theorem Numbered.append (h : Numbered rows) (body signature : Bytes) :
    Numbered (rows ++ [⟨rows.length + 1, body, signature⟩]) := by
  intro i row hrow
  by_cases hi : i < rows.length
  · rw [List.getElem?_append_left hi] at hrow
    exact h i row hrow
  · rw [List.getElem?_append_right (by omega), List.getElem?_singleton] at hrow
    split at hrow
    · obtain rfl := Option.some.inj hrow
      show rows.length + 1 = i + 1
      omega
    · simp at hrow

theorem Stands.append {version : Nat} {hash : String} (h : Stands C rows version hash) (row : KeyRow) :
    Stands C (rows ++ [row]) version hash := by
  obtain ⟨i, old, hold, hversion, hhash⟩ := h
  have hi := (List.getElem?_eq_some_iff.mp hold).1
  exact ⟨i, old, by rw [List.getElem?_append_left hi, hold], hversion, hhash⟩

/-- A version has one hash. -/
theorem Stands.hash_eq {version : Nat} {hash hash' : String} (h : Stands C rows version hash)
    (h' : Stands C rows version hash') : hash = hash' := by
  obtain ⟨i, row, hrow, hversion, rfl⟩ := h
  obtain ⟨j, row', hrow', hversion', rfl⟩ := h'
  obtain rfl : i = j := by omega
  rw [hrow] at hrow'
  rw [Option.some.inj hrow']

theorem Follows.append (h : Follows C rows cached) (row : KeyRow) : Follows C (rows ++ [row]) cached :=
  fun i v hv => ⟨(h i v hv).1, (h i v hv).2.append row⟩

theorem follows_start : Follows C rows .start := fun i v hv => by simp [CachedRoom.start] at hv

theorem Follows.length_le (h : Follows C rows cached) : cached.states.length ≤ rows.length := by
  by_contra hlt
  have hbound : cached.states.length - 1 < cached.states.length := by omega
  have hlast : cached.states[cached.states.length - 1]? = some cached.states[cached.states.length - 1] :=
    List.getElem?_eq_getElem hbound
  obtain ⟨-, i, row, hrow, hi, -⟩ := h _ _ hlast
  have := (List.getElem?_eq_some_iff.mp hrow).1
  omega

/-- The newest version that follows the history is the number of states. -/
theorem Follows.version_eq (h : Follows C rows cached) : cached.version.getD 0 = cached.states.length := by
  rw [CachedRoom.version, List.getLast?_eq_getElem?]
  cases hlast : cached.states[cached.states.length - 1]? with
  | none =>
    have := List.getElem?_eq_none_iff.mp hlast
    simp only [Option.map_none, Option.getD_none]
    omega
  | some v =>
    have hlt := (List.getElem?_eq_some_iff.mp hlast).1
    rw [Option.map_some, Option.getD_some, (h _ v hlast).1]
    omega

theorem Page.append {states : List SignedState} (h : Page rows cached states) (hle : cached.states.length ≤ rows.length)
    (row : KeyRow) : Page (rows ++ [row]) cached states := by
  obtain ⟨page, hpage, hstates⟩ := h
  refine ⟨page, ?_, hstates⟩
  rw [List.drop_append_of_le_length hle]
  exact hpage.trans (List.prefix_append _ _)

theorem Phase.Follows.append {phase : Phase} (h : phase.Follows C rows) (row : KeyRow) :
    phase.Follows C (rows ++ [row]) := by
  cases phase with
  | answered cached attempts history => exact ⟨h.1.append row, h.2.append h.1.length_le row⟩
  | registering => trivial
  | done result => trivial
  | _ => exact Rooms.Follows.append h row

/-- The rows whose versions lie in a range are the rows at those places. -/
theorem filter_rows : ∀ {rows : List KeyRow} (start : Nat) {after last : Nat},
    (∀ i row, rows[i]? = some row → row.version = start + i + 1) → start ≤ after →
    rows.filter (fun row => after < row.version ∧ row.version ≤ last) =
      (rows.drop (after - start)).take (last - after)
  | [], start, after, last, _, _ => by simp
  | row :: rows, start, after, last, hrows, hstart => by
    have hversion : row.version = start + 1 := hrows 0 row rfl
    have hrest : ∀ i row, rows[i]? = some row → row.version = start + 1 + i + 1 := by
      intro i row' hrow
      rw [hrows (i + 1) row' (by rw [List.getElem?_cons_succ, hrow])]
      omega
    by_cases hafter : after = start
    · subst hafter
      by_cases hlast : after + 1 ≤ last
      · have hin : after < row.version ∧ row.version ≤ last := by omega
        obtain ⟨n, hn⟩ : ∃ n, last - after = n + 1 := ⟨last - after - 1, by omega⟩
        have hsame : rows.filter (fun r => after < r.version ∧ r.version ≤ last) =
            rows.filter (fun r => after + 1 < r.version ∧ r.version ≤ last) := by
          refine List.filter_congr fun r hr => ?_
          obtain ⟨i, hi⟩ := List.mem_iff_getElem?.mp hr
          have hr := hrest i r hi
          simp only [decide_eq_decide]
          omega
        rw [List.filter_cons, if_pos (by simpa using hin), hsame, filter_rows _ hrest (Nat.le_refl _), Nat.sub_self,
          Nat.sub_self, List.drop_zero, List.drop_zero, hn, List.take_succ_cons]
        congr 2
        omega
      · have hnone : (row :: rows).filter (fun r => after < r.version ∧ r.version ≤ last) = [] := by
          refine List.filter_eq_nil_iff.mpr fun r hr => ?_
          obtain ⟨i, hi⟩ := List.mem_iff_getElem?.mp hr
          have hr := hrows i r hi
          simp only [decide_eq_true_eq]
          omega
        rw [hnone, show last - after = 0 by omega, List.take_zero]
    · have hout : ¬(after < row.version ∧ row.version ≤ last) := by omega
      obtain ⟨n, hn⟩ : ∃ n, after - start = n + 1 := ⟨after - start - 1, by omega⟩
      rw [List.filter_cons, if_neg (by simpa using hout), filter_rows _ hrest (by omega), hn, List.drop_succ_cons]
      congr 2
      omega

theorem page_keyStates (hrows : Numbered rows) (h : Follows C rows cached) :
    Page rows cached (keyStates rows (cached.version.getD 0)) := by
  rw [h.version_eq]
  unfold keyStates
  simp only
  split
  · exact ⟨[], List.nil_prefix, rfl⟩
  · refine ⟨_, ?_, rfl⟩
    rw [filter_rows 0 (fun i row hrow => by rw [hrows i row hrow, Nat.zero_add]) (Nat.zero_le _)]
    exact List.take_prefix _ _

/-! ### What a call does -/

variable {S : Setup} {credentials : Credentials}

variable {nowMs room : Nat}

/-- A state that is verified stands behind the states of the call. -/
theorem follows_absorbState {owner : String} {anchor : Root} {cached' : CachedRoom} {row : KeyRow}
    (hrows : Numbered rows) (h : Follows S.crypto rows cached) (hrow : rows[cached.states.length]? = some row)
    (hok : absorbState S credentials nowMs room owner anchor cached (stateDto row) = .ok cached') :
    Follows S.crypto rows cached' ∧ cached'.states.length = cached.states.length + 1 := by
  unfold absorbState at hok
  split at hok
  · cases hok
  · cases hok
  · rename_i verified hverified
    obtain ⟨bytes, hverifies⟩ := verifyState_ok hverified
    obtain rfl := Except.ok.inj hok
    have hversion : verified.state.version = cached.states.length + 1 := by
      rw [hverifies.version, stateDto, hrows _ row hrow]
    have hhash : verified.hash = digest S.crypto row.body := by
      rw [hverifies.hash, decode_encoded hverifies.body]
    refine ⟨fun i v hv => ?_, by simp⟩
    by_cases hi : i < cached.states.length
    · rw [List.getElem?_append_left hi] at hv
      exact h i v hv
    · rw [List.getElem?_append_right (by omega), List.getElem?_singleton] at hv
      split at hv
      · obtain rfl : i = cached.states.length := by omega
        obtain rfl := Option.some.inj hv
        exact ⟨hversion, _, row, hrow, rfl, hhash⟩
      · cases hv

theorem follows_absorbStates {owner : String} {anchor : Root} (hrows : Numbered rows) :
    ∀ {page : List KeyRow} {cached cached' : CachedRoom}, Follows S.crypto rows cached →
      page <+: rows.drop cached.states.length →
      (page.map stateDto).foldlM (absorbState S credentials nowMs room owner anchor) cached = .ok cached' →
      Follows S.crypto rows cached'
  | [], cached, cached', h, _, hok => by
    obtain rfl := Except.ok.inj hok
    exact h
  | row :: page, cached, cached', h, hpage, hok => by
    rw [List.map_cons, List.foldlM_cons] at hok
    obtain ⟨middle, hmiddle, hok⟩ := bind_ok hok
    obtain ⟨rest, hrest⟩ := hpage
    have hrow : rows[cached.states.length]? = some row := by
      rw [← List.head?_drop, ← hrest]
      rfl
    obtain ⟨hfollows, hlength⟩ := follows_absorbState hrows h hrow hmiddle
    refine follows_absorbStates hrows hfollows ?_ hok
    rw [hlength, ← List.tail_drop, ← hrest]
    exact ⟨rest, rfl⟩

theorem follows_takeHistory {heads : Heads} {readable : Bool} {outside : Except Error Root} {attempts : Nat}
    {history : KeyHistory} (hrows : Numbered rows) (h : Follows S.crypto rows cached)
    (hpage : Page rows cached history.states) :
    (takeHistory S heads readable outside nowMs credentials room cached attempts history).Follows S.crypto rows := by
  obtain ⟨page, hprefix, hstates⟩ := hpage
  unfold takeHistory
  simp only
  split
  · trivial
  split
  · split
    · trivial
    · exact h
  split
  · trivial
  split
  · trivial
  split
  · trivial
  · rename_i cached' hok
    rw [hstates] at hok
    have hfollows := follows_absorbStates hrows h hprefix hok
    split
    · exact hfollows
    split
    · trivial
    · exact hfollows

/-! ### What storing does -/

theorem headOf_insert (heads : Heads) (user u : String) (room r : Nat) (head : Head) :
    headOf (heads.insert user ((heads[user]?.getD ∅).insert room head)) u r =
      if user = u ∧ room = r then some head else headOf heads u r := by
  unfold headOf
  rw [getElem?_insert]
  by_cases hu : user = u
  · subst hu
    rw [if_pos rfl, Option.bind_some, Std.TreeMap.getElem?_insert]
    simp only [Nat.compare_eq_eq, true_and]
    split
    · rfl
    · cases heads[user]? with
      | none => simp
      | some known => rfl
  · rw [if_neg hu, if_neg fun h => hu h.1]

/-- The heads after a call has saved its own. -/
def savedHeads (S : Setup) (heads : Heads) (credentials : Credentials) (room : Nat) (cached : CachedRoom)
    (current : VerifiedState) : Heads :=
  heads.insert credentials.userId
    ((heads[credentials.userId]?.getD ∅).insert room (cached.head S.crypto current))

/-- What a call meets when it comes to save its head. -/
structure Saves (S : Setup) (heads : Heads) (cache : RoomCache) (credentials : Credentials) (room : Nat)
    (cached : CachedRoom) (current : VerifiedState) : Prop where
  generation : cache.generation = credentials.generation
  newest : cached.states.getLast? = some current
  clear : ∀ head ∈ headOf heads credentials.userId room, head.conflicts current.state cached = false

/-- The ways in which storing ends. -/
inductive Remembers (S : Setup) (heads : Heads) (cache : RoomCache) (credentials : Credentials) (room : Nat)
    (cached : CachedRoom) : Except KeyError CachedRoom × Heads × RoomCache → Prop
  | refused (e : KeyError) : Remembers S heads cache credentials room cached (.error e, heads, cache)
  | saved (e : KeyError) (current : VerifiedState) (h : Saves S heads cache credentials room cached current) :
      Remembers S heads cache credentials room cached
        (.error e, savedHeads S heads credentials room cached current, cache)
  | stored (current : VerifiedState) (stored : CachedRoom)
      (h : Saves S heads cache credentials room cached current) (hstates : stored.states = cached.states) :
      Remembers S heads cache credentials room cached
        (.ok stored, savedHeads S heads credentials room cached current,
          { cache with rooms := cache.rooms.insert room stored })

theorem states_timesOf (cached : CachedRoom) (existing : Option CachedRoom) :
    (cached.timesOf existing).states = cached.states := by
  cases existing <;> rfl

theorem remembers (S : Setup) (heads : Heads) (cache : RoomCache) (readable : Bool) (save : Save)
    (credentials : Credentials) (room : Nat) (cached : CachedRoom) :
    Remembers S heads cache credentials room cached
      (rememberRoom S heads cache readable save credentials room cached) := by
  unfold rememberRoom
  split
  · exact .refused _
  rename_i hgeneration
  split
  · exact .refused _
  · exact .refused _
  rename_i current read hcurrent hread
  obtain rfl : read = heads := by
    unfold roomHeads at hread
    split at hread
    · cases hread
    split at hread
    · cases hread
    · exact (Except.ok.inj hread).symm
  split
  · exact .refused _
  rename_i hclear
  have hsaves : Saves S read cache credentials room cached current := by
    refine ⟨by simpa using hgeneration, hcurrent, fun head hhead => ?_⟩
    rw [Option.mem_def.mp hhead] at hclear
    simpa using hclear
  cases save with
  | failed renamed =>
    cases renamed with
    | false => exact .refused _
    | true => exact .saved _ current hsaves
  | done =>
    cases hkeys : openEarlier S.cipher cached with
    | error e =>
      dsimp only
      exact .saved _ current hsaves
    | ok keys =>
      dsimp only
      exact .stored current _ hsaves (states_timesOf _ _)

theorem Follows.version_last (h : Follows C rows cached) {current : VerifiedState}
    (hlast : cached.states.getLast? = some current) :
    current.state.version = cached.states.length ∧ Stands C rows cached.states.length current.hash := by
  rw [List.getLast?_eq_getElem?] at hlast
  have hlt := (List.getElem?_eq_some_iff.mp hlast).1
  obtain ⟨hversion, hstands⟩ := h _ current hlast
  have hpred : cached.states.length - 1 + 1 = cached.states.length := by omega
  rw [hpred] at hversion hstands
  exact ⟨hversion, hstands⟩

/-- A head of the history conflicts only when it is newer. -/
theorem conflicts_iff {head : Head} (current : VerifiedState) (h : Follows C rows cached)
    (hhead : Stands C rows head.version head.hash) :
    head.conflicts current.state cached = true ↔ current.state.version < head.version := by
  unfold Head.conflicts
  rw [Bool.or_eq_true, decide_eq_true_eq, or_iff_left_iff_imp]
  intro hany
  obtain ⟨v, hv, hne⟩ := (Option.any_eq_true _ _).mp hany
  have hversion : v.state.version = head.version := by simpa using List.find?_some hv
  obtain ⟨i, hi⟩ := List.mem_iff_getElem?.mp (List.mem_of_find?_eq_some hv)
  obtain ⟨hplace, hstands⟩ := h i v hi
  rw [← hplace, hversion] at hstands
  exact absurd (hstands.hash_eq hhead) (by simpa using hne)

end

/-! ### The invariant -/

/-- The head that the device has saved of a room. -/
def World.head (w : World) (user : String) (room : Nat) : Option Nat := (headOf w.heads user room).map (·.version)

/-- The version of a room in the cache, when the cache is of a login of the user. -/
def World.cached (S : Setup) (w : World) (user : String) (room : Nat) : Option Nat :=
  if (S.login w.cache.generation).userId = user then w.cache.rooms[room]?.bind (·.version) else none

structure World.Sound (S : Setup) (w : World) : Prop where
  numbered : ∀ room, Numbered (w.server room)
  heads : ∀ user room head, headOf w.heads user room = some head →
    Stands S.crypto (w.server room) head.version head.hash
  cache : ∀ room cached, w.cache.rooms[room]? = some cached → Follows S.crypto (w.server room) cached
  saved : ∀ user room version, w.cached S user room = some version → ∃ head ∈ w.head user room, version ≤ head
  calls : ∀ call c, w.calls call = some c → c.phase.Follows S.crypto (w.server c.room) ∧
    c.credentials = World.credentials S c.credentials.generation

/-- What one step does to the heads and the cache: they only go forward. -/
structure World.Ahead (S : Setup) (v w : World) : Prop where
  head : ∀ user room, ∀ m ∈ v.head user room, ∃ n ∈ w.head user room, m ≤ n
  cached : ∀ user room, ∀ n ∈ w.cached S user room,
    n ∈ v.cached S user room ∨ ∀ m ∈ v.head user room, m ≤ n

/-! ### Steps -/

/-- The rooms of a cache that is left are rooms of the same login as they were, but for the times. -/
def RoomCache.Within (new old : RoomCache) : Prop :=
  ∀ (room : Nat) (cached : CachedRoom), new.rooms[room]? = some cached → new.generation = old.generation ∧
    ∃ c : CachedRoom, old.rooms[room]? = some c ∧ c.states = cached.states

theorem RoomCache.Within.refl (cache : RoomCache) : cache.Within cache := fun _ c hc => ⟨rfl, c, hc, rfl⟩

theorem within_empty {new old : RoomCache} (h : new.rooms = ∅) : new.Within old := fun room cached hc => by
  rw [h] at hc
  simp at hc

namespace World

variable {S : Setup} {w : World}

theorem Ahead.refl (w : World) : w.Ahead S w :=
  ⟨fun _ _ m hm => ⟨m, hm, Nat.le_refl m⟩, fun _ _ _ hn => .inl hn⟩

variable {v : World}

theorem Ahead.setPhase (h : v.Ahead S w) (call : Nat) (c : Call) (phase : Phase) :
    v.Ahead S (w.setPhase call c phase) := ⟨h.head, h.cached⟩

variable {room : Nat}

variable {cache : RoomCache}

theorem cached_within (h : cache.Within w.cache) {user : String} {version : Nat}
    (hversion : ({ w with cache } : World).cached S user room = some version) :
    w.cached S user room = some version := by
  unfold World.cached at hversion ⊢
  split at hversion
  · rename_i huser
    obtain ⟨cached, hcached, hlast⟩ := Option.bind_eq_some_iff.mp hversion
    obtain ⟨hgeneration, c, hc, hstates⟩ := h room cached hcached
    rw [if_pos (by rw [← hgeneration]; exact huser), hc, Option.bind_some, CachedRoom.version, hstates]
    exact hlast
  · cases hversion

theorem sound_within (hw : w.Sound S) (h : cache.Within w.cache) : ({ w with cache } : World).Sound S where
  numbered := hw.numbered
  heads := hw.heads
  cache room cached hcached := by
    obtain ⟨-, c, hc, hstates⟩ := h room cached hcached
    intro i v hv
    exact hw.cache room c hc i v (by rw [hstates]; exact hv)
  saved user room version hversion := hw.saved user room version (cached_within h hversion)
  calls := hw.calls

theorem ahead_within (h : cache.Within w.cache) : w.Ahead S { w with cache } :=
  ⟨fun _ _ m hm => ⟨m, hm, Nat.le_refl m⟩, fun _ _ _ hn => .inl (cached_within h hn)⟩

variable {call : Nat} {c : Call}

theorem sound_setPhase {phase : Phase} (hw : w.Sound S) (hphase : phase.Follows S.crypto (w.server c.room))
    (hc : c.credentials = credentials S c.credentials.generation) : (w.setPhase call c phase).Sound S where
  numbered := hw.numbered
  heads := hw.heads
  cache := hw.cache
  saved := hw.saved
  calls id d hd := by
    unfold setPhase at hd
    simp only [Function.update_apply] at hd
    split at hd
    · obtain rfl := Option.some.inj hd
      exact ⟨hphase, hc⟩
    · exact hw.calls id d hd

theorem follows_cachedRoom (hw : w.Sound S) (room : Nat) : Follows S.crypto (w.server room) (w.cachedRoom room) := by
  unfold cachedRoom
  cases hroom : w.cache.rooms[room]? with
  | none => exact follows_start
  | some cached => exact hw.cache room cached hroom

theorem within_cacheFor (w : World) (generation : Nat) : (w.cacheFor generation).Within w.cache := by
  unfold cacheFor
  split
  · exact .refl _
  · exact within_empty rfl

theorem sound_begin {generation : Nat} (hw : w.Sound S) : (w.begin S call generation room).Sound S := by
  have hcache := sound_within hw (within_cacheFor w generation)
  unfold begin
  simp only
  split
  · exact sound_setPhase hcache (follows_cachedRoom hcache room) rfl
  · exact sound_setPhase hcache trivial rfl

theorem ahead_begin (call generation room : Nat) : w.Ahead S (w.begin S call generation room) := by
  have hcache := ahead_within (S := S) (within_cacheFor w generation)
  unfold begin
  simp only
  split
  · exact hcache.setPhase ..
  · exact hcache.setPhase ..

variable {cached : CachedRoom}

variable {change : CachedRoom → CachedRoom}

theorem within_changeRoom (hroom : w.cache.rooms[room]? = some cached)
    (hchange : (change cached).states = cached.states) :
    RoomCache.Within { w.cache with rooms := w.cache.rooms.insert room (change cached) } w.cache := by
  intro r c hc
  refine ⟨rfl, ?_⟩
  simp only [Std.TreeMap.getElem?_insert, Nat.compare_eq_eq] at hc
  split at hc
  · rename_i hr
    subst hr
    obtain rfl := Option.some.inj hc
    exact ⟨cached, hroom, hchange.symm⟩
  · exact ⟨c, hc, rfl⟩

theorem within_forget (w : World) (room : Nat) :
    RoomCache.Within { w.cache with rooms := w.cache.rooms.erase room } w.cache := by
  intro r c hc
  refine ⟨rfl, c, ?_, rfl⟩
  simp only [Std.TreeMap.getElem?_erase, Nat.compare_eq_eq] at hc
  split at hc
  · cases hc
  · exact hc

section

variable {call : Call} {cached : CachedRoom} {current : VerifiedState}

theorem head_saved (_ : Saves S w.heads w.cache call.credentials call.room cached current) (cache : RoomCache)
    (user : String) (room : Nat) :
    ({ w with heads := savedHeads S w.heads call.credentials call.room cached current, cache } : World).head user room
      = if call.credentials.userId = user ∧ call.room = room then some current.state.version
        else w.head user room := by
  unfold World.head savedHeads
  simp only [headOf_insert]
  split
  · rfl
  · rfl

/-- A saved head is not behind the one before. -/
theorem forward_saved (hw : w.Sound S) (hcached : Follows S.crypto (w.server call.room) cached)
    (h : Saves S w.heads w.cache call.credentials call.room cached current) (cache : RoomCache) (user : String)
    (room : Nat) : ∀ m ∈ w.head user room, ∃ n ∈
      ({ w with heads := savedHeads S w.heads call.credentials call.room cached current, cache } : World).head user room,
        m ≤ n := by
  intro m hm
  rw [head_saved h]
  split
  · rename_i hsame
    obtain ⟨rfl, rfl⟩ := hsame
    obtain ⟨head, hhead, rfl⟩ := Option.map_eq_some_iff.mp hm
    have hclear := h.clear head hhead
    have hiff := conflicts_iff current hcached (hw.heads _ _ head hhead)
    refine ⟨_, rfl, ?_⟩
    by_contra hlt
    rw [hiff.mpr (Nat.lt_of_not_le hlt)] at hclear
    cases hclear
  · exact ⟨m, hm, Nat.le_refl m⟩

theorem sound_saved (hw : w.Sound S) (hcached : Follows S.crypto (w.server call.room) cached)
    (h : Saves S w.heads w.cache call.credentials call.room cached current) :
    ({ w with heads := savedHeads S w.heads call.credentials call.room cached current } : World).Sound S where
  numbered := hw.numbered
  heads user room head hhead := by
    unfold savedHeads at hhead
    rw [headOf_insert] at hhead
    split at hhead
    · rename_i hsame
      obtain ⟨rfl, rfl⟩ := hsame
      obtain rfl := Option.some.inj hhead
      obtain ⟨hversion, hstands⟩ := hcached.version_last h.newest
      show Stands _ _ current.state.version current.hash
      rw [hversion]
      exact hstands
    · exact hw.heads user room head hhead
  cache := hw.cache
  saved user room version hversion := by
    obtain ⟨m, hm, hle⟩ := hw.saved user room version hversion
    obtain ⟨n, hn, hmn⟩ := forward_saved hw hcached h w.cache user room m hm
    exact ⟨n, hn, Nat.le_trans hle hmn⟩
  calls := hw.calls

theorem cached_stored {stored : CachedRoom}
    (h : Saves S w.heads w.cache call.credentials call.room cached current) (hstates : stored.states = cached.states)
    (hlogin : call.credentials = credentials S call.credentials.generation) (heads : Heads) (user : String)
    (room version : Nat)
    (hversion : ({ w with heads, cache := { w.cache with rooms := w.cache.rooms.insert call.room stored } } :
      World).cached S user room = some version) :
    (call.credentials.userId = user ∧ call.room = room ∧ version = current.state.version) ∨
      w.cached S user room = some version := by
  unfold World.cached at hversion ⊢
  dsimp only at hversion
  split at hversion
  · rename_i huser
    rw [if_pos huser]
    simp only [Std.TreeMap.getElem?_insert, Nat.compare_eq_eq] at hversion
    split at hversion
    · rename_i hroom
      refine .inl ⟨?_, hroom, ?_⟩
      · rw [hlogin, ← huser, h.generation]
        rfl
      · rw [Option.bind_some, CachedRoom.version, hstates, h.newest] at hversion
        exact (Option.some.inj hversion).symm
    · exact .inr hversion
  · cases hversion

/-- Storing keeps the invariant, and takes nothing back. -/
theorem sound_remembers {out : Except KeyError CachedRoom × Heads × RoomCache} (hw : w.Sound S)
    (hcached : Follows S.crypto (w.server call.room) cached)
    (hlogin : call.credentials = credentials S call.credentials.generation)
    (h : Remembers S w.heads w.cache call.credentials call.room cached out) :
    ({ w with heads := out.2.1, cache := out.2.2 } : World).Sound S ∧
      w.Ahead S { w with heads := out.2.1, cache := out.2.2 } := by
  cases h with
  | refused e => exact ⟨hw, .refl w⟩
  | saved e current h =>
    exact ⟨sound_saved hw hcached h, ⟨forward_saved hw hcached h w.cache, fun _ _ _ hn => .inl hn⟩⟩
  | stored current stored h hstates =>
    have hsaved := sound_saved hw hcached h
    refine ⟨⟨hsaved.numbered, hsaved.heads, ?_, ?_, hsaved.calls⟩, forward_saved hw hcached h _, ?_⟩
    · intro room c hc
      simp only [Std.TreeMap.getElem?_insert, Nat.compare_eq_eq] at hc
      split at hc
      · rename_i hroom
        subst hroom
        obtain rfl := Option.some.inj hc
        intro i v hv
        exact hcached i v (by rw [← hstates]; exact hv)
      · exact hw.cache room c hc
    · intro user room version hversion
      rw [head_saved h]
      rcases cached_stored h hstates hlogin _ user room version hversion with ⟨rfl, rfl, rfl⟩ | hold
      · exact ⟨_, if_pos ⟨rfl, rfl⟩, Nat.le_refl _⟩
      · obtain ⟨m, hm, hle⟩ := hw.saved user room version hold
        obtain ⟨n, hn, hmn⟩ := forward_saved hw hcached h w.cache user room m hm
        rw [head_saved h] at hn
        exact ⟨n, hn, Nat.le_trans hle hmn⟩
    · intro user room version hversion
      rcases cached_stored h hstates hlogin _ user room version hversion with ⟨rfl, rfl, rfl⟩ | hold
      · refine .inr fun m hm => ?_
        obtain ⟨n, hn, hmn⟩ := forward_saved hw hcached h w.cache _ _ m hm
        rw [head_saved h, if_pos ⟨rfl, rfl⟩] at hn
        exact Option.some.inj hn ▸ hmn
      · exact .inl hold

end

/-! ### Runs -/

theorem callNext_sound (hw : w.Sound S) (hc : w.calls call = some c) (e : LoadEvent) :
    (w.callNext S call c e).Sound S ∧ w.Ahead S (w.callNext S call c e) := by
  obtain ⟨hphase, hlogin⟩ := hw.calls call c hc
  have hkeep : ∀ {phase : Phase}, phase.Follows S.crypto (w.server c.room) →
      (w.setPhase call c phase).Sound S ∧ w.Ahead S (w.setPhase call c phase) := fun hnext =>
    ⟨sound_setPhase hw hnext hlogin, (Ahead.refl w).setPhase ..⟩
  unfold callNext
  split
  · split
    · have hwithin : RoomCache.Within { w.cache with registered := some c.credentials.keys.deviceId } w.cache :=
        RoomCache.Within.refl w.cache
      have hsound := sound_within hw hwithin
      exact ⟨sound_setPhase hsound (follows_cachedRoom hsound c.room) hlogin, (ahead_within hwithin).setPhase ..⟩
    · exact ⟨hw, .refl w⟩
  · split
    · rename_i hasking
      rw [hasking] at hphase
      exact hkeep hphase
    · exact ⟨hw, .refl w⟩
  · split
    · rename_i hreading
      rw [hreading] at hphase
      exact hkeep ⟨hphase, page_keyStates (hw.numbered _) hphase⟩
    · exact ⟨hw, .refl w⟩
  · split
    · rename_i hanswered
      rw [hanswered] at hphase
      exact hkeep (follows_takeHistory (hw.numbered _) hphase.1 hphase.2)
    · exact ⟨hw, .refl w⟩
  · split
    · rename_i hinitializing
      rw [hinitializing] at hphase
      exact hkeep hphase
    · exact ⟨hw, .refl w⟩
  · split
    · rename_i readable save _ cached hremembering
      rw [hremembering] at hphase
      obtain ⟨hsound, hahead⟩ := sound_remembers hw hphase hlogin
        (remembers S w.heads w.cache readable save c.credentials c.room cached)
      exact ⟨sound_setPhase hsound trivial hlogin, hahead.setPhase ..⟩
    · exact ⟨hw, .refl w⟩
  · split
    · exact ⟨hw, .refl w⟩
    · exact ⟨hw, .refl w⟩
    · exact hkeep trivial
  · exact ⟨hw, .refl w⟩

theorem sound_append (hw : w.Sound S) (room : Nat) (body signature : Bytes) :
    (w.next S (.append room body signature)).Sound S := by
  have hserver : ∀ r, (w.next S (.append room body signature)).server r = w.server r ∨
      ∃ row, (w.next S (.append room body signature)).server r = w.server r ++ [row] := by
    intro r
    by_cases hr : r = room
    · subst hr
      exact .inr ⟨_, Function.update_self ..⟩
    · exact .inl (Function.update_of_ne hr ..)
  refine ⟨fun r => ?_, fun user r head hhead => ?_, fun r c hc => ?_, hw.saved, fun id c hc => ?_⟩
  · by_cases hr : r = room
    · subst hr
      show Numbered (Function.update w.server r _ r)
      rw [Function.update_self]
      exact (hw.numbered r).append body signature
    · show Numbered (Function.update w.server room _ r)
      rw [Function.update_of_ne hr]
      exact hw.numbered r
  · have hstands := hw.heads user r head hhead
    rcases hserver r with hsame | ⟨row, hrow⟩
    · rwa [hsame]
    · rw [hrow]
      exact hstands.append row
  · have hfollows := hw.cache r c hc
    rcases hserver r with hsame | ⟨row, hrow⟩
    · rwa [hsame]
    · rw [hrow]
      exact hfollows.append row
  · obtain ⟨hphase, hlogin⟩ := hw.calls id c hc
    refine ⟨?_, hlogin⟩
    rcases hserver c.room with hsame | ⟨row, hrow⟩
    · rwa [hsame]
    · rw [hrow]
      exact hphase.append row

theorem sound_changeRoom (hw : w.Sound S) (room : Nat) (hchange : ∀ cached, (change cached).states = cached.states) :
    (w.changeRoom room change).Sound S ∧ w.Ahead S (w.changeRoom room change) := by
  unfold changeRoom
  cases hroom : w.cache.rooms[room]? with
  | none => exact ⟨hw, .refl w⟩
  | some cached =>
    have hwithin := within_changeRoom hroom (hchange cached)
    exact ⟨sound_within hw hwithin, ahead_within hwithin⟩

/-- A step keeps the invariant, and takes no head and no cached room back. -/
theorem sound_next (hw : w.Sound S) (e : LoadEvent) : (w.next S e).Sound S ∧ w.Ahead S (w.next S e) := by
  have hcall : ∀ call, ((w.calls call).map fun c => w.callNext S call c e).getD w =
      (w.next S e) → (w.next S e).Sound S ∧ w.Ahead S (w.next S e) := by
    intro call hnext
    rw [← hnext]
    cases hc : w.calls call with
    | none => exact ⟨hw, .refl w⟩
    | some c => exact callNext_sound hw hc e
  cases e with
  | append room body signature =>
    exact ⟨sound_append hw room body signature, fun _ _ m hm => ⟨m, hm, Nat.le_refl m⟩, fun _ _ _ hn => .inl hn⟩
  | begin call generation room =>
    unfold next
    simp only
    split
    · exact ⟨sound_begin hw, ahead_begin ..⟩
    · exact ⟨hw, .refl w⟩
  | markMembersChecked room now => exact sound_changeRoom hw room fun _ => rfl
  | markIssuesChecked room now => exact sound_changeRoom hw room fun _ => rfl
  | forgetRoom room => exact ⟨sound_within hw (within_forget w room), ahead_within (within_forget w room)⟩
  | restart =>
    have hempty : RoomCache.Within RoomCache.start w.cache := within_empty rfl
    have hsound := sound_within hw hempty
    have hahead := ahead_within (S := S) hempty
    exact ⟨⟨hsound.numbered, hsound.heads, hsound.cache, hsound.saved, nofun⟩, hahead.head, hahead.cached⟩
  | registered call => exact hcall call rfl
  | readRoom call => exact hcall call rfl
  | readStates call => exact hcall call rfl
  | take call => exact hcall call rfl
  | initialized call => exact hcall call rfl
  | remember call => exact hcall call rfl
  | fail call => exact hcall call rfl

def Step (S : Setup) (w : World) (e : LoadEvent) (w' : World) : Prop := w' = w.next S e

theorem sound_start (S : Setup) : World.start.Sound S where
  numbered _ _ _ h := by simp [World.start] at h
  heads _ _ _ h := by simp [World.start, headOf] at h
  cache _ _ h := by simp [World.start, RoomCache.start] at h
  saved _ _ _ h := by simp [World.start, World.cached, RoomCache.start] at h
  calls _ _ h := by simp [World.start] at h

theorem sound_step {e : LoadEvent} {w' : World} (hw : w.Sound S) (hstep : Step S w e w') : w'.Sound S := by
  obtain rfl : w' = w.next S e := hstep
  exact (sound_next hw e).1

variable {es : List LoadEvent}

theorem sound_run (hv : v.Sound S) (hrun : Run (Step S) v es w) : w.Sound S :=
  hrun.invariant (fun h hstep => sound_step h hstep) hv

/-- Over a run, a head goes forward, and so does what the cache has of a room, whenever it has something. -/
theorem forward_run (hv : v.Sound S) (hrun : Run (Step S) v es w) :
    ∀ user room, (∀ m ∈ v.head user room, ∃ n ∈ w.head user room, m ≤ n) ∧
      ∀ m ∈ v.cached S user room, ∀ n ∈ w.cached S user room, m ≤ n := by
  intro user room
  induction hrun with
  | nil =>
    refine ⟨fun m hm => ⟨m, hm, Nat.le_refl m⟩, fun m hm n hn => ?_⟩
    rw [Option.mem_def] at hm hn
    exact Nat.le_of_eq (Option.some.inj (hm.symm.trans hn))
  | snoc hrun hnext ih =>
    rename_i u w es e
    obtain rfl : w = u.next S e := hnext
    have hu := sound_run hv hrun
    obtain ⟨hhead, hcached⟩ := ih
    have hahead := (sound_next hu e).2
    refine ⟨fun m hm => ?_, fun m hm n hn => ?_⟩
    · obtain ⟨k, hk, hmk⟩ := hhead m hm
      obtain ⟨n, hn, hkn⟩ := hahead.head user room k hk
      exact ⟨n, hn, Nat.le_trans hmk hkn⟩
    · rcases hahead.cached user room n hn with hold | hnew
      · exact hcached m hm n hold
      · obtain ⟨k, hk, hmk⟩ := hv.saved user room m hm
        obtain ⟨l, hl, hkl⟩ := hhead k hk
        exact Nat.le_trans hmk (Nat.le_trans hkl (hnew l hl))

/-! ### When a call fails over a changed history -/

/-- Another call has saved a newer head of the room than the states that this one has read, and this one can
    still read the heads, under the login of the cache. -/
def Behind (S : Setup) (w : World) (readable : Bool) (c : Call) (cached : CachedRoom) : Prop :=
  w.cache.generation = c.credentials.generation ∧ roomHeads S w.heads readable = .ok w.heads ∧
    ∃ current ∈ cached.states.getLast?, ∃ head ∈ w.head c.credentials.userId c.room, current.state.version < head

/-- No call comes to store states when it is behind. -/
def InTime (S : Setup) (w : World) : LoadEvent → Prop
  | .remember call readable _ =>
    ∀ c ∈ w.calls call, ∀ cached, c.phase = .remembering cached → ¬w.Behind S readable c cached
  | _ => True

/-- The call failed since the history changed unexpectedly. -/
def Fails (w : World) (call : Nat) : Prop := ∃ c ∈ w.calls call, c.phase = .done (.error .changed)

theorem remember_changed_iff (readable : Bool) (save : Save) (hw : w.Sound S)
    (hcached : Follows S.crypto (w.server c.room) cached) :
    (rememberRoom S w.heads w.cache readable save c.credentials c.room cached).1 = .error .changed ↔
      w.Behind S readable c cached := by
  unfold rememberRoom Behind
  by_cases hgeneration : w.cache.generation = c.credentials.generation
  swap
  · simp [hgeneration]
  rw [if_neg (not_not.mpr hgeneration)]
  cases hcurrent : cached.states.getLast? with
  | none => simp
  | some current =>
    cases hread : roomHeads S w.heads readable with
    | error e =>
      have he : e ≠ .changed := by
        unfold roomHeads at hread
        split at hread
        · cases hread
          exact nofun
        split at hread
        · cases hread
          exact nofun
        · cases hread
      simp [he]
    | ok heads =>
      obtain rfl : heads = w.heads := by
        unfold roomHeads at hread
        split at hread
        · cases hread
        split at hread
        · cases hread
        · exact (Except.ok.inj hread).symm
      have hany : (headOf w.heads c.credentials.userId c.room).any (·.conflicts current.state cached) = true ↔
          ∃ head ∈ w.head c.credentials.userId c.room, current.state.version < head := by
        rw [Option.any_eq_true]
        constructor
        · rintro ⟨head, hhead, hconflict⟩
          exact ⟨head.version, Option.map_eq_some_iff.mpr ⟨head, hhead, rfl⟩,
            (conflicts_iff _ hcached (hw.heads _ _ head hhead)).mp hconflict⟩
        · rintro ⟨version, hversion, hlt⟩
          obtain ⟨head, hhead, rfl⟩ := Option.map_eq_some_iff.mp hversion
          exact ⟨head, hhead, (conflicts_iff _ hcached (hw.heads _ _ head hhead)).mpr hlt⟩
      dsimp only
      by_cases hconflict : (headOf w.heads c.credentials.userId c.room).any (·.conflicts current.state cached) = true
      · rw [if_pos hconflict]
        exact iff_of_true rfl ⟨hgeneration, rfl, current, rfl, hany.mp hconflict⟩
      · rw [if_neg hconflict]
        refine iff_of_false ?_ ?_
        · cases save with
          | failed renamed => exact nofun
          | done =>
            dsimp only
            cases openEarlier S.cipher cached with
            | error e => exact nofun
            | ok keys => exact nofun
        · rintro ⟨-, -, current', hcurrent', hbehind⟩
          obtain rfl := Option.some.inj hcurrent'
          exact hconflict (hany.mpr hbehind)

variable {readable : Bool} {outside : Except Error Root} {owner : String}

theorem roomAnchor_unchanged {heads : Heads} {userId : String} {e : KeyError}
    (h : roomAnchor S heads readable outside userId room cached owner = .error e) : e ≠ .changed := by
  have hmap : ∀ {x : Except Error Root}, x.mapError KeyError.state = .error e → e ≠ .changed := by
    rintro (error | root) hx
    · cases hx
      exact nofun
    · cases hx
  unfold roomAnchor at h
  split at h
  · split at h
    · cases h
      exact nofun
    · exact hmap h
  · split at h
    · rename_i hread
      obtain rfl := Except.error.inj h
      unfold roomHeads at hread
      split at hread
      · cases hread
        exact nofun
      split at hread
      · cases hread
        exact nofun
      · cases hread
    · split at h
      · cases h
      · exact hmap h

variable {nowMs : Nat} {credentials : Credentials}

theorem absorbState_unchanged {anchor : Root} :
    ∀ {states : List SignedState} {cached : CachedRoom} {e : KeyError},
      states.foldlM (absorbState S credentials nowMs room owner anchor) cached = .error e → e ≠ .changed
  | [], _, _, h => by cases h
  | signed :: states, cached, e, h => by
    rw [List.foldlM_cons] at h
    cases hone : absorbState S credentials nowMs room owner anchor cached signed with
    | ok middle =>
      rw [hone] at h
      exact absorbState_unchanged h
    | error e' =>
      rw [hone] at h
      obtain rfl := Except.error.inj h
      unfold absorbState at hone
      split at hone
      · obtain rfl := Except.error.inj hone
        split
        · exact nofun
        · exact nofun
      · cases hone
        exact nofun
      · cases hone

/-- Whatever the server answers, taking the answer does not fail over a changed history. -/
theorem takeHistory_unchanged {heads : Heads} {attempts : Nat} {history : KeyHistory} :
    takeHistory S heads readable outside nowMs credentials room cached attempts history ≠ .done (.error .changed) := by
  unfold takeHistory
  simp only
  split
  · exact nofun
  split
  · split
    · exact nofun
    · exact nofun
  split
  · rename_i hanchor
    intro h
    cases h
    exact roomAnchor_unchanged hanchor rfl
  split
  · exact nofun
  split
  · rename_i hstates
    intro h
    cases h
    exact absorbState_unchanged hstates rfl
  split
  · exact nofun
  split
  · exact nofun
  · exact nofun

/-- A call that is given a new phase fails as that phase does. -/
theorem fails_setPhase {w' : World} {id : Nat} {phase : Phase} (hcalls : w'.calls = w.calls) :
    (w'.setPhase call c phase).Fails id ↔ if id = call then phase = .done (.error .changed) else w.Fails id := by
  unfold Fails setPhase
  simp only [Function.update_apply, hcalls]
  split
  · simp
  · rfl

/-- The steps that make a call fail over a changed history are those of a call that is behind. -/
theorem fails_next_iff (hw : w.Sound S) (hquiet : ∀ id, ¬w.Fails id) (e : LoadEvent) :
    (∀ id, ¬(w.next S e).Fails id) ↔ w.InTime S e := by
  have hset : ∀ {w' : World} {call : Nat} {c : Call} {phase : Phase}, w'.calls = w.calls →
      phase ≠ .done (.error .changed) → ∀ id, ¬(w'.setPhase call c phase).Fails id := by
    intro w' call c phase hcalls hphase id
    rw [fails_setPhase hcalls]
    split
    · exact hphase
    · exact hquiet id
  have hcall : ∀ {call : Nat} {w' : World}, ((w.calls call).map fun c => w.callNext S call c e).getD w = w' →
      (∀ c, w.calls call = some c → ∀ id, ¬(w.callNext S call c e).Fails id) → ∀ id, ¬w'.Fails id := by
    rintro call w' rfl hnext
    cases hc : w.calls call with
    | none => exact hquiet
    | some c => exact hnext c hc
  cases e with
  | append room body signature => exact iff_of_true hquiet trivial
  | begin call generation room =>
    refine iff_of_true ?_ trivial
    unfold next
    simp only
    split
    · unfold begin
      simp only
      split
      · exact hset rfl nofun
      · exact hset rfl nofun
    · exact hquiet
  | registered call | readRoom call | readStates call | initialized call =>
    refine iff_of_true (hcall rfl fun c _ => ?_) trivial
    unfold callNext
    simp only
    split
    · exact hset rfl nofun
    · exact hquiet
  | take call =>
    refine iff_of_true (hcall rfl fun c _ => ?_) trivial
    unfold callNext
    simp only
    split
    · exact hset rfl takeHistory_unchanged
    · exact hquiet
  | fail call =>
    refine iff_of_true (hcall rfl fun c _ => ?_) trivial
    unfold callNext
    simp only
    split
    · exact hquiet
    · exact hquiet
    · exact hset rfl nofun
  | markMembersChecked room now | markIssuesChecked room now =>
    refine iff_of_true ?_ trivial
    show ∀ id, ¬(w.changeRoom room _).Fails id
    unfold changeRoom
    split
    · exact hquiet
    · exact hquiet
  | forgetRoom room => exact iff_of_true hquiet trivial
  | restart =>
    refine iff_of_true (fun id hfails => ?_) trivial
    obtain ⟨c, hc, -⟩ := hfails
    exact absurd hc nofun
  | remember call readable save =>
    cases hc : w.calls call with
    | none =>
      refine iff_of_true (hcall rfl fun c h => ?_) fun c h => ?_
      · rw [hc] at h
        cases h
      · rw [hc] at h
        cases h
    | some c =>
      have hnext : w.next S (.remember call readable save) = w.callNext S call c (.remember call readable save) := by
        simp only [next, LoadEvent.call?, Option.bind_some, hc, Option.map_some, Option.getD_some]
      rw [hnext]
      unfold callNext InTime
      simp only [hc]
      split
      · rename_i cached hremembering
        have hfollows := (hw.calls call c hc).1
        rw [hremembering] at hfollows
        have hiff := remember_changed_iff readable save hw hfollows
        constructor
        · rintro hall _ ⟨⟩ cached' hcached' hbehind
          obtain rfl : cached = cached' := by
            rw [hremembering] at hcached'
            exact Phase.remembering.inj hcached'
          refine hall call ((fails_setPhase (w := w) rfl).mpr ?_)
          rw [if_pos rfl]
          exact congrArg Phase.done (hiff.mpr hbehind)
        · intro hintime
          refine hset rfl fun hdone => ?_
          exact hintime c rfl cached hremembering (hiff.mp (Phase.done.inj hdone))
      · rename_i hother
        exact iff_of_true hquiet fun c' hc' cached hremembering => by
          cases hc'
          exact absurd hremembering (hother cached)

/-- Runs under one guard are runs under another one that follows from it as long as no call has failed. -/
theorem run_guard {G G' : World → LoadEvent → Prop}
    (himp : ∀ u e, u.Sound S → (∀ call, ¬u.Fails call) → G u e → G' u e ∧ ∀ call, ¬(u.next S e).Fails call)
    (hrun : Run (Guarded G (Step S)) start es w) : Run (Guarded G' (Step S)) start es w ∧ ∀ call, ¬w.Fails call := by
  induction hrun with
  | nil =>
    refine ⟨.nil, ?_⟩
    rintro call ⟨c, hc, -⟩
    cases hc
  | snoc hbefore hnext ih =>
    obtain ⟨hafter, hfails⟩ := ih
    obtain ⟨hguard, hstep⟩ := hnext
    obtain ⟨hguard', hnone⟩ := himp _ _ (sound_run (sound_start S) hbefore.unguard) hfails hguard
    exact ⟨.snoc hafter ⟨hguard', hstep⟩, by rw [show _ = _ from hstep]; exact hnone⟩

/-- A call that asks takes what the server answers then. -/
theorem asks {attempts : Nat} {members : List String}
    (hcall : w.calls call = some ⟨credentials, room, .asking cached attempts⟩) :
    [LoadEvent.readRoom call owner members, .readStates call, .take call nowMs readable outside].foldl (next S) w =
      w.setPhase call ⟨credentials, room, .asking cached attempts⟩
        (takeHistory S w.heads readable outside nowMs credentials room cached attempts
          ⟨owner, members, (w.server room).length, keyStates (w.server room) (cached.version.getD 0)⟩) := by
  simp only [List.foldl_cons, List.foldl_nil, next, LoadEvent.call?, Option.bind_some, hcall, Option.map_some,
    Option.getD_some, callNext, setPhase, Function.update_self, Function.update_idem]

end World

/-! ### Two calls for the room of one person -/

theorem keyStates_one {r : KeyRow} (hr : r.version = 1) : keyStates [r] 0 = [stateDto r] := by
  simp [keyStates, lastOfPage, hr, KeyHistoryPageStates]

theorem keyStates_two {r r' : KeyRow} (hr : r.version = 1) (hr' : r'.version = 2)
    (hsize : r.size + r'.size ≤ KeyHistoryPageBytes) : keyStates [r, r'] 0 = [stateDto r, stateDto r'] := by
  have hfits : ¬KeyHistoryPageBytes < r.size + r'.size := by omega
  simp [keyStates, lastOfPage, hr, hr', KeyHistoryPageStates, hfits]

namespace Plain
open Identity.Plain World

/-- Nothing can be opened yet. -/
def cipher : Cipher := ⟨fun _ _ _ _ => none, fun _ _ _ _ => none, fun _ _ _ => none, fun _ _ _ => none⟩

def login : Login := ⟨userId, ⟨"first", key 1, ⟨[], []⟩, none⟩⟩

def setup : Setup := ⟨crypto, cipher, parse, fun _ => 200, fun _ => login⟩

def row (version : Nat) (bytes : Bytes) : KeyRow := ⟨version, bytes, owner.key.sign (STATE_DOMAIN ++ bytes)⟩

theorem stateDto_row (o : Owner crypto) (state : State) (bytes : Bytes) :
    stateDto ⟨state.version, bytes, o.key.sign (STATE_DOMAIN ++ bytes)⟩ = o.signs state bytes := rfl

theorem dto₁ : stateDto (row 1 bytes₁) = owner.signs state₁ bytes₁ := stateDto_row owner state₁ bytes₁
theorem dto₂ : stateDto (row 2 bytes₂) = owner.signs state₂ bytes₂ := stateDto_row owner state₂ bytes₂

theorem size_row {version : Nat} {bytes : Bytes} : (row version bytes).size = bytes.length + 3309 := by
  rw [KeyRow.size, row]
  exact congrArg (bytes.length + ·) (owner.hworks.length _)

theorem page₁ : keyStates [row 1 bytes₁] 0 = [owner.signs state₁ bytes₁] := by
  rw [keyStates_one rfl, dto₁]

theorem sizes_fit {m n : Nat} (hm : m ≤ 240000) (hn : n ≤ STATE_BODY_MOST) :
    m + 3309 + (n + 3309) ≤ KeyHistoryPageBytes := by
  have hmost : STATE_BODY_MOST = 3145728 := rfl
  have hpage : KeyHistoryPageBytes = 4194304 := rfl
  omega

theorem page₂ : keyStates [row 1 bytes₁, row 2 bytes₂] 0 = [owner.signs state₁ bytes₁, owner.signs state₂ bytes₂] := by
  have hsize : (row 1 bytes₁).size + (row 2 bytes₂).size ≤ KeyHistoryPageBytes := by
    simp only [size_row]
    exact sizes_fit length_bytes₁ length_bytes₂
  rw [keyStates_two rfl rfl hsize, dto₁, dto₂]

def loaded₁ : CachedRoom := ⟨[owner.verified state₁ bytes₁], ∅, none, none⟩
def loaded₂ : CachedRoom := ⟨[owner.verified state₁ bytes₁, owner.verified state₂ bytes₂], ∅, none, none⟩

/-- The device cannot open its copy of the key. -/
theorem unwraps_nothing (version : Nat) (hash : String) :
    unwrap cipher (ownState version hash) userId login.keys = .error (.invalid "Cannot open room keys.") := by
  have hfound : (ownState version hash).recipients.find? (fun r => r.userId = userId ∧ r.deviceId = "first") =
      some ⟨userId, "first", "", ⟨"", ""⟩⟩ := by
    show [(⟨userId, "first", "", ⟨"", ""⟩⟩ : Recipient)].find? _ = _
    rw [List.find?_cons_of_pos (by simp)]
  have hempty : decode "" (KEM_CIPHERTEXT_BYTES + AGREEMENT_BYTES) = .ok [] := by decide
  have hfor : unwrapFor cipher (ownState version hash) userId "first" ⟨[], []⟩ =
      .error (.invalid "Cannot open room keys.") := by
    rw [unwrapFor, hfound]
    refine (ok_bind rfl).trans ((ok_bind hempty).trans ?_)
    rfl
  unfold unwrap
  rw [show login.keys.deviceId = "first" from rfl, show login.keys.room = ⟨[], []⟩ from rfl, hfor]
  rfl

theorem absorbs (version : Nat) (hash : String) {signed : SignedState} {cached : CachedRoom} {verified : VerifiedState}
    (hverified : verifyState crypto parse 3000 signed 7 userId owner.root cached.states.getLast? = .ok verified)
    (hstate : verified.state = ownState version hash) :
    absorbState setup ⟨login, 1⟩ 3000 7 userId owner.root cached signed =
      .ok { cached with states := cached.states ++ [verified] } := by
  have hunwrap := unwraps_nothing version hash
  rw [← hstate] at hunwrap
  unfold absorbState
  simp only [setup, hverified]
  rw [show unwrap cipher verified.state login.userId login.keys = _ from hunwrap]

theorem absorbs₁ : absorbState setup ⟨login, 1⟩ 3000 7 userId owner.root .start (owner.signs state₁ bytes₁) = .ok loaded₁ :=
  absorbs 1 "" verifies_first rfl

theorem absorbs₂ : absorbState setup ⟨login, 1⟩ 3000 7 userId owner.root loaded₁ (owner.signs state₂ bytes₂) = .ok loaded₂ :=
  absorbs 2 (digest crypto bytes₁) verifies_second rfl

theorem reads_heads (heads : Heads) : roomHeads setup heads true = .ok heads := by
  unfold roomHeads
  rw [if_neg (by simp), if_neg (by show ¬1024 * 1024 < 200; omega)]

theorem anchors : roomAnchor setup ∅ true (.ok owner.root) userId 7 .start userId = .ok owner.root := by
  have hnone : headOf ∅ userId 7 = none := by simp [headOf]
  unfold roomAnchor
  simp only [CachedRoom.start, List.head?_nil, reads_heads, hnone, Option.bind_none]
  rfl

def answer₁ : KeyHistory := ⟨userId, [userId], 1, [owner.signs state₁ bytes₁]⟩
def answer₂ : KeyHistory := ⟨userId, [userId], 2, [owner.signs state₁ bytes₁, owner.signs state₂ bytes₂]⟩

theorem takes {history : KeyHistory} {loaded : CachedRoom} (howner : history.ownerUserId = userId)
    (hversion : history.version ≠ 0) (hstates : history.states ≠ [])
    (hloads : history.states.foldlM (absorbState setup ⟨login, 1⟩ 3000 7 userId owner.root) .start = .ok loaded)
    (hnewest : loaded.version = some history.version) :
    takeHistory setup ∅ true (.ok owner.root) 3000 ⟨login, 1⟩ 7 .start 0 history = .remembering loaded := by
  have hafter : CachedRoom.start.version.getD 0 = 0 := rfl
  unfold takeHistory
  simp only [hafter]
  rw [if_neg (Nat.not_lt_zero _), if_neg hversion, howner,
    show roomAnchor setup ∅ true (.ok owner.root) login.userId 7 .start userId = _ from anchors]
  simp only
  rw [if_neg fun h => hstates h.1, hloads]
  simp only
  rw [if_pos hnewest]

theorem takes₁ : takeHistory setup ∅ true (.ok owner.root) 3000 ⟨login, 1⟩ 7 .start 0 answer₁ = .remembering loaded₁ := by
  refine takes rfl Nat.one_ne_zero (List.cons_ne_nil _ _) ?_ rfl
  rw [answer₁, List.foldlM_cons, ok_bind absorbs₁]
  rfl

theorem takes₂ : takeHistory setup ∅ true (.ok owner.root) 3000 ⟨login, 1⟩ 7 .start 0 answer₂ = .remembering loaded₂ := by
  refine takes rfl (Nat.succ_ne_zero 1) (List.cons_ne_nil _ _) ?_ rfl
  rw [answer₂, List.foldlM_cons, ok_bind absorbs₁, List.foldlM_cons, ok_bind absorbs₂]
  rfl

/-- The first call reads the first state, the second call both, and the second one stores first. -/
def before : List LoadEvent :=
  [.append 7 bytes₁ (owner.key.sign (STATE_DOMAIN ++ bytes₁)), .begin 0 1 7, .registered 0]
def reads (call : Nat) : List LoadEvent :=
  [.readRoom call userId [userId], .readStates call, .take call 3000 true (.ok owner.root)]
def between : List LoadEvent := [.append 7 bytes₂ (owner.key.sign (STATE_DOMAIN ++ bytes₂)), .begin 1 1 7]
def stores : List LoadEvent := [.remember 1 true .done, .remember 0 true .done]

def calling (phase : Phase) : Call := ⟨⟨login, 1⟩, 7, phase⟩

def asked : World where
  server := Function.update (fun _ => []) 7 [row 1 bytes₁]
  heads := ∅
  cache := ⟨1, ∅, some "first"⟩
  calls := Function.update (fun _ => none) 0 (some (calling (.asking .start 0)))

theorem reaches_asked : before.foldl (next setup) start = asked := by
  simp [before, next, start, begin, cacheFor, RoomCache.start, LoadEvent.call?, callNext, setPhase, credentials, setup,
    cachedRoom, asked, calling, row, Function.update_idem, login]

/-- The first call has read the first state; the second call begins behind the second state. -/
def askedAgain : World where
  server := Function.update (fun _ => []) 7 [row 1 bytes₁, row 2 bytes₂]
  heads := ∅
  cache := ⟨1, ∅, some "first"⟩
  calls := Function.update (Function.update (fun _ => none) 0 (some (calling (.remembering loaded₁)))) 1
    (some (calling (.asking .start 0)))

theorem reaches_asked_again : between.foldl (next setup) ((reads 0).foldl (next setup) asked) = askedAgain := by
  have hserver : asked.server 7 = [row 1 bytes₁] := by simp [asked]
  have hcall : asked.calls 0 = some ⟨⟨login, 1⟩, 7, .asking .start 0⟩ := by simp [asked, calling]
  have hfirst : (reads 0).foldl (next setup) asked = asked.setPhase 0 (calling (.asking .start 0)) (.remembering loaded₁) := by
    refine (asks hcall).trans ?_
    rw [hserver, show CachedRoom.start.version.getD 0 = 0 from rfl, page₁]
    exact congrArg _ takes₁
  rw [hfirst]
  simp [between, next, begin, cacheFor, setPhase, credentials, setup, cachedRoom, asked, askedAgain, calling, row, login]

/-- The two calls are about to store. -/
theorem reads_again : (reads 1).foldl (next setup) askedAgain =
    askedAgain.setPhase 1 (calling (.asking .start 0)) (.remembering loaded₂) := by
  have hserver : askedAgain.server 7 = [row 1 bytes₁, row 2 bytes₂] := by simp [askedAgain]
  have hcall : askedAgain.calls 1 = some ⟨⟨login, 1⟩, 7, .asking .start 0⟩ := by simp [askedAgain, calling]
  refine (asks hcall).trans ?_
  rw [hserver, show CachedRoom.start.version.getD 0 = 0 from rfl, page₂]
  exact congrArg _ takes₂

theorem stores_second : rememberRoom setup ∅ ⟨1, ∅, some "first"⟩ true .done ⟨login, 1⟩ 7 loaded₂ =
    (.ok loaded₂, savedHeads setup ∅ ⟨login, 1⟩ 7 loaded₂ (owner.verified state₂ bytes₂),
      ⟨1, (∅ : Std.TreeMap Nat CachedRoom).insert 7 loaded₂, some "first"⟩) := by
  have hnone : headOf ∅ login.userId 7 = none := by simp [headOf]
  have hearlier : openEarlier setup.cipher loaded₂ = .ok ∅ := rfl
  have hempty : (∅ : Std.TreeMap Nat CachedRoom)[7]? = none := by simp
  unfold rememberRoom
  rw [if_neg (by simp), show loaded₂.states.getLast? = some (owner.verified state₂ bytes₂) from rfl, reads_heads]
  simp only
  rw [hnone, if_neg (by simp), hearlier]
  simp only [hempty]
  rfl

theorem refuses_first : (rememberRoom setup (savedHeads setup ∅ ⟨login, 1⟩ 7 loaded₂ (owner.verified state₂ bytes₂))
    ⟨1, (∅ : Std.TreeMap Nat CachedRoom).insert 7 loaded₂, some "first"⟩ true .done ⟨login, 1⟩ 7 loaded₁).1 =
      .error .changed := by
  have hhead : headOf (savedHeads setup ∅ ⟨login, 1⟩ 7 loaded₂ (owner.verified state₂ bytes₂)) login.userId 7 =
      some (loaded₂.head crypto (owner.verified state₂ bytes₂)) := by
    unfold savedHeads
    rw [headOf_insert, if_pos ⟨rfl, rfl⟩]
    rfl
  have hconflicts : (loaded₂.head crypto (owner.verified state₂ bytes₂)).conflicts state₁ loaded₁ = true := by
    unfold Head.conflicts
    rw [Bool.or_eq_true]
    exact .inl (decide_eq_true (show 1 < 2 by omega))
  unfold rememberRoom
  rw [if_neg (by simp), show loaded₁.states.getLast? = some (owner.verified state₁ bytes₁) from rfl, reads_heads]
  simp only
  rw [hhead, if_pos (by exact hconflicts)]

end Plain

/-! ### All runs -/

namespace World

/-- When calls load keys side by side, no head and no cached room goes back. No call has failed over a changed
    history in any state of a run exactly when every step of the run stores in time. -/
theorem loads_in_time {S : Setup} {v w : World} {es es' : List LoadEvent} (hrun : Run (Step S) start es v)
    (hrun' : Run (Step S) v es' w) :
    (Run (Guarded (InTime S) (Step S)) start (es ++ es') w ↔
      Run (Guarded (fun u e => ∀ call, ¬(u.next S e).Fails call) (Step S)) start (es ++ es') w) ∧
    ∀ user room, (∀ m ∈ v.head user room, ∃ n ∈ w.head user room, m ≤ n) ∧
      ∀ m ∈ v.cached S user room, ∀ n ∈ w.cached S user room, m ≤ n := by
  refine ⟨⟨fun h => (run_guard ?_ h).1, fun h => (run_guard ?_ h).1⟩,
    forward_run (sound_run (sound_start S) hrun) hrun'⟩
  · intro u e hsound hfails hintime
    have hnone := (fails_next_iff hsound hfails e).mpr hintime
    exact ⟨hnone, hnone⟩
  · intro u e hsound hfails hnone
    exact ⟨(fails_next_iff hsound hfails e).mp hnone, hnone⟩

end World

namespace Plain
open Identity.Plain World

/-- The first call reads in time. -/
theorem first_reads_in_time :
    Run (Guarded (fun u e => ∀ call, ¬(u.next setup e).Fails call) (Step setup)) start (before ++ reads 0)
      ((reads 0).foldl (next setup) (before.foldl (next setup) start)) := by
  have htrue : ∀ es : List LoadEvent, es = before ++ reads 0 → Run.Allows (InTime setup) (next setup) start es := by
    rintro es rfl
    exact ⟨trivial, trivial, trivial, trivial, trivial, trivial, trivial⟩
  refine (loads_in_time (Run.foldl (next setup) start before) (Run.foldl (next setup) _ (reads 0))).1.mp ?_
  rw [← List.foldl_append]
  exact Run.of_allows (htrue _ rfl)

/-- Of two calls side by side, one fails over a history that only grew. -/
theorem loads_fail : ∃ es w, Run (Step setup) start es w ∧ w.Fails 0 := by
  refine ⟨before ++ reads 0 ++ between ++ reads 1 ++ stores, _, Run.foldl (next setup) start _, ?_⟩
  simp only [List.foldl_append, reaches_asked, reaches_asked_again, reads_again]
  refine ⟨calling (.done (.error .changed)), ?_, rfl⟩
  simp [stores, next, callNext, setPhase, askedAgain, calling, LoadEvent.call?, stores_second, refuses_first]

end Plain

end Kodosi.Rooms
