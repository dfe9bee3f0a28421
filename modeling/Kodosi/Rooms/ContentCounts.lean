import Kodosi.Rooms.Content

/-! The storage of a room counts right: sequences grow, versions grow by one, the count of bytes is the sum over the stored
    items and within the limit, and what goes are the oldest messages. -/

namespace Kodosi.Rooms
open Kodosi.Lib Kodosi.Identity

/-- What holds of the content of a room between writes. -/
structure RoomContent.Counts (room : RoomContent) : Prop where
  ids : (room.items.map (·.id)).Nodup
  sequences : (room.items.map (·.sequence)).Nodup
  placed : ∀ x ∈ room.items, 0 < x.sequence ∧ x.sequence ≤ room.contentSequence
  versions : ∀ x ∈ room.items, 0 < x.version ∧ x.version ≤ x.sequence
  bytes : room.contentBytes = (room.items.map MissionItem.size).sum
  last : 0 ≤ room.contentSequence ∧ room.contentSequence ≤ LONG_MAX

namespace RoomContent

variable {room : RoomContent} {k n : Nat} {excess : Int} {t : Trim}

/-! ### The oldest messages -/

theorem mem_messages {x : MissionItem} : x ∈ room.messages ↔ x ∈ room.items ∧ x.kind = "message" := by
  rw [messages, List.mem_mergeSort, List.mem_filter, decide_eq_true_eq]

/-- The messages stand in the order of their sequences, none of which is there twice. -/
structure Sorted (room : RoomContent) : Prop where
  ids : (room.items.map (·.id)).Nodup
  sequences : (room.items.map (·.sequence)).Nodup
  positive : ∀ x ∈ room.items, 0 < x.sequence

theorem Sorted.rising (h : room.Sorted) : room.messages.Pairwise (·.sequence < ·.sequence) := by
  have hle : room.messages.Pairwise (fun a b => decide (a.sequence ≤ b.sequence) = true) := by
    refine List.pairwise_mergeSort ?_ ?_ _
    · intro a b c hab hbc
      exact decide_eq_true ((of_decide_eq_true hab).trans (of_decide_eq_true hbc))
    · intro a b
      rw [Bool.or_eq_true, decide_eq_true_eq, decide_eq_true_eq]
      exact le_total _ _
  have hne : room.messages.Pairwise (·.sequence ≠ ·.sequence) := by
    have hnodup : (room.messages.map (·.sequence)).Nodup := by
      have hperm := ((room.items.filter (·.kind = "message")).mergeSort_perm fun a b => a.sequence ≤ b.sequence).map
        (·.sequence)
      refine hperm.nodup_iff.mpr (List.Nodup.sublist ?_ h.sequences)
      exact List.filter_sublist.map _
    exact List.pairwise_map.mp hnodup
  refine (hle.and hne).imp fun hab => ?_
  exact lt_of_le_of_ne (of_decide_eq_true hab.1) hab.2

/-- A trim that has taken the `k` oldest messages. -/
structure Taken (room : RoomContent) (k : Nat) (t : Trim) : Prop where
  few : k ≤ room.messages.length
  removed : t.removed = (room.messages.take k).map (·.id)
  freed : t.freed = ((room.messages.take k).map MissionItem.size).sum
  before : ∀ x ∈ room.messages.take k, x.sequence ≤ t.after
  behind : ∀ x ∈ room.messages.drop k, t.after < x.sequence

theorem Taken.start (h : room.Sorted) : room.Taken 0 ⟨[], 0, 0⟩ where
  few := Nat.zero_le _
  removed := rfl
  freed := rfl
  before := fun _ hx => absurd hx List.not_mem_nil
  behind := fun x hx => h.positive x (mem_messages.mp hx).1

/-- The next page is what stands next. -/
theorem Taken.page (h : room.Taken k t) : room.page t.after = (room.messages.drop k).take TrimPage := by
  have hsplit := List.take_append_drop k room.messages
  have htake : (room.messages.take k).filter (t.after < ·.sequence) = [] := by
    refine List.filter_eq_nil_iff.mpr fun x hx => ?_
    rw [decide_eq_true_eq]
    exact not_lt.mpr (h.before x hx)
  have hdrop : (room.messages.drop k).filter (t.after < ·.sequence) = room.messages.drop k :=
    List.filter_eq_self.mpr fun x hx => decide_eq_true (h.behind x hx)
  rw [RoomContent.page, ← hsplit, List.filter_append, htake, List.nil_append, hsplit, hdrop]

theorem Taken.more (hsorted : room.Sorted) (h : room.Taken k t) {m : MissionItem} {rest : List MissionItem}
    (hnext : room.messages.drop k = m :: rest) :
    room.Taken (k + 1) ⟨t.removed ++ [m.id], t.freed + m.size, m.sequence⟩ ∧ room.messages.drop (k + 1) = rest := by
  have hlt : k < room.messages.length := by
    have hlength := congrArg List.length hnext
    rw [List.length_drop, List.length_cons] at hlength
    omega
  have hget : room.messages[k]? = some m := by
    rw [← List.head?_drop, hnext]
    rfl
  have htake : room.messages.take (k + 1) = room.messages.take k ++ [m] := by
    rw [List.take_add_one, hget]
    rfl
  have hrest : room.messages.drop (k + 1) = rest := by
    rw [← List.drop_drop, hnext]
    rfl
  have hrising := hsorted.rising
  rw [← List.take_append_drop k room.messages, hnext, List.pairwise_append] at hrising
  refine ⟨⟨hlt, ?_, ?_, ?_, ?_⟩, hrest⟩
  · rw [htake, List.map_append, h.removed]
    rfl
  · rw [htake, List.map_append, List.sum_append, h.freed]
    simp
  · intro x hx
    rw [htake] at hx
    rcases List.mem_append.mp hx with hx | hx
    · exact (hrising.2.2 x hx m List.mem_cons_self).le
    · rw [List.mem_singleton.mp hx]
  · intro x hx
    rw [hrest] at hx
    exact (List.pairwise_cons.mp hrising.2.1).1 x hx

/-- A page is taken from its front. -/
theorem Taken.oldest (hsorted : room.Sorted) (excess : Int) : ∀ (page : List MissionItem) {k : Nat} {t : Trim}, room.Taken k t →
    page <+: room.messages.drop k → ∃ k', k ≤ k' ∧ room.Taken k' (takeOldest excess page t) ∧
      (t.freed < excess → page ≠ [] → k < k')
  | [], k, t, h, _ => ⟨k, le_refl k, h, fun _ hne => absurd rfl hne⟩
  | m :: rest, k, t, h, hpage => by
    rw [takeOldest]
    by_cases hmore : t.freed < excess
    · rw [if_pos hmore]
      obtain ⟨tail, htail⟩ := hpage
      obtain ⟨htaken, hdrop⟩ := h.more hsorted htail.symm
      obtain ⟨k', hle, htaken', -⟩ := Taken.oldest hsorted excess rest htaken (by
        rw [hdrop]
        exact List.prefix_append rest tail)
      exact ⟨k', by omega, htaken', fun _ _ => by omega⟩
    · rw [if_neg hmore]
      exact ⟨k, le_refl k, h, fun hmore' => absurd hmore' hmore⟩

theorem Taken.pages (hsorted : room.Sorted) : ∀ {n k : Nat} {t t' : Trim}, room.Taken k t →
    room.trimPages excess n t = .ok t' → ∃ k', room.Taken k' t' ∧ excess ≤ t'.freed
  | 0, _, _, _, _, h => by cases h
  | n + 1, k, t, t', htaken, h => by
    rw [trimPages.eq_def] at h
    simp only at h
    by_cases hmore : t.freed < excess
    · rw [if_pos hmore, htaken.page] at h
      cases hpage : (room.messages.drop k).take TrimPage with
      | nil =>
        rw [hpage] at h
        cases h
      | cons m rest =>
        rw [hpage] at h
        obtain ⟨k', -, htaken', -⟩ := Taken.oldest hsorted excess (m :: rest) htaken (by
          rw [← hpage]
          exact List.take_prefix _ _)
        exact htaken'.pages hsorted h
    · rw [if_neg hmore] at h
      obtain rfl := Except.ok.inj h
      exact ⟨k, htaken, not_lt.mp hmore⟩

/-- What making a room small enough leaves of it. -/
structure Made (limit : Option Int) (room room' : RoomContent) : Prop where
  sub : room'.items.Sublist room.items
  sequence : room'.contentSequence = room.contentSequence
  bytes : room'.contentBytes - (room'.items.map MissionItem.size).sum = room.contentBytes - (room.items.map MissionItem.size).sum
  within : ∀ most ∈ limit, room'.contentBytes ≤ most
  oldest : ∀ x ∈ room.items, x ∈ room'.items ∨
    x.kind = "message" ∧ ∀ y ∈ room'.items, y.kind = "message" → x.sequence < y.sequence

theorem sum_filter (p : MissionItem → Bool) (items : List MissionItem) :
    ((items.filter p).map MissionItem.size).sum + ((items.filter fun x => !p x).map MissionItem.size).sum =
      (items.map MissionItem.size).sum := by
  have hperm := (List.filter_append_perm p items).map MissionItem.size
  rw [← hperm.sum_eq, List.map_append, List.sum_append]

variable {room' : RoomContent}

theorem Sorted.trimmed (h : room.Sorted) {most : Int} (htrim : room.trimHistory most = .ok room') :
    Made (some most) room room' := by
  obtain ⟨trim, hpages, hroom⟩ := bind_ok htrim
  obtain rfl := Except.ok.inj hroom
  obtain ⟨k, htaken, hfreed⟩ := (Taken.start h).pages h hpages
  have hmem : ∀ x ∈ room.items, x.id ∈ trim.removed ↔ x ∈ room.messages.take k := by
    intro x hx
    rw [htaken.removed]
    constructor
    · intro hid
      obtain ⟨y, hy, hyx⟩ := List.mem_map.mp hid
      have hyitems := (mem_messages.mp (List.mem_of_mem_take hy)).1
      rw [← List.inj_on_of_nodup_map h.ids hyitems hx hyx]
      exact hy
    · exact fun hy => List.mem_map_of_mem hy
  have hgone : (room.items.filter fun x => !decide (x.id ∉ trim.removed)).Perm (room.messages.take k) := by
    refine (List.perm_ext_iff_of_nodup ?_ ?_).mpr fun x => ?_
    · exact (List.Nodup.of_map _ h.ids).filter _
    · have hne : room.messages.Nodup := h.rising.imp fun hab heq => by
        rw [heq] at hab
        exact lt_irrefl _ hab
      exact hne.sublist (List.take_sublist k _)
    · rw [List.mem_filter]
      constructor
      · rintro ⟨hx, hremoved⟩
        exact (hmem x hx).mp (by simpa using hremoved)
      · intro hx
        have hitems := (mem_messages.mp (List.mem_of_mem_take hx)).1
        exact ⟨hitems, by simpa using (hmem x hitems).mpr hx⟩
  have hsum := sum_filter (fun x => decide (x.id ∉ trim.removed)) room.items
  have hfreedSum : ((room.items.filter fun x => !decide (x.id ∉ trim.removed)).map MissionItem.size).sum = trim.freed := by
    rw [htaken.freed]
    exact (hgone.map MissionItem.size).sum_eq
  refine ⟨List.filter_sublist, rfl, ?_, ?_, fun x hx => ?_⟩
  · simp only
    omega
  · intro limit hlimit
    obtain rfl := Option.some.inj hlimit
    simp only
    omega
  · by_cases hremoved : x.id ∈ trim.removed
    · have htake := (hmem x hx).mp hremoved
      refine .inr ⟨(mem_messages.mp (List.mem_of_mem_take htake)).2, fun y hy hkind => ?_⟩
      obtain ⟨hyitems, hykept⟩ := List.mem_filter.mp hy
      have hymessages : y ∈ room.messages := mem_messages.mpr ⟨hyitems, hkind⟩
      rw [← List.take_append_drop k room.messages] at hymessages
      rcases List.mem_append.mp hymessages with hytake | hydrop
      · exact absurd ((hmem y hyitems).mpr hytake) (of_decide_eq_true hykept)
      · exact lt_of_le_of_lt (htaken.before x htake) (htaken.behind y hydrop)
    · exact .inl (List.mem_filter.mpr ⟨hx, decide_eq_true hremoved⟩)

/-! ### One write -/

/-- What a write that is accepted makes of a room. -/
structure Accepted (facts : RoomFacts) (w : CheckedWrite) (room room' : RoomContent) (item : MissionItem) : Prop where
  stored : item ∈ room'.items ∧ item.id = w.itemId ∧ item.body = w.body ∧ item.signature = w.signature
  based : w.expectedVersion = ((room.items.find? (·.id = w.itemId)).map (·.version)).getD 0
  version : item.version = w.expectedVersion + 1
  sequence : item.sequence = room.contentSequence + 1 ∧ room'.contentSequence = room.contentSequence + 1
  others : ∀ x ∈ room'.items, x = item ∨ x ∈ room.items ∧ x.id ≠ w.itemId
  oldest : ∀ x ∈ room.items, x.id ≠ w.itemId → x ∈ room'.items ∨
    x.kind = "message" ∧ ∀ y ∈ room'.items, y.kind = "message" → x.sequence < y.sequence
  within : ∀ limit ∈ most facts, room'.contentBytes ≤ limit

/-- The room that a write found under the lock, made small enough. -/
theorem Sorted.made (h : room.Sorted) {facts : RoomFacts} (hroom : makeRoom facts room = .ok room') :
    Made (most facts) room room' := by
  have same (hwithin : ∀ limit ∈ most facts, room.contentBytes ≤ limit) : Made (most facts) room room :=
    ⟨List.Sublist.refl _, rfl, rfl, hwithin, fun x hx => .inl hx⟩
  rw [makeRoom.eq_def] at hroom
  cases hmost : most facts with
  | none =>
    rw [hmost] at hroom same
    obtain rfl := Except.ok.inj hroom
    exact same fun limit hlimit => by cases hlimit
  | some limit =>
    rw [hmost] at hroom same
    simp only at hroom
    by_cases hfull : limit < room.contentBytes
    · rw [if_pos hfull] at hroom
      exact h.trimmed hroom
    · rw [if_neg hfull] at hroom
      obtain rfl := Except.ok.inj hroom
      refine same fun other hother => ?_
      obtain rfl := Option.some.inj hother
      exact not_lt.mp hfull

variable {item : MissionItem}

/-- The item takes the place of an old one. -/
theorem sum_replaced {old : MissionItem} : ∀ {items : List MissionItem}, (items.map (·.id)).Nodup → old ∈ items →
    ((items.map fun x => if x.id = old.id then item else x).map MissionItem.size).sum =
      (items.map MissionItem.size).sum - old.size + item.size
  | x :: rest, hids, hold => by
    rw [List.map_cons, List.nodup_cons] at hids
    simp only [List.map_cons, List.sum_cons]
    rcases List.mem_cons.mp hold with rfl | hrest
    · have hsame : (rest.map fun x => if x.id = old.id then item else x) = rest := by
        refine (List.map_congr_left fun y hy => ?_).trans (List.map_id rest)
        rw [if_neg fun hid : y.id = old.id => hids.1 (hid ▸ List.mem_map_of_mem hy)]
        rfl
      rw [if_pos rfl, hsame]
      omega
    · have hne : x.id ≠ old.id := fun hid => hids.1 (hid.symm ▸ List.mem_map_of_mem hrest)
      rw [if_neg hne, sum_replaced hids.2 hrest]
      omega

/-- An item is found by its id exactly when it is stored. -/
theorem find_stored (items : List MissionItem) (id : Nat) :
    (∃ old, items.find? (·.id = id) = some old ∧ old ∈ items ∧ old.id = id) ∨
      items.find? (·.id = id) = none ∧ ∀ x ∈ items, x.id ≠ id := by
  cases hfind : items.find? (·.id = id) with
  | none => exact .inr ⟨rfl, fun x hx => of_decide_eq_false (by simpa using List.find?_eq_none.mp hfind x hx)⟩
  | some old =>
    have hid := List.find?_some hfind
    exact .inl ⟨old, rfl, List.mem_of_find?_eq_some hfind, of_decide_eq_true hid⟩

/-- The room with a new content counted, before anything is stored or trimmed. -/
def counted (room : RoomContent) (w : CheckedWrite) (existing : Option MissionItem) : RoomContent :=
  { room with contentBytes := room.contentBytes +
      ((w.body.length + w.signature.length : Int) - (existing.map MissionItem.size).getD 0) }

/-- The checks under the lock that a new content has passed, and the room it stored the content in. -/
structure Stored (room : RoomContent) (facts : RoomFacts) (w : CheckedWrite) (room' : RoomContent) (item : MissionItem)
    (existing : Option MissionItem) (trimmed : RoomContent) : Prop where
  version : (existing.map (·.version)).getD 0 = w.expectedVersion
  kind : ∀ old ∈ existing, old.kind = w.content.kind ∧ w.content.kind ≠ "message"
  made : makeRoom facts (room.counted w existing) = .ok trimmed
  last : trimmed.contentSequence + 1 ≤ LONG_MAX
  written : item = ⟨w.itemId, w.content.kind, w.content.version, trimmed.contentSequence + 1, w.content.keyVersion, w.body,
    w.signature, w.userId, w.deviceId, (existing.map (·.createdAt)).getD facts.now⟩
  whole : room' = { trimmed with items := trimmed.replace item existing, contentSequence := trimmed.contentSequence + 1 }

theorem putContent_ok {facts : RoomFacts} {w : CheckedWrite} (h : room.putContent facts w = .ok (room', item)) :
    (room' = room ∧ room.items.find? (·.id = w.itemId) = some item ∧ item.body = w.body ∧ item.signature = w.signature) ∨
      ∃ trimmed, room.Stored facts w room' item (room.items.find? (·.id = w.itemId)) trimmed := by
  unfold putContent at h
  obtain ⟨_, -, h⟩ := bind_ok h
  obtain ⟨_, -, h⟩ := bind_ok h
  simp only at h
  cases hold : (room.items.find? (·.id = w.itemId)).filter fun old => old.body = w.body ∧ old.signature = w.signature with
  | some old =>
    rw [hold] at h
    obtain ⟨rfl, rfl⟩ := Prod.mk.inj (Except.ok.inj h)
    obtain ⟨hfind, hsame⟩ := Option.filter_eq_some_iff.mp hold
    exact .inl ⟨rfl, hfind, of_decide_eq_true hsame⟩
  | none =>
    rw [hold] at h
    simp only at h
    obtain ⟨_, -, h⟩ := bind_ok h
    obtain ⟨_, -, h⟩ := bind_ok h
    obtain ⟨_, -, h⟩ := bind_ok h
    obtain ⟨_, hchanged, h⟩ := bind_ok h
    obtain ⟨_, -, h⟩ := bind_ok h
    obtain ⟨trimmed, htrimmed, h⟩ := bind_ok h
    obtain ⟨_, hlast, h⟩ := bind_ok h
    obtain ⟨rfl, rfl⟩ := Prod.mk.inj (Except.ok.inj h)
    obtain ⟨hversion, hkind⟩ := not_or.mp (reject_ok.mp hchanged)
    refine .inr ⟨trimmed, not_not.mp hversion, fun old hold => ?_, htrimmed, not_lt.mp (reject_ok.mp hlast), rfl, rfl⟩
    rw [Option.mem_def] at hold
    rw [hold, Option.any_some, decide_eq_true_eq] at hkind
    obtain ⟨hsame, hmessage⟩ := not_or.mp hkind
    exact ⟨not_not.mp hsame, hmessage⟩

/-- The stored items after a write: the new one and the others that were not trimmed. -/
theorem mem_replace {trimmed : RoomContent} {existing : Option MissionItem}
    (hold : ∀ old ∈ existing, old ∈ trimmed.items ∧ old.id = item.id)
    (hnew : existing = none → ∀ x ∈ trimmed.items, x.id ≠ item.id) {x : MissionItem} :
    x ∈ trimmed.replace item existing ↔ x = item ∨ x ∈ trimmed.items ∧ x.id ≠ item.id := by
  cases existing with
  | none =>
    rw [replace, List.mem_append, List.mem_singleton, or_comm]
    exact or_congr_right ⟨fun hx => ⟨hx, hnew rfl x hx⟩, And.left⟩
  | some old =>
    obtain ⟨hstored, hid⟩ := hold old rfl
    rw [replace, List.mem_map]
    constructor
    · rintro ⟨y, hy, rfl⟩
      by_cases hsame : y.id = old.id
      · rw [if_pos hsame]
        exact .inl rfl
      · rw [if_neg hsame]
        exact .inr ⟨hy, hid ▸ hsame⟩
    · rintro (rfl | ⟨hx, hne⟩)
      · exact ⟨old, hstored, if_pos rfl⟩
      · exact ⟨x, hx, if_neg (hid ▸ hne)⟩

theorem addLong_one {n : Int} (hn : 0 ≤ n) (hlast : n < LONG_MAX) : addLong n 1 = n + 1 := by
  rw [LONG_MAX] at hlast
  exact Int.bmod_eq_of_le (by omega) (by omega)

end RoomContent

end Kodosi.Rooms
