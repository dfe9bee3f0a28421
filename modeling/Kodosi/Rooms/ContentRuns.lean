import Kodosi.Rooms.ContentCounts

/-! Every run of content writes on a room keeps its storage right. -/

namespace Kodosi.Rooms
open Kodosi.Lib Kodosi.Identity

namespace RoomContent

variable {room room' trimmed : RoomContent} {facts : RoomFacts} {w : CheckedWrite} {item : MissionItem}
  {existing : Option MissionItem}

/-- What the write found, before and after the room was made small enough. -/
structure Found (room trimmed : RoomContent) (w : CheckedWrite) (existing : Option MissionItem) : Prop where
  old : ∀ old ∈ existing, old ∈ room.items ∧ old ∈ trimmed.items ∧ old.id = w.itemId
  new : existing = none → ∀ x ∈ room.items, x.id ≠ w.itemId

/-- The room that a write counted already, before it made it small enough. -/
theorem Stored.counted (hcounts : room.Counts) (h : room.Stored facts w room' item existing trimmed) :
    Made (most facts) (room.counted w existing) trimmed := by
  have hsorted : (room.counted w existing).Sorted := ⟨hcounts.ids, hcounts.sequences, fun x hx => (hcounts.placed x hx).1⟩
  exact hsorted.made h.made

/-- What a write replaces is no message, so a trim leaves it. -/
theorem Stored.found (hcounts : room.Counts)
    (h : room.Stored facts w room' item (room.items.find? (·.id = w.itemId)) trimmed) :
    Found room trimmed w (room.items.find? (·.id = w.itemId)) := by
  rcases find_stored room.items w.itemId with ⟨old, hfind, hold, hid⟩ | ⟨hfind, hnone⟩
  · refine ⟨fun other hother => ?_, fun hnone => ?_⟩
    · have hkind := h.kind other hother
      rw [hfind] at hother
      obtain rfl := Option.some.inj hother
      rcases (h.counted hcounts).oldest old hold with hkept | ⟨hmessage, -⟩
      · exact ⟨hold, hkept, hid⟩
      · exact absurd (hkind.1 ▸ hmessage) hkind.2
    · rw [hfind] at hnone
      cases hnone
  · refine ⟨fun other hother => ?_, fun _ => hnone⟩
    rw [hfind] at hother
    cases hother

/-- The version that a write was based on is the one that is stored, and the next one is no wrapped one. -/
theorem Stored.next (hcounts : room.Counts) (h : room.Stored facts w room' item existing trimmed)
    (hfound : Found room trimmed w existing) :
    w.content.version = w.expectedVersion + 1 ∧ 0 ≤ w.expectedVersion ∧ w.expectedVersion ≤ room.contentSequence := by
  have hlast := h.last
  rw [(h.counted hcounts).sequence] at hlast
  have hversion := h.version
  have hbounds : 0 ≤ w.expectedVersion ∧ w.expectedVersion ≤ room.contentSequence := by
    cases existing with
    | none => exact ⟨hversion.le, hversion ▸ hcounts.last.1⟩
    | some old =>
      have hold := (hfound.old old rfl).1
      have hpositive := hcounts.versions old hold
      have hplaced := hcounts.placed old hold
      simp only [Option.map_some, Option.getD_some] at hversion
      omega
  refine ⟨?_, hbounds⟩
  rw [w.next]
  exact addLong_one hbounds.1 (lt_of_le_of_lt hbounds.2 (Int.lt_of_add_one_le hlast))

/-- The stored items after a write. -/
theorem Stored.mem (h : room.Stored facts w room' item existing trimmed) (hcounts : room.Counts)
    (hfound : Found room trimmed w existing) {x : MissionItem} :
    x ∈ room'.items ↔ x = item ∨ x ∈ trimmed.items ∧ x.id ≠ w.itemId := by
  have hid : item.id = w.itemId := by rw [h.written]
  rw [h.whole, ← hid]
  refine mem_replace (fun old hold => ⟨(hfound.old old hold).2.1, ?_⟩) fun hnone x hx => ?_
  · rw [hid]
    exact (hfound.old old hold).2.2
  · rw [hid]
    exact hfound.new hnone x ((h.counted hcounts).sub.subset hx)

theorem Stored.ids (h : room.Stored facts w room' item existing trimmed) (hcounts : room.Counts)
    (hfound : Found room trimmed w existing) : (room'.items.map (·.id)).Nodup := by
  have hid : item.id = w.itemId := by rw [h.written]
  have hsub := (h.counted hcounts).sub
  have htrimmed : (trimmed.items.map (·.id)).Nodup := hcounts.ids.sublist (hsub.map _)
  rw [h.whole]
  cases existing with
  | none =>
    rw [replace, List.map_append, List.nodup_append']
    refine ⟨htrimmed, List.nodup_singleton _, fun id hmem hnew => ?_⟩
    obtain ⟨x, hx, rfl⟩ := List.mem_map.mp hmem
    rw [List.map_cons, List.map_nil, List.mem_singleton, hid] at hnew
    exact hfound.new rfl x (hsub.subset hx) hnew
  | some old =>
    have hold := (hfound.old old rfl).2.2
    have hsame : (trimmed.replace item (some old)).map (·.id) = trimmed.items.map (·.id) := by
      rw [replace, List.map_map]
      refine List.map_congr_left fun x _ => ?_
      by_cases hx : x.id = old.id
      · rw [Function.comp, if_pos hx, hid, hx, hold]
      · rw [Function.comp, if_neg hx]
    rw [hsame]
    exact htrimmed

theorem Stored.bytes (h : room.Stored facts w room' item existing trimmed) (hcounts : room.Counts)
    (hfound : Found room trimmed w existing) : room'.contentBytes = (room'.items.map MissionItem.size).sum := by
  have hmade := (h.counted hcounts).bytes
  have hbytes := hcounts.bytes
  have hsize : item.size = (w.body.length : Int) + w.signature.length := by
    rw [h.written]
    rfl
  have hids : (trimmed.items.map (·.id)).Nodup := hcounts.ids.sublist ((h.counted hcounts).sub.map _)
  rw [h.whole]
  cases existing with
  | none =>
    simp only [RoomContent.counted, Option.map_none, Option.getD_none] at hmade
    simp only [replace, List.map_append, List.map_cons, List.map_nil, List.sum_append, List.sum_cons, List.sum_nil]
    omega
  | some old =>
    simp only [RoomContent.counted, Option.map_some, Option.getD_some] at hmade
    simp only [replace]
    rw [sum_replaced hids (hfound.old old rfl).2.1]
    omega

/-- A write that stores a content keeps the storage right. -/
theorem Stored.counts (h : room.Stored facts w room' item existing trimmed) (hcounts : room.Counts)
    (hfound : Found room trimmed w existing) : room'.Counts := by
  have hmade := h.counted hcounts
  have hsequence : trimmed.contentSequence = room.contentSequence := hmade.sequence
  have hmem : ∀ x ∈ room'.items, x = item ∨ x ∈ room.items := by
    intro x hx
    rcases (h.mem hcounts hfound).mp hx with rfl | ⟨hx, -⟩
    · exact .inl rfl
    · exact .inr (hmade.sub.subset hx)
  have hnew : item.sequence = room.contentSequence + 1 := by
    rw [h.written, hsequence]
  have hlast' : room'.contentSequence = room.contentSequence + 1 := by
    rw [h.whole, hsequence]
  have hversion : item.version = w.expectedVersion + 1 := by
    rw [h.written]
    exact (h.next hcounts hfound).1
  obtain ⟨-, hpositive, hbound⟩ := h.next hcounts hfound
  have hlast := h.last
  rw [hsequence] at hlast
  have hcounted := hcounts.last
  have hids := h.ids hcounts hfound
  refine ⟨hids, ?_, fun x hx => ?_, fun x hx => ?_, h.bytes hcounts hfound, by omega⟩
  · refine List.Nodup.map_on (fun x hx y hy hxy => ?_) (List.Nodup.of_map _ hids)
    rcases hmem x hx with rfl | hx
    · rcases hmem y hy with rfl | hy
      · rfl
      · have hy := hcounts.placed y hy
        omega
    · rcases hmem y hy with rfl | hy
      · have hx := hcounts.placed x hx
        omega
      · exact List.inj_on_of_nodup_map hcounts.sequences hx hy hxy
  · rcases hmem x hx with rfl | hx
    · omega
    · have hx := hcounts.placed x hx
      omega
  · rcases hmem x hx with rfl | hx
    · omega
    · exact hcounts.versions x hx

theorem Stored.accepted (h : room.Stored facts w room' item existing trimmed) (hcounts : room.Counts)
    (hexisting : existing = room.items.find? (·.id = w.itemId)) (hfound : Found room trimmed w existing) :
    Accepted facts w room room' item := by
  have hmade := h.counted hcounts
  have hsequence : trimmed.contentSequence = room.contentSequence := hmade.sequence
  have hmem := fun x => h.mem hcounts hfound (x := x)
  refine ⟨⟨(hmem item).mpr (.inl rfl), ?_, ?_, ?_⟩, ?_, ?_, ⟨?_, ?_⟩, fun x hx => ?_, fun x hx hne => ?_, ?_⟩
  · rw [h.written]
  · rw [h.written]
  · rw [h.written]
  · rw [← hexisting, h.version]
  · rw [h.written]
    exact (h.next hcounts hfound).1
  · rw [h.written, hsequence]
  · rw [h.whole, hsequence]
  · rcases (hmem x).mp hx with rfl | ⟨hx, hne⟩
    · exact .inl rfl
    · exact .inr ⟨hmade.sub.subset hx, hne⟩
  · rcases hmade.oldest x hx with hkept | ⟨hmessage, holdest⟩
    · exact .inl ((hmem x).mpr (.inr ⟨hkept, hne⟩))
    · refine .inr ⟨hmessage, fun y hy hkind => ?_⟩
      rcases (hmem y).mp hy with rfl | ⟨hy, -⟩
      · rw [h.written, hsequence]
        exact Int.lt_add_one_of_le (hcounts.placed x hx).2
      · exact holdest y hy hkind
  · rw [h.whole]
    exact hmade.within

/-- What a write that succeeds makes of the room that it locked: nothing when it is a retry of what is stored, and
    otherwise what an accepted write makes. -/
def Answered (facts : RoomFacts) (w : CheckedWrite) (room room' : RoomContent) (item : MissionItem) : Prop :=
  (room' = room ∧ item ∈ room.items ∧ item.id = w.itemId ∧ item.body = w.body ∧ item.signature = w.signature) ∨
    Accepted facts w room room' item

theorem Counts.put (hcounts : room.Counts) (h : room.putContent facts w = .ok (room', item)) :
    room'.Counts ∧ Answered facts w room room' item := by
  rcases putContent_ok h with ⟨rfl, hfind, hsame⟩ | ⟨trimmed, hstored⟩
  · have hid := List.find?_some hfind
    exact ⟨hcounts, .inl ⟨rfl, List.mem_of_find?_eq_some hfind, of_decide_eq_true hid, hsame⟩⟩
  · have hfound := hstored.found hcounts
    exact ⟨hstored.counts hcounts hfound, .inr (hstored.accepted hcounts rfl hfound)⟩

theorem Counts.new : RoomContent.new.Counts where
  ids := List.nodup_nil
  sequences := List.nodup_nil
  placed := fun _ hx => absurd hx List.not_mem_nil
  versions := fun _ hx => absurd hx List.not_mem_nil
  bytes := rfl
  last := by decide

end RoomContent

/-! ### Runs -/

namespace ContentServer

variable {C : Crypto} {readBody : Bytes → Option ContentBody} {requireDevice : String → Except ApiException ApprovedDevice}
  {s : ContentServer} {event : ContentEvent}

/-- The storage counts right, and whoever holds the lock has read what is stored. -/
structure Valid (s : ContentServer) : Prop where
  counts : s.room.Counts
  read : ∀ held ∈ s.holder, held.2.2 = s.room

/-- What one step does to the storage. -/
def Right (s : ContentServer) (event : ContentEvent) (s' : ContentServer) : Prop :=
  match event with
  | .finish facts => ∀ number w read, s.holder = some (number, w, read) →
    (∀ e, s.room.putContent facts w = .error e → s'.room = s.room) ∧
    ∀ room' item, s.room.putContent facts w = .ok (room', item) →
      s'.room = room' ∧ RoomContent.Answered facts w s.room room' item
  | _ => s'.room = s.room

theorem Valid.step (h : s.Valid) : (step C readBody requireDevice s event).Valid ∧
    Right s event (step C readBody requireDevice s event) := by
  cases event with
  | call id itemId userId request signer number =>
    simp only [ContentServer.step, Right]
    cases checkContent C readBody requireDevice id itemId userId request signer with
    | ok w => exact ⟨⟨h.counts, h.read⟩, rfl⟩
    | error e => exact ⟨h, rfl⟩
  | lock number =>
    simp only [ContentServer.step, Right]
    split
    · refine ⟨⟨h.counts, fun held hheld => ?_⟩, rfl⟩
      obtain rfl := Option.some.inj hheld
      rfl
    · exact ⟨h, rfl⟩
  | finish facts =>
    simp only [ContentServer.step, Right]
    cases hholder : s.holder with
    | none => exact ⟨h, fun _ _ _ hsome => by cases hsome⟩
    | some held =>
      obtain ⟨number, w, read⟩ := held
      obtain rfl : read = s.room := h.read _ hholder
      simp only
      cases hput : s.room.putContent facts w with
      | error e =>
        refine ⟨⟨h.counts, fun _ hnone => by cases hnone⟩, ?_⟩
        rintro _ _ _ hsome
        obtain ⟨-, hheld⟩ := Prod.mk.inj (Option.some.inj hsome)
        obtain ⟨rfl, -⟩ := Prod.mk.inj hheld
        rw [hput]
        exact ⟨fun _ _ => rfl, fun _ _ hok => (by cases hok)⟩
      | ok answer =>
        obtain ⟨room', item⟩ := answer
        obtain ⟨hcounts, hanswered⟩ := h.counts.put hput
        refine ⟨⟨hcounts, fun _ hnone => by cases hnone⟩, ?_⟩
        rintro _ _ _ hsome
        obtain ⟨-, hheld⟩ := Prod.mk.inj (Option.some.inj hsome)
        obtain ⟨rfl, -⟩ := Prod.mk.inj hheld
        rw [hput]
        refine ⟨fun _ herror => (by cases herror), fun room'' item' hok => ?_⟩
        obtain ⟨rfl, rfl⟩ := Prod.mk.inj (Except.ok.inj hok)
        exact ⟨rfl, hanswered⟩

theorem Valid.run (h : s.Valid) (events : List ContentEvent) :
    (events.foldl (ContentServer.step C readBody requireDevice) s).Valid := by
  induction events generalizing s with
  | nil => exact h
  | cons event rest ih => exact ih h.step.1

/-- In every run of writes on one room, whatever the calls say and in whatever order they get the lock: the sequences of
    the items are distinct, the count of bytes is the sum over the stored items, and each step does what is right. -/
theorem storage_counts (C : Crypto) (readBody : Bytes → Option ContentBody)
    (requireDevice : String → Except ApiException ApprovedDevice) (events : List ContentEvent) (event : ContentEvent) :
    (events.foldl (step C readBody requireDevice) new).room.Counts ∧
      Right (events.foldl (step C readBody requireDevice) new) event
        (step C readBody requireDevice (events.foldl (step C readBody requireDevice) new) event) := by
  have hnew : new.Valid := ⟨RoomContent.Counts.new, fun _ hnone => by cases hnone⟩
  have hvalid : (events.foldl (step C readBody requireDevice) new).Valid := hnew.run events
  exact ⟨hvalid.counts, hvalid.step.2⟩

end ContentServer

end Kodosi.Rooms
