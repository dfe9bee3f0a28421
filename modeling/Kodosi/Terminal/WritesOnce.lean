import Kodosi.Terminal.InputAnswers

/-! Input reaches the PTY in the order of the queue: of each accepted write a prefix is written, once, and a part only
    where its right was cancelled, the terminal ended, or the rest still waits. -/

namespace Kodosi.Terminal
open Kodosi.Lib

namespace LocalActor

variable {a b : LocalActor} {w : PendingWrite}

/-! ### How much of a write was written -/

/-- How many bytes of a write reached the PTY. -/
def sent (a : LocalActor) (id : Nat) : Nat := a.written.countP (·.1 = id)

/-- What was written of the accepted writes, one after the other. -/
def delivered (a : LocalActor) (w : PendingWrite) : List (Nat × UInt8) :=
  (w.bytes.take (a.sent w.id)).map (Prod.mk w.id)

theorem sent_put (id j : Nat) (bytes : List UInt8) :
    (a.put id bytes).sent j = a.sent j + if id = j then bytes.length else 0 := by
  rw [sent, put, List.countP_append, sent]
  congr 1
  by_cases h : id = j
  · subst h
    rw [if_pos rfl, List.countP_map, List.countP_eq_length.mpr (by simp)]
  · rw [if_neg h, List.countP_map, List.countP_eq_zero.mpr (by simp [h])]

theorem sent_put_other {id j : Nat} (bytes : List UInt8) (h : id ≠ j) : (a.put id bytes).sent j = a.sent j := by
  rw [sent_put, if_neg h, Nat.add_zero]

/-! ### The order of what is written -/

/-- A write that bytes may go to: nothing was written of those that were accepted behind it. -/
def Turned (a : LocalActor) (w : PendingWrite) (waiting : List PendingWrite) : Prop :=
  ∃ front back, a.accepted = front ++ { w with offset := 0 } :: back ∧ waiting.Sublist back ∧ ∀ x ∈ back, a.sent x.id = 0

/-- The writes of the queue and of the channel, and what was written. -/
structure Ordered (a : LocalActor) : Prop where
  nodup : ((a.accepted ++ a.carried).map (·.id)).Nodup
  fresh : ∀ x ∈ a.accepted ++ a.carried, x.id < a.next
  untouched : ∀ x ∈ a.accepted ++ a.carried, x.offset = 0
  inOrder : a.written = a.accepted.flatMap a.delivered
  within : ∀ x ∈ a.accepted, a.sent x.id ≤ x.bytes.length
  turned : ∀ w rest, a.queue = w :: rest → a.Turned w rest
  whole : ∀ x ∈ a.accepted, a.sent x.id < x.bytes.length → (∃ y ∈ a.queue, y.id = x.id) ∨ a.isCancelled x ∨ a.ended
  confirmed : ∀ id, (id, .ok ()) ∈ a.answers → ∃ x ∈ a.accepted, x.id = id ∧ a.sent id = x.bytes.length
  closed : a.ended → a.queue = [] ∧ a.commands = [] ∧ a.input = none

/-- Where the front of the queue stands: at its offset, unless the thread is writing it. -/
structure Synced (a : LocalActor) : Prop where
  offset : ∀ w rest, a.queue = w :: rest → w.offset ≤ a.sent w.id ∧ (a.inFlight = none → a.sent w.id = w.offset)
  input : ∀ bytes, a.input = some (some bytes) → ∃ w rest, a.queue = w :: rest ∧ bytes = w.bytes.drop w.offset
  unix : a.windows = false → a.inFlight = none
  flight : ∀ f, a.inFlight = some f → ∃ w, a.Turned w [] ∧ w.id = f.id ∧ f.left = w.bytes.drop (a.sent w.id) ∧
    (a.ended = false → ∃ w' rest, a.queue = w' :: rest ∧ w'.id = f.id ∧ f.count = w'.bytes.length - w'.offset)

theorem sent_fresh (h : a.Ordered) {id : Nat} (hid : id ∉ a.accepted.map (·.id)) : a.sent id = 0 := by
  rw [sent, h.inOrder]
  refine List.countP_eq_zero.mpr fun p hp => ?_
  obtain ⟨x, hx, hp⟩ := List.mem_flatMap.mp hp
  obtain ⟨b, -, rfl⟩ := List.mem_map.mp hp
  rw [decide_eq_true_eq]
  rintro rfl
  exact hid (List.mem_map_of_mem hx)

theorem same_accepted (h : a.Ordered) {x y : PendingWrite} (hx : x ∈ a.accepted) (hy : y ∈ a.accepted)
    (hid : x.id = y.id) : x = y := by
  have hnodup := h.nodup
  rw [List.map_append] at hnodup
  exact List.inj_on_of_nodup_map (List.nodup_append.mp hnodup).1 hx hy hid

theorem zero_accepted (h : a.Ordered) {x : PendingWrite} (hx : x ∈ a.accepted) : { x with offset := 0 } = x := by
  have hzero := h.untouched x (List.mem_append_left _ hx)
  rw [← hzero]

/-- Every write of the queue was accepted. -/
theorem queue_accepted (h : a.Ordered) {y : PendingWrite} (hy : y ∈ a.queue) : { y with offset := 0 } ∈ a.accepted := by
  cases hqueue : a.queue with
  | nil =>
    rw [hqueue] at hy
    cases hy
  | cons w rest =>
    obtain ⟨front, back, haccepted, hwaiting, -⟩ := h.turned w rest hqueue
    rw [hqueue] at hy
    rcases List.mem_cons.mp hy with rfl | hy
    · rw [haccepted]
      exact List.mem_append_right _ List.mem_cons_self
    · have hmem : y ∈ a.accepted := by
        rw [haccepted]
        exact List.mem_append_right _ (List.mem_cons_of_mem _ (hwaiting.subset hy))
      rw [zero_accepted h hmem]
      exact hmem

/-- A write behind the front of the queue is what bytes may go to when the writes in front of it are gone. -/
theorem Turned.later (h : a.Ordered) {rest : List PendingWrite} {v : PendingWrite} {waiting : List PendingWrite}
    (hturned : a.Turned v waiting) (hrest : (w :: rest).Sublist waiting) : a.Turned w rest := by
  obtain ⟨front, back, haccepted, hwaiting, hzero⟩ := hturned
  obtain ⟨r, r', hback, hw, hsub⟩ := List.cons_sublist_iff.mp (hrest.trans hwaiting)
  obtain ⟨s, t, rfl⟩ := List.append_of_mem hw
  have hmem : w ∈ a.accepted := by
    rw [haccepted, hback]
    simp
  refine ⟨front ++ { v with offset := 0 } :: s, t ++ r', ?_, hsub.trans (List.sublist_append_right _ _), fun x hx => ?_⟩
  · rw [haccepted, hback, zero_accepted h hmem]
    simp
  · refine hzero x ?_
    rw [hback, List.append_assoc]
    exact List.mem_append_right _ (List.mem_cons_of_mem _ hx)

/-- The queue loses writes that are over. -/
theorem Ordered.thin (h : a.Ordered) {queue : List PendingWrite} (hsub : queue.Sublist a.queue)
    (hover : ∀ x ∈ a.queue, (∃ y ∈ queue, y.id = x.id) ∨ a.isCancelled x ∨ a.sent x.id = x.bytes.length)
    (hopen : a.ended = false) : Ordered { a with queue } where
  nodup := h.nodup
  fresh := h.fresh
  untouched := h.untouched
  inOrder := h.inOrder
  within := h.within
  turned := by
    intro w rest hqueue
    simp only at hqueue
    subst hqueue
    cases hold : a.queue with
    | nil =>
      rw [hold] at hsub
      cases hsub
    | cons v vs =>
      have hturned := h.turned v vs hold
      rw [hold] at hsub
      cases hsub with
      | cons_cons _ hrest =>
        obtain ⟨front, back, haccepted, hwaiting, hzero⟩ := hturned
        exact ⟨front, back, haccepted, hrest.trans hwaiting, hzero⟩
      | cons _ hskip => exact hturned.later h hskip
  whole := by
    intro x hx hshort
    rcases h.whole x hx hshort with ⟨y, hy, hid⟩ | hcancelled | hended
    · have hsame : { y with offset := 0 } = x := same_accepted h (queue_accepted h hy) hx hid
      rcases hover y hy with ⟨z, hz, hzid⟩ | hcancelled | hsent
      · exact .inl ⟨z, hz, hzid.trans hid⟩
      · refine .inr (.inl ?_)
        rw [← hsame]
        exact hcancelled
      · have hlength : a.sent x.id = x.bytes.length := by
          rw [← hsame]
          exact hsent
        exact absurd (show a.sent x.id < x.bytes.length from hshort) (by omega)
    · exact .inr (.inl hcancelled)
    · rw [hopen] at hended
      cases hended
  confirmed := h.confirmed
  closed := by
    intro hended
    simp only at hended
    rw [hopen] at hended
    cases hended

/-- A write in hand is new. -/
def New (a : LocalActor) (w : PendingWrite) : Prop :=
  w.id ∉ (a.accepted ++ a.carried).map (·.id) ∧ w.offset = 0 ∧ w.id < a.next

theorem Ordered.make (h : a.Ordered) {bytes : List UInt8} {authorization : Option Nat} {completion : Bool}
    (hmake : a.make bytes authorization completion = .ok (w, b)) : b.Ordered ∧ b.New w := by
  rw [LocalActor.make] at hmake
  split at hmake
  · cases hmake
  split at hmake
  · cases hmake
  obtain ⟨rfl, rfl⟩ := Prod.mk.inj (Except.ok.inj hmake)
  refine ⟨⟨h.nodup, fun x hx => Nat.lt_succ_of_lt (h.fresh x hx), h.untouched, h.inOrder, h.within, h.turned, h.whole,
    h.confirmed, h.closed⟩, fun hmem => ?_, rfl, Nat.lt_succ_self _⟩
  obtain ⟨x, hx, hid⟩ := List.mem_map.mp hmem
  have hlt := h.fresh x hx
  simp only at hid
  omega

theorem Ordered.push (h : a.Ordered) (hnew : a.New w) (hopen : a.ended = false) : (a.push w).Ordered := by
  obtain ⟨hid, hoffset, hlt⟩ := hnew
  have hboth := hid
  rw [List.map_append, List.mem_append, not_or] at hid
  have hsent : a.sent w.id = 0 := sent_fresh h hid.1
  have hperm : (a.push w).accepted ++ (a.push w).carried = a.accepted ++ [w] ++ a.carried := rfl
  have hmem : ∀ x, x ∈ a.accepted ++ [w] ++ a.carried ↔ x = w ∨ x ∈ a.accepted ++ a.carried := by
    intro x
    simp only [List.mem_append, List.mem_singleton]
    tauto
  refine ⟨?_, ?_, ?_, ?_, ?_, ?_, ?_, ?_, ?_⟩
  · rw [hperm, List.append_assoc]
    refine (List.Perm.nodup_iff (List.Perm.map _ List.perm_middle)).mpr ?_
    rw [List.map_cons, List.nodup_cons]
    exact ⟨hboth, h.nodup⟩
  · intro x hx
    rcases (hmem x).mp hx with rfl | hx
    · exact hlt
    · exact h.fresh x hx
  · intro x hx
    rcases (hmem x).mp hx with rfl | hx
    · exact hoffset
    · exact h.untouched x hx
  · have hlast : a.delivered w = [] := by rw [delivered, hsent, List.take_zero, List.map_nil]
    have hflat : (a.push w).accepted.flatMap (a.push w).delivered = a.accepted.flatMap a.delivered ++ (a.delivered w ++ []) :=
      List.flatMap_append
    rw [hflat, hlast, List.append_nil, List.append_nil]
    exact h.inOrder
  · intro x hx
    rcases List.mem_append.mp hx with hx | hx
    · exact h.within x hx
    · rw [List.mem_singleton.mp hx]
      exact hsent.le.trans (Nat.zero_le _)
  · intro v rest hqueue
    have hqueue' : a.queue ++ [w] = v :: rest := hqueue
    cases hold : a.queue with
    | nil =>
      rw [hold] at hqueue'
      obtain ⟨rfl, rfl⟩ := List.cons.inj hqueue'
      refine ⟨a.accepted, [], ?_, List.nil_sublist _, fun x hx => absurd hx List.not_mem_nil⟩
      have hzero : { w with offset := 0 } = w := by rw [← hoffset]
      rw [hzero]
      rfl
    | cons u us =>
      rw [hold] at hqueue'
      obtain ⟨rfl, rfl⟩ := List.cons.inj hqueue'
      obtain ⟨front, back, haccepted, hwaiting, hzero⟩ := h.turned u us hold
      refine ⟨front, back ++ [w], ?_, hwaiting.append_right [w], fun x hx => ?_⟩
      · have : (a.push w).accepted = a.accepted ++ [w] := rfl
        rw [this, haccepted, List.append_assoc, List.cons_append]
      · rcases List.mem_append.mp hx with hx | hx
        · exact hzero x hx
        · rw [List.mem_singleton.mp hx]
          exact hsent
  · intro x hx hshort
    rcases List.mem_append.mp hx with hx | hx
    · rcases h.whole x hx hshort with ⟨y, hy, hyid⟩ | hrest
      · exact .inl ⟨y, List.mem_append_left _ hy, hyid⟩
      · exact .inr hrest
    · rw [List.mem_singleton.mp hx]
      exact .inl ⟨w, List.mem_append_right _ (List.mem_singleton.mpr rfl), rfl⟩
  · intro id hanswer
    obtain ⟨x, hx, hrest⟩ := h.confirmed id hanswer
    exact ⟨x, List.mem_append_left _ hx, hrest⟩
  · intro hended
    have : a.ended = true := hended
    rw [hopen] at this
    cases this

theorem Ordered.answer (h : a.Ordered) {result : Except InputError Unit}
    (hok : result = .ok () → ∃ x ∈ a.accepted, x.id = w.id ∧ a.sent w.id = x.bytes.length) :
    (a.answer w result).Ordered := by
  rw [LocalActor.answer]
  split
  · refine ⟨h.nodup, h.fresh, h.untouched, h.inOrder, h.within, h.turned, h.whole, fun id hanswer => ?_, h.closed⟩
    rcases List.mem_append.mp hanswer with hanswer | hanswer
    · exact h.confirmed id hanswer
    · obtain ⟨rfl, hresult⟩ := Prod.mk.inj (List.mem_singleton.mp hanswer)
      exact hok hresult.symm
  · exact h

theorem Ordered.drop (h : a.Ordered) (w : PendingWrite) : (a.drop w).Ordered :=
  Ordered.answer h fun hok => by cases hok

theorem Ordered.drops {ws : List PendingWrite} (h : a.Ordered) : (ws.foldl LocalActor.drop a).Ordered := by
  induction ws generalizing a with
  | nil => exact h
  | cons w ws ih => exact ih (h.drop w)

theorem other_ids (h : a.Ordered) {front back : List PendingWrite}
    (haccepted : a.accepted = front ++ { w with offset := 0 } :: back) : ∀ x ∈ front ++ back, w.id ≠ x.id := by
  have hnodup := h.nodup
  rw [List.map_append] at hnodup
  have hids := (List.nodup_append.mp hnodup).1
  rw [haccepted, List.map_append, List.map_cons] at hids
  have hmiddle := List.nodup_middle.mp hids
  rw [List.nodup_cons, ← List.map_append] at hmiddle
  intro x hx heq
  refine hmiddle.1 ?_
  rw [heq]
  exact List.mem_map_of_mem hx

theorem Turned.put (h : a.Ordered) {waiting : List PendingWrite} (hturned : a.Turned w waiting) (bytes : List UInt8) :
    (a.put w.id bytes).Turned w waiting := by
  obtain ⟨front, back, haccepted, hwaiting, hzero⟩ := hturned
  refine ⟨front, back, haccepted, hwaiting, fun x hx => ?_⟩
  rw [sent_put_other bytes (other_ids h haccepted x (List.mem_append_right _ hx))]
  exact hzero x hx

/-- Bytes go to the write whose turn it is. -/
theorem Ordered.put (h : a.Ordered) {waiting : List PendingWrite} (hturned : a.Turned w waiting) {bytes : List UInt8}
    (hbytes : bytes <+: w.bytes.drop (a.sent w.id)) (hfront : ∀ v rest, a.queue = v :: rest → v.id = w.id) :
    (a.put w.id bytes).Ordered := by
  obtain ⟨front, back, haccepted, hwaiting, hzero⟩ := hturned
  have hothers := other_ids h haccepted
  have hmem : { w with offset := 0 } ∈ a.accepted := by
    rw [haccepted]
    simp
  have hsame : ∀ x ∈ a.accepted, x.id = w.id → x = { w with offset := 0 } := fun x hx hid =>
    same_accepted h hx hmem hid
  have hlength := hbytes.length_le
  rw [List.length_drop] at hlength
  have hwithin := h.within _ hmem
  refine ⟨h.nodup, h.fresh, h.untouched, ?_, ?_, ?_, ?_, ?_, h.closed⟩
  · have hflat : ∀ xs : List PendingWrite, (∀ x ∈ xs, w.id ≠ x.id) →
        xs.flatMap (a.put w.id bytes).delivered = xs.flatMap a.delivered := by
      intro xs hxs
      refine List.flatMap_congr fun x hx => ?_
      rw [delivered, sent_put_other bytes (hxs x hx), delivered]
    have hback : back.flatMap a.delivered = [] := by
      refine List.flatMap_eq_nil_iff.mpr fun x hx => ?_
      rw [delivered, hzero x hx, List.take_zero, List.map_nil]
    have hnow : (a.put w.id bytes).delivered { w with offset := 0 } =
        a.delivered { w with offset := 0 } ++ bytes.map (Prod.mk w.id) := by
      have htake : w.bytes.take (a.sent w.id + bytes.length) = w.bytes.take (a.sent w.id) ++ bytes := by
        rw [List.take_add, ← List.prefix_iff_eq_take.mp hbytes]
      rw [delivered, sent_put, if_pos rfl, htake, List.map_append, delivered]
    have haccepted' : (a.put w.id bytes).accepted = front ++ { w with offset := 0 } :: back := haccepted
    have hwritten : (a.put w.id bytes).written = a.written ++ bytes.map (Prod.mk w.id) := rfl
    rw [hwritten, h.inOrder, haccepted, haccepted', List.flatMap_append, List.flatMap_cons, List.flatMap_append,
      List.flatMap_cons, hnow, hflat front fun x hx => hothers x (List.mem_append_left _ hx),
      hflat back fun x hx => hothers x (List.mem_append_right _ hx), hback]
    simp
  · intro x hx
    have hx' := h.within x hx
    rw [sent_put]
    by_cases hid : w.id = x.id
    · rw [hsame x hx hid.symm, if_pos rfl]
      simp only at hwithin ⊢
      omega
    · rw [if_neg hid]
      exact hx'
  · intro v rest hqueue
    rw [← hfront v rest hqueue]
    exact (h.turned v rest hqueue).put h bytes
  · intro x hx hshort
    refine h.whole x hx (lt_of_le_of_lt ?_ hshort)
    rw [sent_put]
    exact Nat.le_add_right _ _
  · intro id hanswer
    obtain ⟨x, hx, rfl, hsent⟩ := h.confirmed id hanswer
    refine ⟨x, hx, rfl, ?_⟩
    rw [sent_put]
    by_cases hid : w.id = x.id
    · have hfull := hsame x hx hid.symm
      rw [hfull] at hsent ⊢
      rw [if_pos rfl]
      simp only at hsent ⊢
      omega
    · rw [if_neg hid]
      exact hsent

/-- The front of the queue moves on to where its bytes are. -/
theorem Ordered.wrote (h : a.Ordered) (hopen : a.ended = false) {count : Nat}
    (hsent : ∀ w rest, a.queue = w :: rest → a.sent w.id = min (w.offset + count) w.bytes.length) :
    (a.wrote count).Ordered := by
  rw [LocalActor.wrote]
  cases hqueue : a.queue with
  | nil => exact h
  | cons w rest =>
    have hnow := hsent w rest hqueue
    simp only
    by_cases hdone : min (w.offset + count) w.bytes.length = w.bytes.length
    · rw [if_pos hdone]
      have hover : ∀ x ∈ a.queue, (∃ y ∈ rest, y.id = x.id) ∨ a.isCancelled x ∨ a.sent x.id = x.bytes.length := by
        intro x hx
        rw [hqueue] at hx
        rcases List.mem_cons.mp hx with rfl | hx
        · exact .inr (.inr (hnow.trans hdone))
        · exact .inl ⟨x, hx, rfl⟩
      have hthin : Ordered { a with queue := rest } := h.thin (by rw [hqueue]; exact List.sublist_cons_self w rest) hover hopen
      refine Ordered.answer hthin fun _ => ⟨{ w with offset := 0 }, ?_, rfl, hnow.trans hdone⟩
      exact queue_accepted h (by rw [hqueue]; exact List.mem_cons_self)
    · rw [if_neg hdone]
      refine ⟨h.nodup, h.fresh, h.untouched, h.inOrder, h.within, ?_, ?_, h.confirmed, ?_⟩
      · intro v vs hv
        obtain ⟨rfl, rfl⟩ := List.cons.inj hv
        exact h.turned w rest hqueue
      · intro x hx hshort
        rcases h.whole x hx hshort with ⟨y, hy, hid⟩ | hrest
        · rw [hqueue] at hy
          rcases List.mem_cons.mp hy with rfl | hy
          · exact .inl ⟨_, List.mem_cons_self, hid⟩
          · exact .inl ⟨y, List.mem_cons_of_mem _ hy, hid⟩
        · exact .inr hrest
      · intro hended
        have : a.ended = true := hended
        rw [hopen] at this
        cases this

/-! ### Where the front of the queue stands -/

theorem Synced.frame (h : a.Synced) (hqueue : b.queue = a.queue) (hinput : b.input = a.input ∨ b.input = none)
    (hwindows : b.windows = a.windows) (hflight : b.inFlight = a.inFlight) (hended : b.ended = a.ended)
    (haccepted : b.accepted = a.accepted) (hwritten : b.written = a.written) : b.Synced where
  offset := by
    intro w rest hold
    rw [sent, hwritten, hflight]
    exact h.offset w rest (hqueue ▸ hold)
  input := by
    intro bytes hold
    rw [hqueue]
    rcases hinput with hsame | hnone
    · exact h.input bytes (hsame ▸ hold)
    · rw [hnone] at hold
      cases hold
  unix := by
    rw [hwindows, hflight]
    exact h.unix
  flight := by
    intro f hf
    rw [hflight] at hf
    obtain ⟨w, ⟨front, back, hsplit, hwaiting, hzero⟩, hid, hleft, hfront⟩ := h.flight f hf
    refine ⟨w, ⟨front, back, haccepted.trans hsplit, hwaiting, fun x hx => ?_⟩, hid, ?_, fun hopen => ?_⟩
    · rw [sent, hwritten]
      exact hzero x hx
    · rw [sent, hwritten]
      exact hleft
    · rw [hqueue]
      exact hfront (hended ▸ hopen)

theorem answer_same (a : LocalActor) (w : PendingWrite) (result : Except InputError Unit) :
    ∃ answers, a.answer w result = { a with answers } := by
  rw [LocalActor.answer]
  split
  · exact ⟨_, rfl⟩
  · exact ⟨a.answers, rfl⟩

theorem Synced.answer (h : a.Synced) (w : PendingWrite) (result : Except InputError Unit) : (a.answer w result).Synced := by
  obtain ⟨answers, heq⟩ := answer_same a w result
  rw [heq]
  exact h.frame rfl (.inl rfl) rfl rfl rfl rfl rfl

theorem Synced.drops {ws : List PendingWrite} (h : a.Synced) : (ws.foldl LocalActor.drop a).Synced := by
  induction ws generalizing a with
  | nil => exact h
  | cons w ws ih => exact ih (h.answer w _)

theorem Synced.push (h : a.Synced) (hordered : a.Ordered) (hnew : a.New w) : (a.push w).Synced := by
  obtain ⟨hid, hoffset, -⟩ := hnew
  rw [List.map_append, List.mem_append, not_or] at hid
  have hsent : a.sent w.id = 0 := sent_fresh hordered hid.1
  have hqueue : (a.push w).queue = a.queue ++ [w] := rfl
  refine ⟨fun v rest hv => ?_, fun bytes hbytes => ?_, h.unix, fun f hf => ?_⟩
  · rw [hqueue] at hv
    cases hold : a.queue with
    | nil =>
      rw [hold] at hv
      obtain ⟨rfl, rfl⟩ := List.cons.inj hv
      have hsent' : (a.push w).sent w.id = 0 := hsent
      rw [hsent', hoffset]
      exact ⟨le_refl _, fun _ => rfl⟩
    | cons u us =>
      rw [hold] at hv
      obtain ⟨rfl, rfl⟩ := List.cons.inj hv
      exact h.offset u us hold
  · obtain ⟨v, rest, hold, hrest⟩ := h.input bytes hbytes
    exact ⟨v, rest ++ [w], by rw [hqueue, hold, List.cons_append], hrest⟩
  · obtain ⟨v, ⟨front, back, hsplit, hwaiting, hzero⟩, hvid, hleft, hfront⟩ := h.flight f hf
    refine ⟨v, ⟨front, back ++ [w], ?_, List.nil_sublist _, fun x hx => ?_⟩, hvid, hleft, fun hopen => ?_⟩
    · have haccepted : (a.push w).accepted = a.accepted ++ [w] := rfl
      rw [haccepted, hsplit, List.append_assoc, List.cons_append]
    · rcases List.mem_append.mp hx with hx | hx
      · exact hzero x hx
      · rw [List.mem_singleton.mp hx]
        exact hsent
    · obtain ⟨w', rest, hold, hrest⟩ := hfront hopen
      exact ⟨w', rest ++ [w], by rw [hqueue, hold, List.cons_append], hrest⟩

theorem Synced.thin (h : a.Synced) (hordered : a.Ordered) {queue : List PendingWrite} (hsub : queue.Sublist a.queue)
    (hidle : a.input = none) (hhead : a.inFlight = none ∨ queue.head? = a.queue.head?) : Synced { a with queue } where
  offset := by
    intro w rest hqueue
    simp only at hqueue
    subst hqueue
    cases hold : a.queue with
    | nil =>
      rw [hold] at hsub
      cases hsub
    | cons v vs =>
      rw [hold] at hsub
      cases hsub with
      | cons_cons _ hrest => exact h.offset w vs hold
      | cons _ hskip =>
        obtain ⟨front, back, haccepted, hwaiting, hzero⟩ := hordered.turned v vs hold
        have hback := hwaiting.subset (hskip.subset List.mem_cons_self)
        have hmem : w ∈ a.accepted ++ a.carried := by
          rw [haccepted]
          exact List.mem_append_left _ (List.mem_append_right _ (List.mem_cons_of_mem _ hback))
        have hsent : ({ a with queue := w :: rest } : LocalActor).sent w.id = 0 := hzero w hback
        rw [hsent, hordered.untouched w hmem]
        exact ⟨le_refl _, fun _ => rfl⟩
  input := by
    intro bytes hbytes
    rw [show ({ a with queue } : LocalActor).input = a.input from rfl, hidle] at hbytes
    cases hbytes
  unix := h.unix
  flight := by
    intro f hf
    obtain ⟨w, hturned, hid, hleft, hfront⟩ := h.flight f hf
    refine ⟨w, hturned, hid, hleft, fun hopen => ?_⟩
    obtain ⟨w', rest, hold, hrest⟩ := hfront hopen
    rcases hhead with hnone | hsame
    · have hf' : a.inFlight = some f := hf
      rw [hnone] at hf'
      cases hf'
    · rw [hold] at hsame
      cases queue with
      | nil => cases hsame
      | cons q qs =>
        obtain rfl := Option.some.inj hsame
        exact ⟨q, qs, rfl, hrest⟩

/-! ### Steps -/

/-- What holds between the steps of the actor. -/
structure Valid (a : LocalActor) : Prop where
  ordered : a.Ordered
  synced : a.Synced

theorem Valid.push (h : a.Valid) (hnew : a.New w) (hopen : a.ended = false) : (a.push w).Valid :=
  ⟨h.ordered.push hnew hopen, h.synced.push h.ordered hnew⟩

theorem Valid.refuse (h : a.Valid) (w : PendingWrite) (error : InputError) : (a.answer w (.error error)).Valid :=
  ⟨h.ordered.answer (fun hok => by cases hok), h.synced.answer w _⟩

theorem Valid.make (h : a.Valid) {bytes : List UInt8} {authorization : Option Nat} {completion : Bool}
    (hmake : a.make bytes authorization completion = .ok (w, b)) : b.Valid ∧ b.New w ∧ b.ended = a.ended := by
  obtain ⟨hordered, hnew⟩ := h.ordered.make hmake
  rw [LocalActor.make] at hmake
  split at hmake
  · cases hmake
  split at hmake
  · cases hmake
  obtain ⟨rfl, rfl⟩ := Prod.mk.inj (Except.ok.inj hmake)
  exact ⟨⟨hordered, h.synced.frame rfl (.inl rfl) rfl rfl rfl rfl rfl⟩, hnew, rfl⟩

theorem Valid.enqueue (h : a.Valid) (hopen : a.ended = false) (bytes : List UInt8) (authorization : Option Nat) :
    (a.enqueue bytes authorization).Valid ∧ (a.enqueue bytes authorization).ended = false ∧
      (a.enqueue bytes authorization).input = a.input := by
  rw [LocalActor.enqueue]
  cases hmake : a.make bytes authorization false with
  | error _ => exact ⟨h, hopen, rfl⟩
  | ok made =>
    obtain ⟨hvalid, hnew, hended⟩ := h.make hmake
    refine ⟨hvalid.push hnew (hended.trans hopen), hended.trans hopen, ?_⟩
    rw [LocalActor.make] at hmake
    split at hmake
    · cases hmake
    split at hmake
    · cases hmake
    rw [← Except.ok.inj hmake]
    rfl

theorem Valid.acceptInput (h : a.Valid) (hnew : a.New w) (hopen : a.ended = false) (authorization : Option Nat) :
    (a.acceptInput authorization w).Valid := by
  cases authorization with
  | none => exact h.refuse w _
  | some right => exact h.push (w := { w with authorization := some right }) hnew hopen

theorem Valid.acceptCommandInput (h : a.Valid) (hnew : a.New w) (hopen : a.ended = false) (refused : Option String) :
    (a.acceptCommandInput refused w).Valid := by
  cases refused with
  | none => exact h.push hnew hopen
  | some text => exact h.refuse w _

theorem carried_concat (request : Request) :
    { a with commands := a.commands ++ [request] }.carried = a.carried ++ request.write.toList := by
  rw [carried, carried, List.filterMap_append]
  cases hwrite : request.write <;> simp [hwrite]

theorem Valid.sendRequest (h : a.Valid) (closed : Bool) (request : Request) (hnew : ∀ w ∈ request.write, a.New w) :
    (a.sendRequest closed request).Valid := by
  rw [LocalActor.sendRequest]
  split
  · exact ⟨h.ordered.drops, h.synced.drops⟩
  · rename_i hroom
    rw [not_or, not_or] at hroom
    refine ⟨?_, h.synced.frame rfl (.inl rfl) rfl rfl rfl rfl rfl⟩
    have hall : ∀ x, x ∈ a.accepted ++ (a.carried ++ request.write.toList) →
        x ∈ a.accepted ++ a.carried ∨ a.New x := by
      intro x hx
      rw [← List.append_assoc] at hx
      rcases List.mem_append.mp hx with hx | hx
      · exact .inl hx
      · exact .inr (hnew x (Option.mem_toList.mp hx))
    refine ⟨?_, fun x hx => ?_, fun x hx => ?_, h.ordered.inOrder, h.ordered.within, h.ordered.turned, h.ordered.whole,
      h.ordered.confirmed, fun hended => absurd hended hroom.2.1⟩
    · rw [carried_concat, ← List.append_assoc, List.map_append]
      cases hwrite : request.write with
      | none =>
        rw [Option.toList_none, List.map_nil, List.append_nil]
        exact h.ordered.nodup
      | some w =>
        refine List.nodup_append.mpr ⟨h.ordered.nodup, List.nodup_singleton _, ?_⟩
        intro id hid other hother heq
        rw [Option.toList_some, List.map_singleton, List.mem_singleton] at hother
        refine (hnew w hwrite).1 ?_
        rw [← hother, ← heq]
        exact hid
    · rw [carried_concat] at hx
      rcases hall x hx with hx | hx
      · exact h.ordered.fresh x hx
      · exact hx.2.2
    · rw [carried_concat] at hx
      rcases hall x hx with hx | hx
      · exact h.ordered.untouched x hx
      · exact hx.2.1

theorem Valid.ask (h : a.Valid) (closed : Bool) (what : Ask) : (a.ask closed what).Valid := by
  cases what with
  | input connection bytes =>
    rw [LocalActor.ask]
    cases hmake : a.make bytes none true with
    | error _ => exact h
    | ok made =>
      obtain ⟨hvalid, hnew, -⟩ := h.make hmake
      exact hvalid.sendRequest closed (.input connection made.1) fun w hw => Option.some.inj hw ▸ hnew
  | send bytes message =>
    rw [LocalActor.ask]
    cases hmake : a.make bytes none true with
    | error _ => exact h
    | ok made =>
      obtain ⟨hvalid, hnew, -⟩ := h.make hmake
      exact hvalid.sendRequest closed (.send made.1 message) fun w hw => Option.some.inj hw ▸ hnew
  | run line => exact h.sendRequest closed (.run line) fun w hw => by cases hw
  | start line => exact h.sendRequest closed (.start line) fun w hw => by cases hw
  | other => exact h.sendRequest closed .other fun w hw => by cases hw

theorem Valid.idle (h : a.Valid) : Valid { a with input := none } :=
  ⟨⟨h.ordered.nodup, h.ordered.fresh, h.ordered.untouched, h.ordered.inOrder, h.ordered.within, h.ordered.turned,
    h.ordered.whole, h.ordered.confirmed, fun hended => ⟨(h.ordered.closed hended).1, (h.ordered.closed hended).2.1, rfl⟩⟩,
    h.synced.frame rfl (.inr rfl) rfl rfl rfl rfl rfl⟩

theorem Valid.starting (h : a.Valid) (start : Option (List UInt8)) : Valid { a with start } :=
  ⟨⟨h.ordered.nodup, h.ordered.fresh, h.ordered.untouched, h.ordered.inOrder, h.ordered.within, h.ordered.turned,
    h.ordered.whole, h.ordered.confirmed, h.ordered.closed⟩, h.synced.frame rfl (.inl rfl) rfl rfl rfl rfl rfl⟩

theorem Valid.command (h : a.Valid) (hopen : a.ended = false) {request : Request} (hnew : ∀ w ∈ request.write, a.New w)
    (around : Surroundings) : (a.command around request).Valid := by
  cases request with
  | input connection write => exact h.acceptInput (hnew write rfl) hopen _
  | send write message => exact h.acceptCommandInput (hnew write rfl) hopen _
  | run line =>
    rw [LocalActor.command]
    split
    · exact (h.enqueue hopen _ _).1
    · exact h
  | start line => exact h.starting _
  | other => exact h

/-- The next request is taken from the channel. -/
theorem Valid.receive (h : a.Valid) {request : Request} {rest : List Request} (hcommands : a.commands = request :: rest) :
    Valid { a with commands := rest, input := none } ∧
      ∀ w ∈ request.write, New { a with commands := rest, input := none } w := by
  have hcarried : a.carried = request.write.toList ++ { a with commands := rest, input := none }.carried := by
    rw [carried, hcommands, carried]
    cases hwrite : request.write <;> simp [hwrite]
  have hsub : (a.accepted ++ { a with commands := rest, input := none }.carried).Sublist (a.accepted ++ a.carried) := by
    rw [hcarried]
    exact (List.sublist_append_right _ _).append_left a.accepted
  refine ⟨⟨⟨?_, fun x hx => h.ordered.fresh x (hsub.subset hx), fun x hx => h.ordered.untouched x (hsub.subset hx),
    h.ordered.inOrder, h.ordered.within, h.ordered.turned, h.ordered.whole, h.ordered.confirmed, fun hended => ?_⟩,
    h.synced.frame rfl (.inr rfl) rfl rfl rfl rfl rfl⟩, fun w hw => ⟨fun hmem => ?_, ?_, ?_⟩⟩
  · exact List.Nodup.sublist (hsub.map _) h.ordered.nodup
  · obtain ⟨-, hnone, -⟩ := h.ordered.closed hended
    rw [hcommands] at hnone
    cases hnone
  · have hperm : (a.accepted ++ a.carried).Perm (w :: (a.accepted ++ { a with commands := rest, input := none }.carried)) := by
      rw [hcarried, hw]
      exact List.perm_middle
    have hnodup := (hperm.map (·.id)).nodup_iff.mp h.ordered.nodup
    rw [List.map_cons, List.nodup_cons] at hnodup
    exact hnodup.1 hmem
  · exact h.ordered.untouched w (List.mem_append_right _ (by rw [hcarried, hw]; exact List.mem_cons_self))
  · exact h.ordered.fresh w (List.mem_append_right _ (by rw [hcarried, hw]; exact List.mem_cons_self))

theorem Valid.hostControl (h : a.Valid) (hopen : a.ended = false) (around : Surroundings) (right : Nat)
    (closed message : Bool) (bytes : List UInt8) : (a.hostControl around right closed message bytes).Valid := by
  rw [LocalActor.hostControl]
  split
  · exact h
  · cases hmake : a.make bytes (some right) true with
    | error _ => exact h
    | ok made =>
      obtain ⟨hvalid, hnew, hended⟩ := h.make hmake
      cases message with
      | false => exact hvalid.push hnew (hended.trans hopen)
      | true => exact hvalid.acceptCommandInput hnew (hended.trans hopen) _

theorem Valid.pasteSaved (h : a.Valid) (hopen : a.ended = false) (authorization : Option Nat)
    (pasted : Option (List UInt8)) : (a.pasteSaved authorization pasted).Valid := by
  rw [LocalActor.pasteSaved.eq_def]
  split
  · exact h
  · cases pasted with
    | none => exact h
    | some bytes =>
      cases hmake : a.make bytes authorization true with
      | error _ => simpa only [hmake] using h
      | ok made =>
        obtain ⟨hvalid, hnew, hended⟩ := h.make hmake
        simpa only [hmake] using hvalid.push hnew (hended.trans hopen)

theorem Valid.typeStartLine (h : a.Valid) (hopen : a.ended = false) (hidle : a.input = none) (decided : StartLine) :
    (a.typeStartLine decided).Valid ∧ (a.typeStartLine decided).ended = false ∧
      (a.typeStartLine decided).input = none := by
  rw [LocalActor.typeStartLine.eq_def]
  split
  · obtain ⟨hvalid, hended, hinput⟩ := (h.starting none).enqueue hopen _ none
    exact ⟨hvalid, hended, hinput.trans hidle⟩
  · exact ⟨h.starting none, hopen, hidle⟩
  · exact ⟨h, hopen, hidle⟩

theorem Valid.output (h : a.Valid) (hopen : a.ended = false) (replies : List (List UInt8)) :
    (replies.foldl (fun a bytes => a.enqueue bytes none) a).Valid := by
  induction replies generalizing a with
  | nil => exact h
  | cons bytes replies ih =>
    obtain ⟨hvalid, hended, -⟩ := h.enqueue hopen bytes none
    exact ih hvalid hended

theorem Valid.drops {ws : List PendingWrite} (h : a.Valid) : (ws.foldl LocalActor.drop a).Valid :=
  ⟨h.ordered.drops, h.synced.drops⟩

theorem Valid.thin (h : a.Valid) {queue : List PendingWrite} (hsub : queue.Sublist a.queue)
    (hover : ∀ x ∈ a.queue, (∃ y ∈ queue, y.id = x.id) ∨ a.isCancelled x ∨ a.sent x.id = x.bytes.length)
    (hopen : a.ended = false) (hidle : a.input = none) (hhead : a.inFlight = none ∨ queue.head? = a.queue.head?) :
    Valid { a with queue } :=
  ⟨h.ordered.thin hsub hover hopen, h.synced.thin h.ordered hsub hidle hhead⟩

theorem Valid.dropCancelledInput (h : a.Valid) (hopen : a.ended = false) (hidle : a.input = none) :
    a.dropCancelledInput.Valid := by
  have hthin : ∀ front rest, a.queue = front ++ rest → (a.inFlight = none ∨ front ≠ [] ∨ rest = []) →
      Valid { a with queue := front ++ rest.filter fun w => !a.isCancelled w } := by
    intro front rest hqueue hhead
    refine h.thin ?_ (fun x hx => ?_) hopen hidle ?_
    · rw [hqueue]
      exact List.filter_sublist.append_left front
    · rw [hqueue] at hx
      rcases List.mem_append.mp hx with hx | hx
      · exact .inl ⟨x, List.mem_append_left _ hx, rfl⟩
      · by_cases hcancelled : a.isCancelled x = true
        · exact .inr (.inl hcancelled)
        · exact .inl ⟨x, List.mem_append_right _ (List.mem_filter.mpr ⟨hx, by simpa using hcancelled⟩), rfl⟩
    · rcases hhead with hnone | hfront | hnil
      · exact .inl hnone
      · right
        obtain ⟨x, xs, rfl⟩ := List.exists_cons_of_ne_nil hfront
        rw [hqueue]
        rfl
      · right
        rw [hqueue, hnil]
        rfl
  rw [LocalActor.dropCancelledInput]
  by_cases hflight : a.inFlight.isSome = true
  · simp only [if_pos hflight]
    refine (hthin (a.queue.take 1) (a.queue.drop 1) (List.take_append_drop 1 a.queue).symm (.inr ?_)).drops
    cases a.queue with
    | nil => exact .inr rfl
    | cons w rest => exact .inl (List.cons_ne_nil w _)
  · simp only [if_neg hflight]
    exact (hthin [] a.queue rfl (.inl (Option.not_isSome_iff_eq_none.mp hflight))).drops

/-- A turn offers the rest of the write that is in front, when one is. -/
theorem Valid.pendingFrom : ∀ {queue : List PendingWrite} {a : LocalActor}, Valid { a with queue } → a.ended = false →
    a.input = none → (a.pendingFrom queue).1.Valid ∧ (a.pendingFrom queue).1.ended = false ∧
      ∀ bytes, (a.pendingFrom queue).2 = some bytes →
        ∃ w rest, (a.pendingFrom queue).1.queue = w :: rest ∧ bytes = w.bytes.drop w.offset
  | [], a, h, hopen, _ => ⟨h, hopen, fun bytes hbytes => by cases hbytes⟩
  | w :: rest, a, h, hopen, hidle => by
    have hsub : rest.Sublist (w :: rest) := List.sublist_cons_self w rest
    have hstays : ∀ bytes, some (w.bytes.drop w.offset) = some bytes →
        ∃ v vs, w :: rest = v :: vs ∧ bytes = v.bytes.drop v.offset :=
      fun bytes hbytes => ⟨w, rest, rfl, (Option.some.inj hbytes).symm⟩
    rw [LocalActor.pendingFrom]
    by_cases hflight : a.inFlight.isSome = true
    · rw [if_pos hflight]
      exact ⟨h, hopen, hstays⟩
    rw [if_neg hflight]
    have hnone : a.inFlight = none := Option.not_isSome_iff_eq_none.mp hflight
    by_cases hcancelled : a.isCancelled w = true
    · rw [if_pos hcancelled]
      have hthin : Valid { a with queue := rest } := h.thin hsub (fun x hx => by
        rcases List.mem_cons.mp hx with rfl | hx
        · exact .inr (.inl hcancelled)
        · exact .inl ⟨x, hx, rfl⟩) hopen hidle (.inl hnone)
      obtain ⟨answers, heq⟩ := answer_same a w (.error (.other INTERRUPTED))
      refine Valid.pendingFrom ?_ ?_ ?_
      · rw [LocalActor.drop, ← answer_queue]
        exact hthin.refuse w _
      · rw [LocalActor.drop, heq]
        exact hopen
      · rw [LocalActor.drop, heq]
        exact hidle
    rw [if_neg hcancelled]
    by_cases hdone : w.offset = w.bytes.length
    · rw [if_pos hdone]
      have hsent : a.sent w.id = w.bytes.length := ((h.synced.offset w rest rfl).2 hnone).trans hdone
      have hthin : Valid { a with queue := rest } := h.thin hsub (fun x hx => by
        rcases List.mem_cons.mp hx with rfl | hx
        · exact .inr (.inr hsent)
        · exact .inl ⟨x, hx, rfl⟩) hopen hidle (.inl hnone)
      have haccepted : { w with offset := 0 } ∈ a.accepted := queue_accepted h.ordered (List.mem_cons_self (a := w))
      obtain ⟨answers, heq⟩ := answer_same a w (.ok ())
      refine Valid.pendingFrom ?_ ?_ ?_
      · rw [LocalActor.complete, ← answer_queue]
        exact ⟨hthin.ordered.answer fun _ => ⟨_, haccepted, rfl, hsent⟩, hthin.synced.answer w _⟩
      · rw [LocalActor.complete, heq]
        exact hopen
      · rw [LocalActor.complete, heq]
        exact hidle
    · rw [if_neg hdone]
      exact ⟨h, hopen, hstays⟩

/-- The front of the queue moves on when nothing is under way. -/
theorem Ordered.wroteValid (h : a.Ordered) (hopen : a.ended = false) (hidle : a.input = none) (hnone : a.inFlight = none)
    {count : Nat} (hsent : ∀ w rest, a.queue = w :: rest → a.sent w.id = min (w.offset + count) w.bytes.length) :
    (a.wrote count).Valid := by
  refine ⟨h.wrote hopen hsent, ?_⟩
  rw [LocalActor.wrote]
  cases hqueue : a.queue with
  | nil =>
    refine ⟨fun w rest hold => ?_, fun bytes hbytes => ?_, fun _ => hnone, fun f hf => ?_⟩
    · rw [hqueue] at hold
      cases hold
    · rw [hidle] at hbytes
      cases hbytes
    · rw [hnone] at hf
      cases hf
  | cons w rest =>
    simp only
    split
    · refine Synced.answer (a := { a with queue := rest })
        ⟨fun v vs hold => ?_, fun bytes hbytes => ?_, fun _ => hnone, fun f hf => ?_⟩ w _
      · obtain rfl : rest = v :: vs := hold
        obtain ⟨front, back, haccepted, hwaiting, hzero⟩ := h.turned w (v :: vs) hqueue
        have hback := hwaiting.subset List.mem_cons_self
        have hmem : v ∈ a.accepted ++ a.carried := by
          rw [haccepted]
          exact List.mem_append_left _ (List.mem_append_right _ (List.mem_cons_of_mem _ hback))
        have hzero' : ({ a with queue := v :: vs } : LocalActor).sent v.id = 0 := hzero v hback
        rw [hzero', h.untouched v hmem]
        exact ⟨le_refl _, fun _ => rfl⟩
      · have hinput : a.input = some (some bytes) := hbytes
        rw [hidle] at hinput
        cases hinput
      · have hflight : a.inFlight = some f := hf
        rw [hnone] at hflight
        cases hflight
    · refine ⟨fun v vs hold => ?_, fun bytes hbytes => ?_, fun _ => hnone, fun f hf => ?_⟩
      · obtain ⟨rfl, rfl⟩ := List.cons.inj hold
        exact ⟨(hsent w _ hqueue).ge, fun _ => hsent w _ hqueue⟩
      · have hinput : a.input = some (some bytes) := hbytes
        rw [hidle] at hinput
        cases hinput
      · have hflight : a.inFlight = some f := hf
        rw [hnone] at hflight
        cases hflight

/-- The offset of the front is within its write. -/
theorem Valid.offset_le (h : a.Valid) {rest : List PendingWrite} (hqueue : a.queue = w :: rest) :
    w.offset ≤ a.sent w.id ∧ a.sent w.id ≤ w.bytes.length := by
  have hmem : w ∈ a.queue := by
    rw [hqueue]
    exact List.mem_cons_self
  exact ⟨(h.synced.offset w rest hqueue).1, h.ordered.within { w with offset := 0 } (queue_accepted h.ordered hmem)⟩

/-- Bytes of the write in front are written at once. -/
theorem Valid.wroteNow (h : a.Valid) (hopen : a.ended = false) {rest : List PendingWrite} (hqueue : a.queue = w :: rest)
    (hnone : a.inFlight = none) {count : Nat} (hcount : count ≤ (w.bytes.drop w.offset).length) :
    (({ a with input := none }.put w.id ((w.bytes.drop w.offset).take count)).wrote count).Valid := by
  have hoffset : ({ a with input := none } : LocalActor).sent w.id = w.offset := (h.synced.offset w rest hqueue).2 hnone
  have hfront : ∀ v vs, ({ a with input := none } : LocalActor).queue = v :: vs → v = w := by
    intro v vs hv
    exact (List.cons.inj (hqueue.symm.trans hv)).1.symm
  have hbounds := h.offset_le hqueue
  refine Ordered.wroteValid (h.idle.ordered.put (h.ordered.turned w rest hqueue) ?_ ?_) hopen rfl hnone ?_
  · rw [hoffset]
    exact List.take_prefix _ _
  · intro v vs hv
    rw [hfront v vs hv]
  · intro v vs hv
    rw [hfront v vs hv, sent_put, if_pos rfl, hoffset, List.length_take, Nat.min_eq_left hcount]
    rw [List.length_drop] at hcount
    omega

/-- The thread writes a part of what it has. -/
theorem Valid.threadWrote (h : a.Valid) {f : InFlight} (hflight : a.inFlight = some f) {count : Nat}
    (hcount : count ≤ f.left.length) :
    Valid { a.put f.id (f.left.take count) with inFlight := some { f with left := f.left.drop count } } := by
  obtain ⟨w, hturned, hid, hleft, hfront⟩ := h.synced.flight f hflight
  have hhead : ∀ v rest, a.queue = v :: rest → v.id = w.id := by
    intro v rest hqueue
    cases hended : a.ended with
    | true =>
      rw [(h.ordered.closed hended).1] at hqueue
      cases hqueue
    | false =>
      obtain ⟨w', vs, hold, hw', -⟩ := hfront hended
      obtain ⟨rfl, -⟩ := List.cons.inj (hold.symm.trans hqueue)
      exact hw'.trans hid.symm
  have hput : (a.put f.id (f.left.take count)).Ordered := by
    rw [← hid]
    refine h.ordered.put hturned ?_ hhead
    rw [← hleft]
    exact List.take_prefix _ _
  have hsent : ∀ j, a.sent j ≤ (a.put f.id (f.left.take count)).sent j := by
    intro j
    rw [sent_put]
    exact Nat.le_add_right _ _
  refine ⟨⟨hput.nodup, hput.fresh, hput.untouched, hput.inOrder, hput.within, hput.turned, hput.whole, hput.confirmed,
    hput.closed⟩, fun v rest hqueue => ⟨(h.synced.offset v rest hqueue).1.trans (hsent _), fun hno => by cases hno⟩,
    h.synced.input, fun hunix => ?_, fun g hg => ?_⟩
  · have hnone := h.synced.unix hunix
    rw [hflight] at hnone
    cases hnone
  · obtain rfl := Option.some.inj hg
    refine ⟨w, ?_, hid, ?_, hfront⟩
    · have hput' := hturned.put h.ordered (f.left.take count)
      rw [hid] at hput'
      exact hput'
    · have hgrown : (a.put f.id (f.left.take count)).sent w.id = a.sent w.id + count := by
        rw [sent_put, if_pos hid.symm, List.length_take, Nat.min_eq_left hcount]
      have hdrop : f.left.drop count = w.bytes.drop ((a.put f.id (f.left.take count)).sent w.id) := by
        rw [hgrown, hleft, List.drop_drop]
      exact hdrop

/-- The thread has told that it wrote everything. -/
theorem Valid.delivered (h : a.Valid) (hopen : a.ended = false) {f : InFlight} (hflight : a.inFlight = some f)
    (hleft : f.left = []) : ({ a with inFlight := none, input := none }.wrote f.count).Valid := by
  obtain ⟨w, hturned, hid, hdrop, hfront⟩ := h.synced.flight f hflight
  obtain ⟨w', rest, hqueue, hid', hcount⟩ := hfront hopen
  have hidle := h.idle.ordered
  refine Ordered.wroteValid (a := { a with inFlight := none, input := none }) ⟨hidle.nodup, hidle.fresh, hidle.untouched, hidle.inOrder, hidle.within, hidle.turned,
    hidle.whole, hidle.confirmed, hidle.closed⟩ hopen rfl rfl ?_
  intro v vs hv
  obtain ⟨rfl, rfl⟩ := List.cons.inj (hqueue.symm.trans hv)
  obtain ⟨hoffset, hwithin⟩ := h.offset_le hqueue
  have hsame : ({ w' with offset := 0 } : PendingWrite) = { w with offset := 0 } := by
    refine same_accepted h.ordered (queue_accepted h.ordered ?_) ?_ (hid'.trans hid.symm)
    · rw [hqueue]
      exact List.mem_cons_self
    · obtain ⟨front, back, haccepted, -⟩ := hturned
      rw [haccepted]
      simp
  have hbytes : w'.bytes = w.bytes := (PendingWrite.mk.inj hsame).2.1
  have hfull : w'.bytes.length ≤ a.sent w'.id := by
    rw [hleft] at hdrop
    rw [hid', ← hid, hbytes]
    exact List.drop_eq_nil_iff.mp hdrop.symm
  have hsent : ({ a with inFlight := none, input := none } : LocalActor).sent w'.id = a.sent w'.id := rfl
  rw [hsent, hcount]
  omega

/-- What is handed over is what is left of the write in front. -/
theorem Valid.handOver (h : a.Valid) (hwindows : a.windows = true) (hnone : a.inFlight = none) {bytes : List UInt8}
    (hinput : a.input = some (some bytes)) {rest : List PendingWrite} (hqueue : a.queue = w :: rest) :
    Valid { a with inFlight := some ⟨w.id, bytes, bytes.length⟩ } := by
  obtain ⟨hoffset, hsent⟩ := h.synced.offset w rest hqueue
  obtain ⟨front, back, haccepted, -, hzero⟩ := h.ordered.turned w rest hqueue
  have hbytes : bytes = w.bytes.drop w.offset := by
    obtain ⟨v, vs, hold, hbytes⟩ := h.synced.input bytes hinput
    obtain ⟨rfl, -⟩ := List.cons.inj (hqueue.symm.trans hold)
    exact hbytes
  have hopen : a.ended = false := by
    cases hended : a.ended with
    | false => rfl
    | true =>
      rw [(h.ordered.closed hended).1] at hqueue
      cases hqueue
  refine ⟨⟨h.ordered.nodup, h.ordered.fresh, h.ordered.untouched, h.ordered.inOrder, h.ordered.within, h.ordered.turned,
    h.ordered.whole, h.ordered.confirmed, h.ordered.closed⟩, fun v vs hold => ?_, h.synced.input, fun hunix => ?_,
    fun f hf => ?_⟩
  · exact ⟨(h.synced.offset v vs hold).1, fun hno => by cases hno⟩
  · have hunix' : a.windows = false := hunix
    rw [hwindows] at hunix'
    cases hunix'
  · obtain rfl := Option.some.inj hf
    refine ⟨w, ⟨front, back, haccepted, List.nil_sublist _, hzero⟩, rfl, ?_, fun _ => ⟨w, rest, hqueue, rfl, ?_⟩⟩
    · have hsame : ({ a with inFlight := some ⟨w.id, bytes, bytes.length⟩ } : LocalActor).sent w.id = w.offset := hsent hnone
      rw [hsame]
      exact hbytes
    · rw [hbytes, List.length_drop]

theorem drops_same : ∀ (ws : List PendingWrite) (a : LocalActor), ∃ answers, ws.foldl drop a = { a with answers } ∧
    ∀ id, (id, .ok ()) ∈ answers → (id, .ok ()) ∈ a.answers
  | [], a => ⟨a.answers, rfl, fun _ h => h⟩
  | w :: ws, a => by
    obtain ⟨answers, heq, hold⟩ := drops_same ws (a.drop w)
    rw [List.foldl_cons, heq]
    have hdrop : ∃ kept, a.drop w = { a with answers := kept } ∧ ∀ id, (id, .ok ()) ∈ kept → (id, .ok ()) ∈ a.answers := by
      rw [drop, answer]
      split
      · refine ⟨_, rfl, fun id hid => ?_⟩
        rcases List.mem_append.mp hid with hid | hid
        · exact hid
        · cases (Prod.mk.inj (List.mem_singleton.mp hid)).2
      · exact ⟨a.answers, rfl, fun _ h => h⟩
    obtain ⟨kept, hkept, hin⟩ := hdrop
    rw [hkept] at hold ⊢
    exact ⟨answers, rfl, fun id hid => hin id (hold id hid)⟩

theorem Valid.stop (h : a.Valid) : a.stop.Valid := by
  have hstop : ∃ answers, a.stop = { a with ended := true, input := none, queue := [], commands := [], answers } ∧
      ∀ id, (id, .ok ()) ∈ answers → (id, .ok ()) ∈ a.answers := by
    rw [LocalActor.stop]
    obtain ⟨answers, heq, hold⟩ := drops_same a.queue { a with ended := true, input := none, queue := [] }
    rw [heq]
    obtain ⟨answers', heq', hold'⟩ := drops_same
      ({ a with ended := true, input := none, queue := [], answers } : LocalActor).carried
      { a with ended := true, input := none, queue := [], answers, commands := [] }
    exact ⟨answers', heq', fun id hid => hold id (hold' id hid)⟩
  obtain ⟨answers, heq, hold⟩ := hstop
  rw [heq]
  have hsub : (a.accepted ++ []).Sublist (a.accepted ++ a.carried) := (List.nil_sublist _).append_left a.accepted
  refine ⟨⟨List.Nodup.sublist (hsub.map _) h.ordered.nodup, fun x hx => h.ordered.fresh x (hsub.subset hx),
    fun x hx => h.ordered.untouched x (hsub.subset hx), h.ordered.inOrder, h.ordered.within,
    (fun w rest hnil => by cases hnil), fun _ _ _ => .inr (.inr rfl), fun id hid => h.ordered.confirmed id (hold id hid), fun _ => ⟨rfl, rfl, rfl⟩⟩,
    (fun w rest hnil => by cases hnil), fun bytes hnil => absurd hnil (Option.some_ne_none _).symm, h.synced.unix, fun f hf => ?_⟩
  obtain ⟨w, hturned, hid, hleft, -⟩ := h.synced.flight f hf
  exact ⟨w, hturned, hid, hleft, fun hopen => by cases hopen⟩

theorem Valid.cancel (h : a.Valid) (right : Nat) : Valid { a with cancelled := right :: a.cancelled } := by
  refine ⟨⟨h.ordered.nodup, h.ordered.fresh, h.ordered.untouched, h.ordered.inOrder, h.ordered.within, h.ordered.turned,
    fun x hx hshort => ?_, h.ordered.confirmed, h.ordered.closed⟩, h.synced.frame rfl (.inl rfl) rfl rfl rfl rfl rfl⟩
  rcases h.ordered.whole x hx hshort with hqueue | hcancelled | hended
  · exact .inl hqueue
  · refine .inr (.inl ?_)
    rw [isCancelled, Option.any_eq_true] at hcancelled ⊢
    obtain ⟨r, hr, hmem⟩ := hcancelled
    exact ⟨r, hr, decide_eq_true (List.mem_cons_of_mem _ (of_decide_eq_true hmem))⟩
  · exact .inr (.inr hended)

/-- A turn is under way only while the terminal lives. -/
theorem Valid.live (h : a.Valid) (hinput : a.input.isSome) : a.ended = false := by
  cases hended : a.ended with
  | false => rfl
  | true =>
    rw [(h.ordered.closed hended).2.2] at hinput
    cases hinput

theorem Valid.step (h : a.Valid) {e : InputEvent} (hallowed : a.Allowed e) : (a.step e).Valid := by
  cases e with
  | ask closed what => exact h.ask closed what
  | cancel right => exact h.cancel right
  | turn =>
    obtain ⟨hopen, hidle⟩ := hallowed
    have hturn : Valid { a with queue := a.queue } := h
    obtain ⟨⟨hordered, hsynced⟩, hopen', hinput⟩ := hturn.pendingFrom hopen hidle
    rw [LocalActor.step, pendingInput]
    refine ⟨⟨hordered.nodup, hordered.fresh, hordered.untouched, hordered.inOrder, hordered.within, hordered.turned,
      hordered.whole, hordered.confirmed, fun hended => ?_⟩, hsynced.offset, fun bytes hbytes => ?_, hsynced.unix,
      hsynced.flight⟩
    · rw [hopen'] at hended
      cases hended
    · exact hinput bytes (Option.some.inj hbytes)
  | command around =>
    obtain ⟨hinput, hcommands⟩ := hallowed
    obtain ⟨request, rest, heq⟩ := List.exists_cons_of_ne_nil hcommands
    obtain ⟨hvalid, hnew⟩ := h.receive heq
    rw [LocalActor.step, heq]
    exact hvalid.command (h.live hinput) hnew around
  | control around right closed message bytes =>
    exact h.idle.hostControl (h.live hallowed) around right closed message bytes
  | saved authorization pasted => exact h.idle.pasteSaved (h.live hallowed) authorization pasted
  | output replies => exact h.idle.output (h.live hallowed) replies
  | maintain decided =>
    obtain ⟨hvalid, hopen, hidle⟩ := h.idle.typeStartLine (h.live hallowed) rfl decided
    exact hvalid.dropCancelledInput hopen hidle
  | wrote count =>
    obtain ⟨hunix, bytes, hinput, -, hcount⟩ := hallowed
    obtain ⟨w, rest, hqueue, hbytes⟩ := h.synced.input bytes hinput
    have hopen := h.live (by rw [hinput]; rfl)
    have hstep : a.step (.wrote count) = ({ a with input := none }.put w.id (bytes.take count)).wrote count := by
      simp only [LocalActor.step, hinput, hqueue]
    rw [hstep, hbytes]
    exact h.wroteNow hopen hqueue (h.synced.unix hunix) (hbytes ▸ hcount)
  | handOver =>
    obtain ⟨hwindows, hnone, bytes, hinput, -⟩ := hallowed
    obtain ⟨w, rest, hqueue, -⟩ := h.synced.input bytes hinput
    have hstep : a.step .handOver = { a with inFlight := some ⟨w.id, bytes, bytes.length⟩ } := by
      simp only [LocalActor.step, hinput, hqueue]
    rw [hstep]
    exact h.handOver hwindows (Option.isNone_iff_eq_none.mp hnone) hinput hqueue
  | threadWrote count =>
    obtain ⟨f, hflight, hcount⟩ := hallowed
    rw [LocalActor.step, hflight]
    exact h.threadWrote hflight hcount
  | delivered =>
    obtain ⟨hinput, f, hflight, hleft⟩ := hallowed
    rw [LocalActor.step, hflight]
    exact h.delivered (h.live hinput) hflight hleft
  | stop => exact h.stop

/-! ### Runs -/

theorem Answered.spawn (windows : Bool) : Answered (LocalActor.spawn windows) [] :=
  ⟨List.Perm.refl _, List.nodup_nil, fun _ hid => absurd hid List.not_mem_nil⟩

theorem Valid.spawn (windows : Bool) : (LocalActor.spawn windows).Valid :=
  ⟨⟨List.nodup_nil, fun _ hx => absurd hx List.not_mem_nil, fun _ hx => absurd hx List.not_mem_nil, rfl,
    fun _ hx => absurd hx List.not_mem_nil, (fun _ _ hnil => by cases hnil),
    fun _ hx => absurd hx List.not_mem_nil, fun _ hid => absurd hid List.not_mem_nil, fun _ => ⟨rfl, rfl, rfl⟩⟩,
    (fun _ _ hnil => by cases hnil), fun _ hnil => absurd hnil (Option.some_ne_none _).symm, fun _ => rfl,
    fun _ hf => absurd hf (Option.some_ne_none _).symm⟩

/-- What a terminal has done with its input: what was written is a prefix of each accepted write, in the order of the
    queue; a part of a write is missing only while it waits, when its right was cancelled or when the terminal ended; every
    promise is answered once, at the latest when the terminal ended; and the answer is good only for a whole write. -/
structure Told (a : LocalActor) : Prop where
  distinct : (a.accepted.map (·.id)).Nodup
  inOrder : a.written = a.accepted.flatMap fun w => (w.bytes.take (a.sent w.id)).map (Prod.mk w.id)
  whole : ∀ w ∈ a.accepted, w.bytes.length ≤ a.sent w.id ∨ (∃ y ∈ a.queue, y.id = w.id) ∨ a.isCancelled w ∨ a.ended
  promised : a.promised.Nodup
  once : (a.answers.map (·.1)).Nodup
  answered : ∀ id ∈ a.promised, id ∈ a.answers.map (·.1) ∨ a.ended = false ∧ ∃ w ∈ a.live, w.id = id
  asked : ∀ id ∈ a.answers.map (·.1), id ∈ a.promised
  confirmed : ∀ id, (id, .ok ()) ∈ a.answers → ∃ w ∈ a.accepted, w.id = id ∧ a.sent id = w.bytes.length

theorem Valid.told (h : a.Valid) (hanswered : Answered a []) : a.Told where
  distinct := by
    have hnodup := h.ordered.nodup
    rw [List.map_append] at hnodup
    exact (List.nodup_append.mp hnodup).1
  inOrder := h.ordered.inOrder
  whole := fun w hw => or_iff_not_imp_left.mpr fun hshort => h.ordered.whole w hw (not_le.mp hshort)
  promised := hanswered.nodup
  once := (List.nodup_append.mp (hanswered.once.nodup_iff.mp hanswered.nodup)).1
  answered := by
    intro id hid
    rcases List.mem_append.mp (hanswered.once.mem_iff.mp hid) with hanswer | hwaits
    · exact .inl hanswer
    · obtain ⟨w, hw, rfl⟩ := List.mem_map.mp hwaits
      have hlive : w ∈ a.live := (List.mem_filter.mp hw).1
      refine .inr ⟨?_, w, hlive, rfl⟩
      cases hended : a.ended with
      | false => rfl
      | true =>
        obtain ⟨hqueue, hcommands, -⟩ := h.ordered.closed hended
        rw [LocalActor.live, carried, hqueue, hcommands] at hlive
        cases hlive
  asked := fun id hid => hanswered.once.mem_iff.mpr (List.mem_append_left _ hid)
  confirmed := h.ordered.confirmed

/-- A terminal writes its input in order, each write once, and tells once how each ended. -/
theorem writes_told (windows : Bool) (es : List InputEvent) (hrun : Run.Allows Allowed step (spawn windows) es) :
    (es.foldl step (spawn windows)).Told := by
  have hall : (es.foldl step (spawn windows)).Valid ∧ Answered (es.foldl step (spawn windows)) [] :=
    (Run.of_allows hrun).invariant (I := fun a => a.Valid ∧ Answered a []) (fun hI hnext => hnext.2 ▸ ⟨hI.1.step hnext.1, hI.2.step _⟩)
      ⟨Valid.spawn windows, Answered.spawn windows⟩
  exact hall.1.told hall.2

/-- A view types two letters, which the terminal takes one after the other before it ends. -/
def typed : List InputEvent :=
  [.ask false (.input 1 [97, 98]), .turn, .command ⟨fun _ => some 7, fun _ => none, true, []⟩, .turn, .wrote 1, .turn,
    .wrote 1, .stop]

theorem writes_told_typed : (typed.foldl step (spawn false)).Told ∧
    (typed.foldl step (spawn false)).written = [(0, 97), (0, 98)] ∧
    (typed.foldl step (spawn false)).answers.map (·.1) = [0] := by
  refine ⟨writes_told false typed ?_, by decide, by decide⟩
  refine ⟨trivial, ⟨rfl, rfl⟩, ⟨rfl, ?_⟩, ⟨rfl, rfl⟩, ⟨rfl, [97, 98], rfl, by decide⟩, ⟨rfl, rfl⟩, ⟨rfl, [98], rfl, by decide⟩,
    rfl, trivial⟩
  exact List.cons_ne_nil _ _

end LocalActor

end Kodosi.Terminal
