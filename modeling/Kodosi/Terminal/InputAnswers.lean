import Kodosi.Terminal.LocalInput

/-! Whoever was promised to be told how a write ended is told it once: an answer is open exactly while its write waits in
    the queue or in the channel. -/

namespace Kodosi.Terminal
open Kodosi.Lib

namespace LocalActor

variable {a b : LocalActor} {w : PendingWrite}

/-! ### What was promised and what was answered -/

/-- Whoever was promised an answer has it, or waits for a write that is in the queue, in the channel, or in hand. -/
structure Answered (a : LocalActor) (hand : List PendingWrite) : Prop where
  once : a.promised.Perm (a.answers.map (·.1) ++ ((hand ++ a.live).filter (·.completion)).map (·.id))
  nodup : a.promised.Nodup
  fresh : ∀ id ∈ a.promised, id < a.next

variable {hand : List PendingWrite}

theorem Answered.of_perm {hand' : List PendingWrite} (h : Answered a hand) (hanswers : b.answers = a.answers)
    (hpromised : b.promised = a.promised) (hnext : b.next = a.next) (hlive : (hand ++ a.live).Perm (hand' ++ b.live)) :
    Answered b hand' where
  once := by
    rw [hanswers, hpromised]
    exact h.once.trans (List.Perm.append_left _ ((hlive.filter _).map _))
  nodup := hpromised ▸ h.nodup
  fresh := by
    rw [hpromised, hnext]
    exact h.fresh

theorem Answered.make (h : Answered a hand) {bytes : List UInt8} {authorization : Option Nat} {completion : Bool}
    (hmake : a.make bytes authorization completion = .ok (w, b)) : Answered b (w :: hand) := by
  rw [LocalActor.make] at hmake
  split at hmake
  · cases hmake
  split at hmake
  · cases hmake
  obtain ⟨rfl, rfl⟩ := Prod.mk.inj (Except.ok.inj hmake)
  cases completion with
  | false => exact ⟨h.once, h.nodup, fun id hid => Nat.lt_succ_of_lt (h.fresh id hid)⟩
  | true =>
    refine ⟨?_, ?_, ?_⟩
    · simp only [if_true, List.cons_append, List.filter_cons_of_pos, List.map_cons]
      refine (h.once.append_right [a.next]).trans ?_
      rw [List.append_assoc]
      exact List.Perm.append_left _ (List.perm_append_singleton _ _)
    · simp only [if_true]
      refine List.nodup_append.mpr ⟨h.nodup, List.nodup_singleton _, ?_⟩
      intro id hid next hnext heq
      rw [List.mem_singleton.mp hnext] at heq
      exact absurd (h.fresh id hid) (by omega)
    · intro id hid
      rcases List.mem_append.mp hid with hid | hid
      · exact Nat.lt_succ_of_lt (h.fresh id hid)
      · rw [List.mem_singleton.mp hid]
        exact Nat.lt_succ_self _

theorem Answered.answer (h : Answered a (w :: hand)) (result : Except InputError Unit) :
    Answered (a.answer w result) hand := by
  rw [LocalActor.answer]
  by_cases hw : w.completion = true
  · rw [if_pos hw]
    refine ⟨?_, h.nodup, h.fresh⟩
    have honce := h.once
    rw [List.cons_append, List.filter_cons_of_pos hw, List.map_cons] at honce
    rw [List.map_append, List.append_assoc]
    exact honce
  · rw [if_neg hw]
    refine ⟨?_, h.nodup, h.fresh⟩
    have honce := h.once
    rwa [List.cons_append, List.filter_cons_of_neg hw] at honce

theorem Answered.drops {ws : List PendingWrite} (h : Answered a (ws ++ hand)) : Answered (ws.foldl drop a) hand := by
  induction ws generalizing a with
  | nil => exact h
  | cons w ws ih => exact ih (Answered.answer h _)

theorem Answered.push (h : Answered a (w :: hand)) : Answered (a.push w) hand := by
  refine h.of_perm rfl rfl rfl ?_
  rw [live, live, LocalActor.push, carried, carried, List.cons_append, ← List.append_assoc, ← List.append_assoc,
    ← List.append_assoc]
  exact (List.perm_append_singleton _ _).symm

/-- A write in hand may change what is not about its answer. -/
theorem Answered.changed (h : Answered a (w :: hand)) (w' : PendingWrite) (hid : w'.id = w.id)
    (hcompletion : w'.completion = w.completion) : Answered a (w' :: hand) where
  once := by
    have honce := h.once
    simp only [List.cons_append, List.filter_cons] at honce ⊢
    rw [hcompletion]
    by_cases hw : w.completion = true
    · rw [if_pos hw] at honce ⊢
      rw [List.map_cons, hid]
      exact honce
    · rw [if_neg hw] at honce ⊢
      exact honce
  nodup := h.nodup
  fresh := h.fresh

theorem carried_queue (queue : List PendingWrite) : { a with queue }.carried = a.carried := rfl

/-- The front of the queue is taken in hand. -/
theorem Answered.take {rest : List PendingWrite} (h : Answered a hand) (hqueue : a.queue = w :: rest) :
    Answered { a with queue := rest } (w :: hand) := by
  refine h.of_perm rfl rfl rfl (List.perm_iff_count.mpr fun x => ?_)
  simp only [live, carried_queue, hqueue, List.count_append, List.count_cons]
  omega

theorem Answered.untake (h : Answered a (w :: hand)) : Answered { a with queue := w :: a.queue } hand := by
  refine h.of_perm rfl rfl rfl (List.perm_iff_count.mpr fun x => ?_)
  simp only [live, carried_queue, List.count_append, List.count_cons]
  omega

theorem answer_queue (queue : List PendingWrite) (result : Except InputError Unit) :
    { a with queue }.answer w result = { a.answer w result with queue } := by
  rw [answer, answer]
  split <;> rfl

theorem Answered.enqueue (h : Answered a hand) (bytes : List UInt8) (authorization : Option Nat) :
    Answered (a.enqueue bytes authorization) hand := by
  rw [LocalActor.enqueue]
  cases hmake : a.make bytes authorization false with
  | error _ => exact h
  | ok made => exact (h.make hmake).push

theorem Answered.pendingFrom : ∀ {queue : List PendingWrite} {a : LocalActor},
    Answered { a with queue } hand → Answered (a.pendingFrom queue).1 hand
  | [], _, h => h
  | w :: rest, a, h => by
    have htaken := h.take rfl
    rw [LocalActor.pendingFrom]
    split
    · exact h
    split
    · refine Answered.pendingFrom ?_
      rw [LocalActor.drop, ← answer_queue]
      exact htaken.answer _
    split
    · refine Answered.pendingFrom ?_
      rw [LocalActor.complete, ← answer_queue]
      exact htaken.answer _
    · exact h

theorem Answered.wrote (h : Answered a hand) (count : Nat) : Answered (a.wrote count) hand := by
  rw [LocalActor.wrote]
  cases hqueue : a.queue with
  | nil => exact h
  | cons w rest =>
    simp only
    split
    · exact (h.take hqueue).answer _
    · exact ((h.take hqueue).changed { w with offset := min (w.offset + count) w.bytes.length } rfl rfl).untake

theorem Answered.dropCancelledInput (h : Answered a hand) : Answered a.dropCancelledInput hand := by
  have hdrop : ∀ front rest, a.queue = front ++ rest →
      Answered ((rest.filter a.isCancelled).foldl LocalActor.drop
        { a with queue := front ++ rest.filter fun w => !a.isCancelled w }) hand := by
    intro front rest hqueue
    refine Answered.drops (h.of_perm rfl rfl rfl (List.perm_iff_count.mpr fun x => ?_))
    have hperm := List.perm_iff_count.mp (List.filter_append_perm a.isCancelled rest) x
    simp only [live, carried_queue, hqueue, List.count_append] at hperm ⊢
    omega
  rw [LocalActor.dropCancelledInput]
  cases a.inFlight.isSome with
  | true => exact hdrop (a.queue.take 1) (a.queue.drop 1) (List.take_append_drop 1 a.queue).symm
  | false => exact hdrop [] a.queue rfl

theorem Answered.acceptInput (h : Answered a (w :: hand)) (authorization : Option Nat) :
    Answered (a.acceptInput authorization w) hand := by
  cases authorization with
  | none => exact h.answer _
  | some right => exact (h.changed { w with authorization := some right } rfl rfl).push

theorem Answered.acceptCommandInput (h : Answered a (w :: hand)) (refused : Option String) :
    Answered (a.acceptCommandInput refused w) hand := by
  cases refused with
  | none => exact h.push
  | some text => exact h.answer _

theorem Answered.sendRequest (request : Request) (closed : Bool) (h : Answered a (request.write.toList ++ hand)) :
    Answered (a.sendRequest closed request) hand := by
  rw [LocalActor.sendRequest]
  split
  · exact h.drops
  · refine h.of_perm rfl rfl rfl (List.perm_iff_count.mpr fun x => ?_)
    have hcarried : { a with commands := a.commands ++ [request] }.carried = a.carried ++ request.write.toList := by
      rw [carried, carried, List.filterMap_append]
      cases hwrite : request.write <;> simp [hwrite]
    simp only [live, hcarried, List.count_append]
    omega

theorem Answered.ask (h : Answered a []) (closed : Bool) (what : Ask) : Answered (a.ask closed what) [] := by
  cases what with
  | input connection bytes =>
    rw [LocalActor.ask]
    cases hmake : a.make bytes none true with
    | error _ => exact h
    | ok made => exact Answered.sendRequest (.input connection made.1) closed (h.make hmake)
  | send bytes message =>
    rw [LocalActor.ask]
    cases hmake : a.make bytes none true with
    | error _ => exact h
    | ok made => exact Answered.sendRequest (.send made.1 message) closed (h.make hmake)
  | run line => exact Answered.sendRequest (.run line) closed h
  | start line => exact Answered.sendRequest (.start line) closed h
  | other => exact Answered.sendRequest .other closed h

theorem Answered.command {request : Request} (h : Answered a request.write.toList) (around : Surroundings) :
    Answered (a.command around request) [] := by
  cases request with
  | input connection write => exact h.acceptInput _
  | send write message => exact h.acceptCommandInput _
  | run line =>
    rw [LocalActor.command]
    split
    · exact Answered.enqueue h _ _
    · exact h
  | start line => exact h.of_perm rfl rfl rfl (List.Perm.refl _)
  | other => exact h

theorem Answered.hostControl (h : Answered a []) (around : Surroundings) (right : Nat) (closed message : Bool)
    (bytes : List UInt8) : Answered (a.hostControl around right closed message bytes) [] := by
  rw [LocalActor.hostControl]
  split
  · exact h
  · cases hmake : a.make bytes (some right) true with
    | error _ => exact h
    | ok made =>
      cases message with
      | false => exact (h.make hmake).push
      | true => exact (h.make hmake).acceptCommandInput _

theorem Answered.pasteSaved (h : Answered a []) (authorization : Option Nat) (pasted : Option (List UInt8)) :
    Answered (a.pasteSaved authorization pasted) [] := by
  rw [LocalActor.pasteSaved.eq_def]
  split
  · exact h
  · cases pasted with
    | none => exact h
    | some bytes =>
      cases hmake : a.make bytes authorization true with
      | error _ => simpa only [hmake] using h
      | ok made => simpa only [hmake] using (h.make hmake).push

theorem Answered.typeStartLine (h : Answered a []) (decided : StartLine) : Answered (a.typeStartLine decided) [] := by
  rw [LocalActor.typeStartLine.eq_def]
  split
  · exact (h.of_perm (b := { a with start := none }) rfl rfl rfl (List.Perm.refl _)).enqueue _ _
  · exact h.of_perm rfl rfl rfl (List.Perm.refl _)
  · exact h

theorem Answered.stop (h : Answered a []) : Answered a.stop [] := by
  have hqueue : Answered (a.queue.foldl LocalActor.drop { a with ended := true, input := none, queue := [] }) [] := by
    refine Answered.drops (h.of_perm rfl rfl rfl (List.perm_iff_count.mpr fun x => ?_))
    have hcarried : { a with ended := true, input := none, queue := [] }.carried = a.carried := rfl
    simp only [live, hcarried, List.count_append, List.count_nil]
    omega
  rw [LocalActor.stop]
  generalize hb : a.queue.foldl LocalActor.drop { a with ended := true, input := none, queue := [] } = b at hqueue
  refine Answered.drops (hqueue.of_perm rfl rfl rfl (List.perm_iff_count.mpr fun x => ?_))
  have hcarried : { b with commands := [] }.carried = [] := rfl
  simp only [live, hcarried, List.count_append, List.count_nil]
  omega

/-- No step leaves a promise open that was answered, or answers one twice. -/
theorem Answered.step (h : Answered a []) (e : InputEvent) : Answered (a.step e) [] := by
  have hidle : Answered { a with input := none } [] := h.of_perm rfl rfl rfl (List.Perm.refl _)
  cases e with
  | ask closed what => exact h.ask closed what
  | cancel right => exact h.of_perm rfl rfl rfl (List.Perm.refl _)
  | turn =>
    have hturn : Answered (a.pendingFrom a.queue).1 [] := Answered.pendingFrom h
    exact hturn.of_perm rfl rfl rfl (List.Perm.refl _)
  | command around =>
    rw [LocalActor.step]
    cases hcommands : a.commands with
    | nil => exact h
    | cons request rest =>
      refine Answered.command (a := { a with commands := rest, input := none }) ?_ around
      refine h.of_perm rfl rfl rfl (List.perm_iff_count.mpr fun x => ?_)
      have hcarried : a.carried = request.write.toList ++ { a with commands := rest, input := none }.carried := by
        rw [carried, hcommands, carried]
        cases hwrite : request.write <;> simp [hwrite]
      simp only [live, hcarried, List.count_append, List.count_nil]
      omega
  | control around right closed message bytes => exact hidle.hostControl around right closed message bytes
  | saved authorization pasted => exact hidle.pasteSaved authorization pasted
  | output replies =>
    rw [LocalActor.step]
    generalize { a with input := none } = b at hidle
    induction replies generalizing b with
    | nil => exact hidle
    | cons bytes replies ih => exact ih (b.enqueue bytes none) (hidle.enqueue bytes none)
  | maintain decided => exact (hidle.typeStartLine decided).dropCancelledInput
  | wrote count =>
    rw [LocalActor.step]
    split
    · refine Answered.wrote ?_ count
      exact hidle.of_perm rfl rfl rfl (List.Perm.refl _)
    · exact h
  | handOver =>
    rw [LocalActor.step]
    split
    · exact h.of_perm rfl rfl rfl (List.Perm.refl _)
    · exact h
  | threadWrote count =>
    rw [LocalActor.step]
    split
    · exact h.of_perm rfl rfl rfl (List.Perm.refl _)
    · exact h
  | delivered =>
    rw [LocalActor.step]
    split
    · refine Answered.wrote ?_ _
      exact h.of_perm rfl rfl rfl (List.Perm.refl _)
    · exact h
  | stop => exact h.stop

end LocalActor

end Kodosi.Terminal
