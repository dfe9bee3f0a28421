import Kodosi.Terminal.RemoteInput

/-! What holds of the controls of a remote terminal between any two of its operations: each caller is answered or waits for
    a control that is somewhere, and the inputs that went, go and wait are in the order in which they were accepted. -/

namespace Kodosi.Terminal.RemoteInput
open Kodosi.Lib

variable {ν : Type}

def inputs (l : List QueuedControl) : List QueuedControl := l.filter (·.control.isInput)

@[simp] theorem inputs_append (l l' : List QueuedControl) : inputs (l ++ l') = inputs l ++ inputs l' := List.filter_append ..

@[simp] theorem replies_append (l l' : List QueuedControl) : replies (l ++ l') = replies l ++ replies l' :=
  List.filterMap_append

variable {l : List QueuedControl}

theorem mem_inputs {q : QueuedControl} : q ∈ inputs l ↔ q ∈ l ∧ q.control.isInput = true :=
  List.mem_filter

theorem mem_replies {id : Nat} : id ∈ replies l ↔ ∃ q ∈ l, q.reply = some id :=
  List.mem_filterMap

theorem replies_cons (q : QueuedControl) (l : List QueuedControl) : replies (q :: l) = q.reply.toList ++ replies l := by
  rw [replies, replies, List.filterMap_cons]
  cases q.reply <;> rfl

namespace RemoteActor

variable {a b : RemoteActor ν} {P : QueuedControl → Prop} {hand : List QueuedControl} {q : QueuedControl}

/-! ### The invariant -/

def flightReplies (a : RemoteActor ν) : List Nat := a.inFlight.toList.flatMap (·.replies)

/-- The inputs of the control on its way, before it is handed over. -/
def begun (a : RemoteActor ν) : List QueuedControl := (a.inFlight.toList.filter fun f => !f.handed).flatMap (·.parts)

/-- An input that will not be handed over: its caller had given up, or was told an error. -/
def PassedOver (a : RemoteActor ν) (q : QueuedControl) : Prop :=
  ∃ id, q.reply = some id ∧
    ((id ∈ a.cancelled ∧ (id, .dropped) ∈ a.answers) ∨ ∃ e, (id, .told (.error e)) ∈ a.answers)

/-- The control on its way is joined from its parts, and its callers are theirs. -/
structure Flies (accepted sent : List QueuedControl) (f : InFlight) : Prop where
  bytes : f.control.bytes = f.parts.flatMap (·.control.bytes)
  replies : ∀ id ∈ f.replies, ∃ q ∈ accepted, q.reply = some id ∧ (q.control.isInput = true → q ∈ f.parts)
  waits : ∀ q ∈ f.parts, ∀ id, q.reply = some id → id ∈ f.replies
  handed : f.handed = true → ∀ q ∈ f.parts, q ∈ sent

theorem Flies.push {accepted sent : List QueuedControl} {f : InFlight} (h : Flies accepted sent f) (q : QueuedControl) :
    Flies (accepted ++ [q]) sent f := by
  refine ⟨h.bytes, fun id hid => ?_, h.waits, h.handed⟩
  obtain ⟨x, hx, hrest⟩ := h.replies id hid
  exact ⟨x, List.mem_append_left _ hx, hrest⟩

/-- The controls in hand were taken off the queue. Those of which `P` holds were given up by their callers. -/
structure Sound (P : QueuedControl → Prop) (a : RemoteActor ν) (hand : List QueuedControl) : Prop where
  once : a.promised.Perm (a.answers.map (·.1) ++ (replies (a.carried ++ hand ++ a.queued) ++ a.flightReplies))
  nodup : a.promised.Nodup
  fresh : ∀ id ∈ a.promised, id < a.next
  known : ∀ id ∈ replies (a.accepted ++ a.carried), id ∈ a.promised
  distinct : (replies (a.accepted ++ a.carried)).Nodup
  replied : ∀ q ∈ a.accepted ++ a.carried, q.control.isInput = true → q.reply ≠ none
  waiting : ∀ q ∈ hand ++ a.queued, q ∈ a.accepted
  inOrder : (a.sent ++ a.begun ++ inputs (hand ++ a.queued)).Sublist (inputs a.accepted)
  bytes : a.handed.flatMap (·.bytes) = a.sent.flatMap (·.control.bytes)
  flight : ∀ f, a.inFlight = some f → Flies a.accepted a.sent f
  fate : ∀ q ∈ inputs a.accepted, q ∈ a.sent ∨ q ∈ a.begun ∨ q ∈ hand ++ a.queued ∨ a.PassedOver q
  confirmed : ∀ id v, (id, .told (.ok v)) ∈ a.answers →
    ∃ q ∈ a.accepted, q.reply = some id ∧ (q.control.isInput = true → q ∈ a.sent)
  skipped : ∀ q ∈ a.sent, ∀ id, q.reply = some id → (id, .dropped) ∉ a.answers
  gone : ∀ q, P q → a.isClosed q = true ∧ q ∉ a.sent ∧ q ∉ a.begun
  over' : a.ended = true → a.queued = [] ∧ a.requests = [] ∧ a.inFlight = none

/-! ### What nothing of this depends on -/

theorem Sound.views (h : Sound P a hand) (views : Views) : Sound P { a with views } hand :=
  ⟨h.once, h.nodup, h.fresh, h.known, h.distinct, h.replied, h.waiting, h.inOrder, h.bytes, h.flight,
    h.fate, h.confirmed, h.skipped, h.gone, h.over'⟩

theorem Sound.place (h : Sound P a hand) (place : Place) : Sound P { a with place } hand :=
  ⟨h.once, h.nodup, h.fresh, h.known, h.distinct, h.replied, h.waiting, h.inOrder, h.bytes, h.flight,
    h.fate, h.confirmed, h.skipped, h.gone, h.over'⟩

/-! ### Callers and controls -/

variable {l : List QueuedControl}

theorem same_control (hnodup : (replies l).Nodup) {x y : QueuedControl} {id : Nat} (hx : x ∈ l) (hy : y ∈ l)
    (hxid : x.reply = some id) (hyid : y.reply = some id) : x = y := by
  induction l with
  | nil => cases hx
  | cons z l ih =>
    rw [replies_cons, List.nodup_append] at hnodup
    obtain ⟨-, hrest, hapart⟩ := hnodup
    have hnot : ∀ w ∈ l, w.reply = some id → z.reply = some id → False := fun w hw hwid hzid =>
      hapart id (by rw [hzid]; exact List.mem_singleton.mpr rfl) id (mem_replies.mpr ⟨w, hw, hwid⟩) rfl
    rcases List.mem_cons.mp hx with hxz | hxl
    · rcases List.mem_cons.mp hy with hyz | hyl
      · rw [hxz, hyz]
      · exact absurd (hxz ▸ hxid) fun hzid => hnot y hyl hyid hzid
    · rcases List.mem_cons.mp hy with hyz | hyl
      · exact absurd (hyz ▸ hyid) fun hzid => hnot x hxl hxid hzid
      · exact ih hrest hxl hyl

theorem Sound.same (h : Sound P a hand) {x y : QueuedControl} {id : Nat} (hx : x ∈ a.accepted ++ a.carried)
    (hy : y ∈ a.accepted ++ a.carried) (hxid : x.reply = some id) (hyid : y.reply = some id) : x = y :=
  same_control h.distinct hx hy hxid hyid

/-- Inputs are told apart by their callers. -/
theorem nodup_inputs (hnodup : (replies l).Nodup) (hreplied : ∀ q ∈ l, q.control.isInput = true → q.reply ≠ none) :
    (inputs l).Nodup := by
  induction l with
  | nil => exact List.nodup_nil
  | cons z l ih =>
    rw [replies_cons, List.nodup_append] at hnodup
    have hrest := ih hnodup.2.1 fun q hq => hreplied q (List.mem_cons_of_mem _ hq)
    rw [inputs, List.filter_cons]
    split
    · refine List.nodup_cons.mpr ⟨fun hz => ?_, hrest⟩
      obtain ⟨id, hid⟩ := Option.ne_none_iff_exists'.mp (hreplied z List.mem_cons_self ‹_›)
      refine hnodup.2.2 id (by rw [hid]; exact List.mem_singleton.mpr rfl) id ?_ rfl
      exact mem_replies.mpr ⟨z, (mem_inputs.mp hz).1, hid⟩
    · exact hrest

theorem Sound.nodup_inputs (h : Sound P a hand) : (inputs a.accepted).Nodup :=
  RemoteActor.nodup_inputs (List.Sublist.nodup (by rw [replies_append]; exact List.sublist_append_left _ _) h.distinct)
    fun q hq => h.replied q (List.mem_append_left _ hq)

theorem Sound.nodup_sent (h : Sound P a hand) : (a.sent ++ a.begun ++ inputs (hand ++ a.queued)).Nodup :=
  h.inOrder.nodup h.nodup_inputs

theorem Sound.sent_accepted (h : Sound P a hand) (hq : q ∈ a.sent) : q ∈ a.accepted ∧ q.control.isInput = true :=
  mem_inputs.mp (h.inOrder.subset (List.mem_append_left _ (List.mem_append_left _ hq)))

/-- What was answered, what waits and what is on its way are apart. -/
theorem Sound.apart (h : Sound P a hand) :
    (a.answers.map (·.1) ++ (replies (a.carried ++ hand ++ a.queued) ++ a.flightReplies)).Nodup :=
  h.once.nodup_iff.mp h.nodup

/-! ### Answers -/

/-- The answers that a control in hand can get: it is dropped when its caller gave up, and an input is not good. -/
def Fits (a : RemoteActor ν) (q : QueuedControl) : Answer ν → Prop
  | .dropped => a.isClosed q = true
  | .told (.error _) => True
  | .told (.ok _) => q.control.isInput = false

theorem PassedOver.mono (h : a.PassedOver q) (hcancelled : ∀ id ∈ a.cancelled, id ∈ b.cancelled)
    (hanswers : ∀ p ∈ a.answers, p ∈ b.answers) : b.PassedOver q := by
  obtain ⟨id, hid, ⟨hcancel, hdropped⟩ | ⟨e, htold⟩⟩ := h
  · exact ⟨id, hid, .inl ⟨hcancelled id hcancel, hanswers _ hdropped⟩⟩
  · exact ⟨id, hid, .inr ⟨e, hanswers _ htold⟩⟩

variable {answer : Answer ν}

theorem mem_resolve {ids : List Nat} {p : Nat × Answer ν} :
    p ∈ (a.resolve ids answer).answers ↔ p ∈ a.answers ∨ p.1 ∈ ids ∧ p.2 = answer := by
  rw [resolve, List.mem_append, List.mem_map]
  refine or_congr_right ⟨?_, ?_⟩
  · rintro ⟨id, hid, rfl⟩
    exact ⟨hid, rfl⟩
  · rintro ⟨hid, rfl⟩
    exact ⟨p.1, hid, rfl⟩

theorem resolve_fst (ids : List Nat) (answer : Answer ν) :
    (a.resolve ids answer).answers.map (·.1) = a.answers.map (·.1) ++ ids := by
  rw [resolve, List.map_append, List.map_map]
  congr 1
  exact List.map_id' ids

theorem resolve_append (ids ids' : List Nat) (answer : Answer ν) :
    a.resolve (ids ++ ids') answer = (a.resolve ids answer).resolve ids' answer := by
  rw [resolve, resolve, resolve, List.map_append, List.append_assoc]

/-- A control in hand is answered. -/
theorem Sound.resolve (front back : List QueuedControl) (answer : Answer ν) (h : Sound P a (front ++ q :: back))
    (hfits : a.Fits q answer) : Sound P (a.resolve q.reply.toList answer) (front ++ back) := by
  have haccepted : q ∈ a.accepted := h.waiting q (by simp)
  have hmine : ∀ id ∈ q.reply.toList, q.reply = some id := fun id hid => Option.mem_toList.mp hid
  refine ⟨?_, h.nodup, h.fresh, h.known, h.distinct, h.replied, ?_, ?_, h.bytes, h.flight,
    ?_, ?_, ?_, h.gone, h.over'⟩
  · refine h.once.trans (List.perm_iff_count.mpr fun x => ?_)
    rw [resolve_fst]
    have hcarried : (a.resolve q.reply.toList answer).carried = a.carried := rfl
    have hqueued : (a.resolve q.reply.toList answer).queued = a.queued := rfl
    have hflight : (a.resolve q.reply.toList answer).flightReplies = a.flightReplies := rfl
    rw [hcarried, hqueued, hflight]
    simp only [replies_append, replies_cons, List.count_append]
    omega
  · intro x hx
    refine h.waiting x ?_
    have hqueued : (a.resolve q.reply.toList answer).queued = a.queued := rfl
    rw [hqueued] at hx
    simp only [List.mem_append, List.mem_cons] at hx ⊢
    tauto
  · refine List.Sublist.trans (List.Sublist.append_left ?_ _) h.inOrder
    refine List.Sublist.filter _ (List.Sublist.append_right ?_ _)
    exact (List.sublist_cons_self q back).append_left front
  · intro x hx
    have hmono : a.PassedOver x → (a.resolve q.reply.toList answer).PassedOver x := fun hpassed =>
      hpassed.mono (fun _ hid => hid) fun p hp => mem_resolve.mpr (.inl hp)
    rcases h.fate x hx with hsent | hbegun | hwaits | hpassed
    · exact .inl hsent
    · exact .inr (.inl hbegun)
    · by_cases heq : x = q
      · subst heq
        obtain ⟨hmem, hinput⟩ := mem_inputs.mp hx
        obtain ⟨id, hid⟩ := Option.ne_none_iff_exists'.mp (h.replied x (List.mem_append_left _ hmem) hinput)
        have hnew : (id, answer) ∈ (a.resolve x.reply.toList answer).answers :=
          mem_resolve.mpr (.inr ⟨Option.mem_toList.mpr hid, rfl⟩)
        refine .inr (.inr (.inr ⟨id, hid, ?_⟩))
        cases answer with
        | dropped =>
          refine .inl ⟨?_, hnew⟩
          have hclosed : a.isClosed x = true := hfits
          rw [isClosed, hid, Option.any_some] at hclosed
          exact of_decide_eq_true hclosed
        | told result =>
          cases result with
          | error e => exact .inr ⟨e, hnew⟩
          | ok v =>
            have hnot : x.control.isInput = false := hfits
            rw [hnot] at hinput
            cases hinput
      · refine .inr (.inr (.inl ?_))
        have hqueued : (a.resolve q.reply.toList answer).queued = a.queued := rfl
        rw [hqueued]
        simp only [List.mem_append, List.mem_cons] at hwaits ⊢
        tauto
    · exact .inr (.inr (.inr (hmono hpassed)))
  · intro id v hok
    rcases mem_resolve.mp hok with hold | ⟨hid, hanswer⟩
    · exact h.confirmed id v hold
    · refine ⟨q, haccepted, hmine id hid, fun hinput => ?_⟩
      have hnot : q.control.isInput = false := by
        have hfits' := hfits
        rw [← hanswer] at hfits'
        exact hfits'
      rw [hnot] at hinput
      cases hinput
  · intro x hx id hid hdropped
    rcases mem_resolve.mp hdropped with hold | ⟨hmem, -⟩
    · exact h.skipped x hx id hid hold
    · obtain ⟨hxa, hinput⟩ := h.sent_accepted hx
      have heq : x = q := h.same (List.mem_append_left _ hxa) (List.mem_append_left _ haccepted) hid (hmine id hmem)
      subst heq
      have hnodup := List.nodup_append.mp h.nodup_sent
      refine hnodup.2.2 x (List.mem_append_left _ hx) x (mem_inputs.mpr ⟨?_, hinput⟩) rfl
      simp

/-- Controls in hand are answered alike. -/
theorem Sound.resolveAll : ∀ {qs : List QueuedControl} {a : RemoteActor ν},
    Sound P a (qs ++ hand) → (∀ q ∈ qs, a.Fits q answer) → Sound P (a.resolve (replies qs) answer) hand
  | [], a, h, _ => by
    have hnone : a.resolve (replies []) answer = a := by
      rw [replies, List.filterMap_nil, RemoteActor.resolve, List.map_nil, List.append_nil]
    rw [hnone]
    exact h
  | q :: qs, a, h, hfits => by
    rw [replies_cons, resolve_append]
    refine Sound.resolveAll (Sound.resolve [] _ answer h (hfits q List.mem_cons_self)) fun x hx => ?_
    exact hfits x (List.mem_cons_of_mem _ hx)

/-- The front of the queue is taken in hand. -/
theorem Sound.take {front rest : List QueuedControl} (h : Sound P a hand) (hqueued : a.queued = front ++ rest) :
    Sound P { a with queued := rest } (hand ++ front) := by
  have hsame : hand ++ front ++ rest = hand ++ a.queued := by rw [hqueued, List.append_assoc]
  have hreplies : replies (a.carried ++ (hand ++ front) ++ rest) = replies (a.carried ++ hand ++ a.queued) := by
    rw [hqueued]
    simp only [List.append_assoc]
  refine ⟨?_, h.nodup, h.fresh, h.known, h.distinct, h.replied, ?_, ?_, h.bytes, h.flight,
    ?_, h.confirmed, h.skipped, h.gone, fun hended => ?_⟩
  · have honce := h.once
    rw [← hreplies] at honce
    exact honce
  · simp only [hsame]
    exact h.waiting
  · simp only [hsame]
    exact h.inOrder
  · simp only [hsame]
    exact h.fate
  · obtain ⟨hnil, hrest⟩ := h.over' hended
    rw [hqueued, List.append_eq_nil_iff] at hnil
    exact ⟨hnil.2, hrest⟩

/-! ### The control on its way -/

theorem begun_none (h : a.inFlight = none) : a.begun = [] := by
  rw [begun, h]
  rfl

variable {f : InFlight}

theorem mem_begun (hflight : a.inFlight = some f) : q ∈ a.begun ↔ f.handed = false ∧ q ∈ f.parts := by
  rw [begun, hflight]
  cases hf : f.handed <;> simp [hf]

theorem flightReplies_some (hflight : a.inFlight = some f) : a.flightReplies = f.replies := by
  rw [flightReplies, hflight]
  simp

/-- What is in hand goes on its way. Its inputs are those of the control. -/
theorem Sound.begin (h : Sound P a hand) (hnone : a.inFlight = none) (hopen : a.ended = false) (control : TerminalControl)
    (hbytes : control.bytes = (inputs hand).flatMap (·.control.bytes)) (owner : Option Nat)
    (hwanted : ∀ q ∈ inputs hand, a.isClosed q = false) :
    Sound P (a.begin control (replies hand) owner (inputs hand)) [] := by
  have hbegun : (a.begin control (replies hand) owner (inputs hand)).begun = inputs hand := by
    simp [RemoteActor.begun, RemoteActor.begin]
  have hqueued : (a.begin control (replies hand) owner (inputs hand)).queued = a.queued := rfl
  refine ⟨?_, h.nodup, h.fresh, h.known, h.distinct, h.replied, fun q hq => h.waiting q (List.mem_append_right _ hq), ?_,
    h.bytes, ?_, ?_, h.confirmed, h.skipped, ?_, fun hended => ?_⟩
  · refine h.once.trans (List.perm_iff_count.mpr fun x => ?_)
    have hcarried : (a.begin control (replies hand) owner (inputs hand)).carried = a.carried := rfl
    have hanswers : (a.begin control (replies hand) owner (inputs hand)).answers = a.answers := rfl
    have hold : a.flightReplies = [] := by rw [flightReplies, hnone]; rfl
    have hnew : (a.begin control (replies hand) owner (inputs hand)).flightReplies = replies hand := by
      simp [RemoteActor.flightReplies, RemoteActor.begin]
    rw [hold, hnew, hcarried, hanswers, hqueued]
    simp only [replies_append, List.count_append, List.append_nil]
    omega
  · have hin := h.inOrder
    rw [begun_none hnone, List.append_nil, inputs_append, ← List.append_assoc] at hin
    rw [hbegun, hqueued, List.nil_append]
    exact hin
  · intro f hf
    obtain rfl := Option.some.inj hf
    refine ⟨hbytes, fun id hid => ?_, fun q hq id hid => mem_replies.mpr ⟨q, (mem_inputs.mp hq).1, hid⟩,
      fun hno => by cases hno⟩
    obtain ⟨q, hq, hqid⟩ := mem_replies.mp hid
    exact ⟨q, h.waiting q (List.mem_append_left _ hq), hqid, fun hinput => mem_inputs.mpr ⟨hq, hinput⟩⟩
  · intro q hq
    rw [hbegun]
    rcases h.fate q hq with hsent | hold | hwaits | hpassed
    · exact .inl hsent
    · rw [begun_none hnone] at hold
      cases hold
    · rcases List.mem_append.mp hwaits with hhand | hqueue
      · exact .inr (.inl (mem_inputs.mpr ⟨hhand, (mem_inputs.mp hq).2⟩))
      · exact .inr (.inr (.inl hqueue))
    · exact .inr (.inr (.inr hpassed))
  · intro q hq
    obtain ⟨hclosed, hsent, -⟩ := h.gone q hq
    refine ⟨hclosed, hsent, fun hmem => ?_⟩
    rw [hbegun] at hmem
    rw [hwanted q hmem] at hclosed
    cases hclosed
  · have hended' : a.ended = true := hended
    rw [hopen] at hended'
    cases hended'

/-- The connection takes the control. -/
theorem Sound.handOver (h : Sound P a []) (hflight : a.inFlight = some f) (hnot : f.handed = false) :
    Sound P (a.handOver f) [] := by
  have hbegun : a.begun = f.parts := by simp [RemoteActor.begun, hflight, hnot]
  have hnow : (a.handOver f).begun = [] := by simp [RemoteActor.begun, RemoteActor.handOver]
  have hflies := h.flight f hflight
  refine ⟨?_, h.nodup, h.fresh, h.known, h.distinct, h.replied, h.waiting, ?_, ?_, ?_, ?_, ?_, ?_, ?_, fun hended => ?_⟩
  · have honce := h.once
    rw [flightReplies_some hflight] at honce
    simp only [RemoteActor.handOver, RemoteActor.flightReplies, Option.toList_some, List.flatMap_singleton]
    exact honce
  · have hin := h.inOrder
    rw [hbegun] at hin
    rw [hnow, List.append_nil]
    exact hin
  · simp only [RemoteActor.handOver, List.flatMap_append, List.flatMap_singleton, h.bytes, hflies.bytes]
  · intro g hg
    obtain rfl := Option.some.inj hg
    exact ⟨hflies.bytes, hflies.replies, hflies.waits, fun _ q hq => List.mem_append_right _ hq⟩
  · intro q hq
    rw [hnow]
    rcases h.fate q hq with hsent | hold | hwaits | hpassed
    · exact .inl (List.mem_append_left _ hsent)
    · rw [hbegun] at hold
      exact .inl (List.mem_append_right _ hold)
    · exact .inr (.inr (.inl hwaits))
    · exact .inr (.inr (.inr hpassed))
  · intro id v hok
    obtain ⟨q, hq, hid, hsent⟩ := h.confirmed id v hok
    exact ⟨q, hq, hid, fun hinput => List.mem_append_left _ (hsent hinput)⟩
  · intro q hq id hid hdropped
    rcases List.mem_append.mp hq with hold | hpart
    · exact h.skipped q hold id hid hdropped
    · have hwaits := hflies.waits q hpart id hid
      refine (List.nodup_append.mp h.apart).2.2 id (List.mem_map.mpr ⟨_, hdropped, rfl⟩) id ?_ rfl
      rw [flightReplies_some hflight]
      exact List.mem_append_right _ hwaits
  · intro q hq
    obtain ⟨hclosed, hsent, hbegun'⟩ := h.gone q hq
    rw [hbegun] at hbegun'
    refine ⟨hclosed, fun hmem => ?_, fun hmem => ?_⟩
    · rcases List.mem_append.mp hmem with hold | hpart
      · exact hsent hold
      · exact hbegun' hpart
    · rw [hnow] at hmem
      cases hmem
  · have hnone := (h.over' hended).2.2
    rw [hflight] at hnone
    cases hnone

/-- The control on its way ends: its callers hear errors, or that it is done when the connection had taken it. -/
theorem Sound.land (h : Sound P a hand) (hflight : a.inFlight = some f) (news : List (Nat × Answer ν))
    (hfst : news.map (·.1) = f.replies)
    (hnews : ∀ p ∈ news, (∃ e, p.2 = .told (.error e)) ∨ f.handed = true ∧ ∃ v, p.2 = .told (.ok v)) :
    Sound P { a with inFlight := none, answers := a.answers ++ news } hand := by
  have hflies := h.flight f hflight
  refine ⟨?_, h.nodup, h.fresh, h.known, h.distinct, h.replied, h.waiting, ?_, h.bytes, (fun g hg => by cases hg),
    ?_, ?_, ?_, fun q hq => ⟨(h.gone q hq).1, (h.gone q hq).2.1, fun hmem => by cases hmem⟩, fun hended => ?_⟩
  · refine h.once.trans (List.perm_iff_count.mpr fun x => ?_)
    have hcarried : ({ a with inFlight := none, answers := a.answers ++ news } : RemoteActor ν).carried = a.carried := rfl
    have hnone : ({ a with inFlight := none, answers := a.answers ++ news } : RemoteActor ν).flightReplies = [] := rfl
    rw [flightReplies_some hflight, hnone, hcarried]
    simp only [List.map_append, hfst, List.count_append, List.append_nil]
    omega
  · refine List.Sublist.trans (List.Sublist.append_right ?_ _) h.inOrder
    exact List.Sublist.append_left (List.nil_sublist _) _
  · intro q hq
    rcases h.fate q hq with hsent | hbegun | hwaits | hpassed
    · exact .inl hsent
    · obtain ⟨hnot, hpart⟩ := (mem_begun hflight).mp hbegun
      obtain ⟨hmem, hinput⟩ := mem_inputs.mp hq
      obtain ⟨id, hid⟩ := Option.ne_none_iff_exists'.mp (h.replied q (List.mem_append_left _ hmem) hinput)
      have hreply := hflies.waits q hpart id hid
      rw [← hfst] at hreply
      obtain ⟨⟨_, answer⟩, hp, rfl⟩ := List.mem_map.mp hreply
      rcases hnews _ hp with ⟨e, htold⟩ | ⟨hhanded, -⟩
      · refine .inr (.inr (.inr ⟨_, hid, .inr ⟨e, List.mem_append_right _ ?_⟩⟩))
        have htold' : answer = .told (.error e) := htold
        rw [← htold']
        exact hp
      · rw [hnot] at hhanded
        cases hhanded
    · exact .inr (.inr (.inl hwaits))
    · exact .inr (.inr (.inr (hpassed.mono (fun _ hid => hid) fun _ hp => List.mem_append_left _ hp)))
  · intro id v hok
    rcases List.mem_append.mp hok with hold | hnew
    · exact h.confirmed id v hold
    · have hid : id ∈ f.replies := by
        rw [← hfst]
        exact List.mem_map.mpr ⟨_, hnew, rfl⟩
      obtain ⟨q, hq, hqid, hpart⟩ := hflies.replies id hid
      rcases hnews _ hnew with ⟨e, htold⟩ | ⟨hhanded, -⟩
      · cases htold
      · exact ⟨q, hq, hqid, fun hinput => hflies.handed hhanded q (hpart hinput)⟩
  · intro q hq id hid hdropped
    rcases List.mem_append.mp hdropped with hold | hnew
    · exact h.skipped q hq id hid hold
    · rcases hnews _ hnew with ⟨e, htold⟩ | ⟨-, v, htold⟩ <;> cases htold
  · obtain ⟨hqueued, hrequests, -⟩ := h.over' hended
    exact ⟨hqueued, hrequests, rfl⟩

/-! ### The channel and the queue -/

theorem carried_append {front back : List Request} (hrequests : a.requests = front ++ back) :
    a.carried = front.filterMap Request.queued ++ back.filterMap Request.queued := by
  rw [carried, hrequests, List.filterMap_append]

/-- Requests are taken from the channel, and their callers hear that they were not accepted. -/
theorem Sound.refuse (front back : List Request) (answer : Answer ν) (h : Sound P a hand)
    (hrequests : a.requests = front ++ back) (hbad : ∀ v, answer ≠ .told (.ok v)) :
    Sound P ({ a with requests := back }.resolve (replies (front.filterMap Request.queued)) answer) hand := by
  have hcarried := carried_append hrequests
  have hnow : ({ a with requests := back }.resolve (replies (front.filterMap Request.queued)) answer).carried =
    back.filterMap Request.queued := rfl
  have hsub : (a.accepted ++ back.filterMap Request.queued).Sublist (a.accepted ++ a.carried) := by
    rw [hcarried]
    exact (List.sublist_append_right _ _).append_left _
  refine ⟨?_, h.nodup, h.fresh, fun id hid => h.known id ((hsub.filterMap _).subset hid),
    h.distinct.sublist (hsub.filterMap _), fun q hq => h.replied q (hsub.subset hq), h.waiting, h.inOrder, h.bytes,
    h.flight, ?_, ?_, ?_, h.gone, fun hended => ?_⟩
  · refine h.once.trans (List.perm_iff_count.mpr fun x => ?_)
    have hflight : ({ a with requests := back }.resolve (replies (front.filterMap Request.queued)) answer).flightReplies =
      a.flightReplies := rfl
    have hqueued : ({ a with requests := back }.resolve (replies (front.filterMap Request.queued)) answer).queued =
      a.queued := rfl
    rw [resolve_fst, hnow, hcarried, hflight, hqueued]
    simp only [replies_append, List.count_append]
    omega
  · intro q hq
    rcases h.fate q hq with hsent | hbegun | hwaits | hpassed
    · exact .inl hsent
    · exact .inr (.inl hbegun)
    · exact .inr (.inr (.inl hwaits))
    · exact .inr (.inr (.inr (hpassed.mono (fun _ hid => hid) fun _ hp => mem_resolve.mpr (.inl hp))))
  · intro id v hok
    rcases mem_resolve.mp hok with hold | ⟨-, hanswer⟩
    · exact h.confirmed id v hold
    · exact absurd hanswer.symm (hbad v)
  · intro q hq id hid hdropped
    rcases mem_resolve.mp hdropped with hold | ⟨hmem, -⟩
    · exact h.skipped q hq id hid hold
    · have hapart := h.distinct
      rw [replies_append] at hapart
      refine (List.nodup_append.mp hapart).2.2 id (mem_replies.mpr ⟨q, (h.sent_accepted hq).1, hid⟩) id ?_ rfl
      rw [hcarried, replies_append]
      exact List.mem_append_left _ hmem
  · obtain ⟨hqueued, hnil, hflight⟩ := h.over' hended
    rw [hrequests, List.append_eq_nil_iff] at hnil
    exact ⟨hqueued, hnil.2, hflight⟩

/-- A control leaves the channel for the queue. -/
theorem Sound.accept {rest : List Request} (h : Sound P a hand) (hrequests : a.requests = .control q :: rest) :
    Sound P ({ a with requests := rest }.push q) hand := by
  have hcarried : a.carried = q :: rest.filterMap Request.queued := by rw [carried, hrequests]; rfl
  have hnow : ({ a with requests := rest }.push q).carried = rest.filterMap Request.queued := rfl
  have hsame : ({ a with requests := rest }.push q).accepted ++ ({ a with requests := rest }.push q).carried =
      a.accepted ++ a.carried := by
    rw [hnow, hcarried, RemoteActor.push]
    simp
  have hinputs : inputs ({ a with requests := rest }.push q).accepted = inputs a.accepted ++ inputs [q] := by
    rw [RemoteActor.push, inputs_append]
  have hqueued : ({ a with requests := rest }.push q).queued = a.queued ++ [q] := rfl
  refine ⟨?_, h.nodup, h.fresh, hsame ▸ h.known, hsame ▸ h.distinct, hsame ▸ h.replied, fun x hx => ?_, ?_, h.bytes,
    fun f hf => (h.flight f hf).push q, fun x hx => ?_,
    fun id v hok => ?_, h.skipped, h.gone, fun hended => ?_⟩
  · refine h.once.trans (List.perm_iff_count.mpr fun x => ?_)
    have hflight : ({ a with requests := rest }.push q).flightReplies = a.flightReplies := rfl
    have hanswers : ({ a with requests := rest }.push q).answers = a.answers := rfl
    have hnil : replies [] = [] := rfl
    rw [hnow, hcarried, hflight, hqueued, hanswers]
    simp only [replies_append, replies_cons, hnil, List.count_append, List.cons_append, List.count_nil]
    omega
  · rw [hqueued, ← List.append_assoc] at hx
    rcases List.mem_append.mp hx with hold | hnew
    · exact List.mem_append_left _ (h.waiting x hold)
    · exact List.mem_append_right _ hnew
  · rw [hqueued, hinputs, ← List.append_assoc hand, inputs_append (hand ++ a.queued), ← List.append_assoc]
    exact h.inOrder.append_right _
  · rw [hinputs] at hx
    rw [hqueued]
    rcases List.mem_append.mp hx with hold | hnew
    · rcases h.fate x hold with hsent | hbegun | hwaits | hpassed
      · exact .inl hsent
      · exact .inr (.inl hbegun)
      · refine .inr (.inr (.inl ?_))
        rw [← List.append_assoc]
        exact List.mem_append_left _ hwaits
      · exact .inr (.inr (.inr hpassed))
    · refine .inr (.inr (.inl ?_))
      exact List.mem_append_right _ (List.mem_append_right _ (mem_inputs.mp hnew).1)
  · obtain ⟨x, hx, hrest⟩ := h.confirmed id v hok
    exact ⟨x, List.mem_append_left _ hx, hrest⟩
  · have hnil := (h.over' hended).2.1
    rw [hrequests] at hnil
    cases hnil

/-- A control of the actor's own, which nobody waits for. -/
theorem Sound.push (h : Sound P a hand) (hreply : q.reply = none) (hcontrol : q.control.isInput = false)
    (hopen : a.ended = false) : Sound P (a.push q) hand := by
  have hnone : replies [q] = [] := by rw [replies_cons, hreply]; rfl
  have hinputs : inputs [q] = [] := by simp [inputs, hcontrol]
  have hreplies : replies ((a.push q).accepted ++ (a.push q).carried) = replies (a.accepted ++ a.carried) := by
    have hcarried : (a.push q).carried = a.carried := rfl
    rw [hcarried, RemoteActor.push]
    simp only [replies_append, hnone, List.append_nil]
  have haccepted : inputs (a.push q).accepted = inputs a.accepted := by
    rw [RemoteActor.push, inputs_append, hinputs, List.append_nil]
  have hqueued : (a.push q).queued = a.queued ++ [q] := rfl
  refine ⟨?_, h.nodup, h.fresh, hreplies ▸ h.known, hreplies ▸ h.distinct, fun x hx hinput => ?_, fun x hx => ?_, ?_,
    h.bytes, fun f hf => (h.flight f hf).push q, fun x hx => ?_,
    fun id v hok => ?_, h.skipped, h.gone, fun hended => ?_⟩
  · have hcarried : (a.push q).carried = a.carried := rfl
    rw [hcarried, hqueued, ← List.append_assoc (a.carried ++ hand), replies_append _ [q], hnone, List.append_nil]
    exact h.once
  · refine h.replied x ?_ hinput
    rcases List.mem_append.mp hx with hx | hx
    · rcases List.mem_append.mp hx with hold | hnew
      · exact List.mem_append_left _ hold
      · rw [List.mem_singleton.mp hnew, hcontrol] at hinput
        cases hinput
    · exact List.mem_append_right _ hx
  · rw [hqueued, ← List.append_assoc] at hx
    rcases List.mem_append.mp hx with hold | hnew
    · exact List.mem_append_left _ (h.waiting x hold)
    · exact List.mem_append_right _ hnew
  · rw [hqueued, haccepted, ← List.append_assoc hand, inputs_append (hand ++ a.queued), hinputs, List.append_nil]
    exact h.inOrder
  · rw [haccepted] at hx
    rw [hqueued, ← List.append_assoc]
    rcases h.fate x hx with hsent | hbegun | hwaits | hpassed
    · exact .inl hsent
    · exact .inr (.inl hbegun)
    · exact .inr (.inr (.inl (List.mem_append_left _ hwaits)))
    · exact .inr (.inr (.inr hpassed))
  · obtain ⟨x, hx, hrest⟩ := h.confirmed id v hok
    exact ⟨x, List.mem_append_left _ hx, hrest⟩
  · have hended' : a.ended = true := hended
    rw [hopen] at hended'
    cases hended'

/-! ### New callers -/

theorem Sound.unknown (h : Sound P a hand) : a.next ∉ a.promised := fun hmem => absurd (h.fresh _ hmem) (Nat.lt_irrefl _)

theorem Sound.nodup_promise (h : Sound P a hand) : a.promise.promised.Nodup :=
  List.nodup_append.mpr ⟨h.nodup, List.nodup_singleton _, fun _ hid _ hnext heq =>
    h.unknown (List.mem_singleton.mp hnext ▸ heq ▸ hid)⟩

theorem Sound.fresh_promise (h : Sound P a hand) : ∀ id ∈ a.promise.promised, id < a.promise.next := by
  intro id hid
  rcases List.mem_append.mp hid with hid | hid
  · exact Nat.lt_succ_of_lt (h.fresh id hid)
  · rw [List.mem_singleton.mp hid]
    exact Nat.lt_succ_self _

/-- A caller is refused at once. -/
theorem Sound.refused (h : Sound P a hand) (e : Error) : Sound P (a.promise.fail [a.next] e) hand := by
  refine ⟨?_, h.nodup_promise, h.fresh_promise, fun id hid => List.mem_append_left _ (h.known id hid), h.distinct, h.replied,
    h.waiting, h.inOrder, h.bytes,
    h.flight, fun q hq => ?_,
    fun id v hok => ?_, fun q hq id hid hdropped => ?_, h.gone, h.over'⟩
  · have hpromised : (a.promise.fail [a.next] e).promised = a.promised ++ [a.next] := rfl
    have hcarried : (a.promise.fail [a.next] e).carried = a.carried := rfl
    have hqueued : (a.promise.fail [a.next] e).queued = a.queued := rfl
    have hflight : (a.promise.fail [a.next] e).flightReplies = a.flightReplies := rfl
    have hanswers : a.promise.answers = a.answers := rfl
    have honce := List.perm_iff_count.mp h.once
    rw [hpromised, hcarried, hqueued, hflight, RemoteActor.fail, resolve_fst, hanswers]
    refine List.perm_iff_count.mpr fun x => ?_
    have hx := honce x
    simp only [List.count_append] at hx ⊢
    omega
  · rcases h.fate q hq with hsent | hbegun | hwaits | hpassed
    · exact .inl hsent
    · exact .inr (.inl hbegun)
    · exact .inr (.inr (.inl hwaits))
    · exact .inr (.inr (.inr (hpassed.mono (fun _ hid => hid) fun _ hp => mem_resolve.mpr (.inl hp))))
  · rcases mem_resolve.mp hok with hold | ⟨-, hanswer⟩
    · exact h.confirmed id v hold
    · cases hanswer
  · rcases mem_resolve.mp hdropped with hold | ⟨-, hanswer⟩
    · exact h.skipped q hq id hid hold
    · cases hanswer

/-- A caller's control goes into the channel. -/
theorem Sound.asked (h : Sound P a hand) (hreply : q.reply = some a.next) (hopen : a.ended = false) :
    Sound P (a.promise.enter (.control q)) hand := by
  have hcarried : (a.promise.enter (.control q)).carried = a.carried ++ [q] := by
    rw [carried, enter, List.filterMap_append]
    rfl
  have hmine : replies [q] = [a.next] := by rw [replies_cons, hreply]; rfl
  refine ⟨?_, h.nodup_promise, h.fresh_promise, fun id hid => ?_, ?_, fun x hx hinput => ?_, h.waiting, h.inOrder, h.bytes,
    h.flight, h.fate, h.confirmed, h.skipped, h.gone, fun hended => ?_⟩
  · have honce := List.perm_iff_count.mp h.once
    have hpromised : (a.promise.enter (.control q)).promised = a.promised ++ [a.next] := rfl
    rw [hcarried, hpromised]
    refine List.perm_iff_count.mpr fun x => ?_
    have hx := honce x
    have hflight : (a.promise.enter (.control q)).flightReplies = a.flightReplies := rfl
    have hanswers : (a.promise.enter (.control q)).answers = a.answers := rfl
    have hqueued : (a.promise.enter (.control q)).queued = a.queued := rfl
    rw [hflight, hanswers, hqueued]
    simp only [replies_append, hmine, List.count_append] at hx ⊢
    omega
  · have haccepted : (a.promise.enter (.control q)).accepted = a.accepted := rfl
    rw [hcarried, haccepted, ← List.append_assoc, replies_append, hmine] at hid
    rcases List.mem_append.mp hid with hold | hnew
    · exact List.mem_append_left _ (h.known id hold)
    · exact List.mem_append_right _ hnew
  · have haccepted : (a.promise.enter (.control q)).accepted = a.accepted := rfl
    rw [hcarried, haccepted, ← List.append_assoc, replies_append, hmine]
    refine List.nodup_append.mpr ⟨h.distinct, List.nodup_singleton _, fun id hid next hnext heq => ?_⟩
    rw [List.mem_singleton.mp hnext] at heq
    exact h.unknown (heq ▸ h.known id hid)
  · have haccepted : (a.promise.enter (.control q)).accepted = a.accepted := rfl
    rw [hcarried, haccepted, ← List.append_assoc] at hx
    rcases List.mem_append.mp hx with hold | hnew
    · exact h.replied x hold hinput
    · rw [List.mem_singleton.mp hnew, hreply]
      exact Option.some_ne_none _
  · have hended' : a.ended = true := hended
    rw [hopen] at hended'
    cases hended'

/-- A request that carries no control goes through the channel. -/
theorem Sound.requests {requests : List Request} (h : Sound P a hand)
    (hcarried : requests.filterMap Request.queued = a.carried) (hover : a.ended = true → requests = []) :
    Sound P { a with requests } hand := by
  have hnow : ({ a with requests } : RemoteActor ν).carried = a.carried := hcarried
  refine ⟨?_, h.nodup, h.fresh, ?_, ?_, ?_, h.waiting, h.inOrder, h.bytes, h.flight,
    h.fate, h.confirmed, h.skipped, h.gone, fun hended => ⟨(h.over' hended).1, hover hended, (h.over' hended).2.2⟩⟩
  · rw [hnow]
    exact h.once
  · rw [hnow]
    exact h.known
  · rw [hnow]
    exact h.distinct
  · rw [hnow]
    exact h.replied

/-- A caller gives up. -/
theorem Sound.cancel (h : Sound P a hand) (reply : Nat) : Sound P { a with cancelled := reply :: a.cancelled } hand := by
  refine ⟨h.once, h.nodup, h.fresh, h.known, h.distinct, h.replied, h.waiting, h.inOrder, h.bytes,
    h.flight, fun q hq => ?_, h.confirmed, h.skipped, fun q hq => ⟨?_, (h.gone q hq).2⟩, h.over'⟩
  · rcases h.fate q hq with hsent | hbegun | hwaits | hpassed
    · exact .inl hsent
    · exact .inr (.inl hbegun)
    · exact .inr (.inr (.inl hwaits))
    · exact .inr (.inr (.inr (hpassed.mono (fun _ hid => List.mem_cons_of_mem _ hid) fun _ hp => hp)))
  · have hclosed := (h.gone q hq).1
    rw [isClosed, Option.any_eq_true] at hclosed ⊢
    obtain ⟨id, hid, hmem⟩ := hclosed
    exact ⟨id, hid, decide_eq_true (List.mem_cons_of_mem _ (of_decide_eq_true hmem))⟩

end RemoteActor

end Kodosi.Terminal.RemoteInput
