import Kodosi.Documents.Answers

/-! What holds of a client with its document at any time, and that the client's own steps keep it. On
    one link at most one batch is without its answer: it is on the way to the document, or its answer is
    on the way back. -/

namespace Kodosi.Documents
open Kodosi.Lib

variable {M C Q A : Type} {F : Format M C Q} {W : Wire} {toValue : A → Value} {id : String}

/-! ### What comes down a link -/

/-- The words on their way to a client that holds `rev` lead it along the order: the answer to its
    join, with each own change that it missed, and then one change after the other. -/
def Leads (order : List (Stamp × List Nat)) : Bool → Nat → List ToClient → Prop
  | _, _, [] => True
  | taken, rev, .changed changed :: ms =>
    taken = true ∧ rev < changed.rev ∧ changed.rev ≤ order.length ∧
      changed.stamp ∈ order.map (·.1) ∧ Leads order true changed.rev ms
  | taken, rev, .joined _ _ _ _ r _ _ catchup :: ms =>
    taken = false ∧ rev ≤ r ∧ r ≤ order.length ∧
      (∀ changes, catchup = .missed changes →
        (∀ changed ∈ changes, changed.stamp ∈ order.map (·.1) ∧ changed.rev ≤ r) ∧
        ∀ o ∈ order, rev < o.1.rev → o.1.rev ≤ r → ∃ changed ∈ changes, changed.stamp = o.1) ∧
      Leads order true r ms
  | taken, rev, .refused .. :: ms => taken = true ∧ Leads order taken rev ms
  | taken, rev, _ :: ms => Leads order taken rev ms

def isJoined : ToClient → Bool
  | .joined .. => true
  | _ => false

/-- The rev that the words lead to. -/
def endRev : Nat → List ToClient → Nat
  | rev, [] => rev
  | _, .changed changed :: ms => endRev changed.rev ms
  | _, .joined _ _ _ _ r _ _ _ :: ms => endRev r ms
  | rev, _ :: ms => endRev rev ms

namespace Leads

variable {order : List (Stamp × List Nat)}

variable {ms : List ToClient}

variable {taken : Bool} {rev : Nat}

theorem append {ws : List ToClient} (hm : Leads order taken rev ms)
    (hw : Leads order (taken || ms.any isJoined) (endRev rev ms) ws) :
    Leads order taken rev (ms ++ ws) := by
  induction ms generalizing taken rev with
  | nil => simpa [endRev] using hw
  | cons m ms ih =>
    cases m with
    | changed changed =>
      obtain ⟨htaken, hlt, hle, hmem, hms⟩ := hm
      refine ⟨htaken, hlt, hle, hmem, ih hms ?_⟩
      simpa [htaken, isJoined, endRev] using hw
    | joined =>
      obtain ⟨htaken, hlt, hle, hmissed, hms⟩ := hm
      refine ⟨htaken, hlt, hle, hmissed, ih hms ?_⟩
      simpa [isJoined, endRev] using hw
    | refused =>
      obtain ⟨htaken, hms⟩ := hm
      refine ⟨htaken, ih hms ?_⟩
      simpa [htaken, isJoined, endRev] using hw
    | answer | saved | peer | left | closed => exact ih hm (by simpa [isJoined, endRev] using hw)

theorem endRev_le (hm : Leads order taken rev ms) (h : rev ≤ order.length) : endRev rev ms ≤ order.length := by
  induction ms generalizing taken rev with
  | nil => exact h
  | cons m ms ih =>
    cases m with
    | changed | joined => exact ih hm.2.2.2.2 hm.2.2.1
    | refused => exact ih hm.2 h
    | answer | saved | peer | left | closed => exact ih hm h

/-- The order may grow behind what is on the way. -/
theorem grow (hm : Leads order taken rev ms) {new : List (Stamp × List Nat)} (hnew : ∀ o ∈ new, order.length < o.1.rev) :
    Leads (order ++ new) taken rev ms := by
  induction ms generalizing taken rev with
  | nil => trivial
  | cons m ms ih =>
    have hlength : order.length ≤ (order ++ new).length := by simp
    cases m with
    | changed =>
      obtain ⟨htaken, hlt, hle, hmem, hms⟩ := hm
      refine ⟨htaken, hlt, hle.trans hlength, ?_, ih hms⟩
      rw [List.map_append]
      exact List.mem_append_left _ hmem
    | joined =>
      obtain ⟨htaken, hlt, hle, hmissed, hms⟩ := hm
      refine ⟨htaken, hlt, hle.trans hlength, fun changes hc => ?_, ih hms⟩
      obtain ⟨hin, hall⟩ := hmissed changes hc
      refine ⟨fun changed hch => ?_, fun o ho hrev hr => ?_⟩
      · rw [List.map_append]
        exact ⟨List.mem_append_left _ (hin changed hch).1, (hin changed hch).2⟩
      · rcases List.mem_append.mp ho with ho | ho
        · exact hall o ho hrev hr
        · have := hnew o ho
          omega
    | refused => exact ⟨hm.1, ih hm.2⟩
    | answer | saved | peer | left | closed => exact ih hm

/-- A client that holds less is led as well, once it was answered. -/
theorem less {rev' : Nat} (hm : Leads order true rev ms) (hle : rev' ≤ rev) : Leads order true rev' ms := by
  induction ms with
  | nil => trivial
  | cons m ms ih =>
    cases m with
    | changed => exact ⟨hm.1, lt_of_le_of_lt hle hm.2.1, hm.2.2⟩
    | joined => exact absurd hm.1 (by simp)
    | refused => exact ⟨rfl, ih hm.2⟩
    | answer | saved | peer | left | closed => exact ih hm

/-- What comes later has a greater rev, and is in the order. -/
theorem of_mem (hm : Leads order taken rev ms) {changed : Changed} (hmem : .changed changed ∈ ms) :
    rev < changed.rev ∧ changed.stamp ∈ order.map (·.1) := by
  induction ms generalizing taken rev with
  | nil => simp at hmem
  | cons m ms ih =>
    rcases List.mem_cons.mp hmem with rfl | hrest
    · exact ⟨hm.2.1, hm.2.2.2.1⟩
    · cases m with
      | changed =>
        obtain ⟨hlt, hin⟩ := ih hm.2.2.2.2 hrest
        exact ⟨hm.2.1.trans hlt, hin⟩
      | joined =>
        obtain ⟨hlt, hin⟩ := ih hm.2.2.2.2 hrest
        exact ⟨lt_of_le_of_lt hm.2.1 hlt, hin⟩
      | refused => exact ih hm.2 hrest
      | answer | saved | peer | left | closed => exact ih hm hrest

end Leads

/-! ### The batch without an answer -/

/-- The seq that a word answers. A person who may not edit is refused whatever comes. -/
def answerSeq (id : String) (canEdit : Bool) : ToClient → Option Nat
  | .changed changed => if changed.client = id then some changed.seq else none
  | .refused seq _ _ => if canEdit then some seq else none
  | _ => none

/-- The seq of a batch that the document may still take. -/
def liveSeq (canEdit : Bool) (last : Nat) (x : Sent A) : Option Nat :=
  match x.frame with
  | .message (.change seq _ _) => if canEdit = true ∧ last < seq then some seq else none
  | _ => none

theorem liveSeq_mono {canEdit : Bool} {last last' q : Nat} {x : Sent A} (h : last ≤ last')
    (hq : liveSeq canEdit last' x = some q) : liveSeq canEdit last x = some q := by
  unfold liveSeq at hq ⊢
  split
  · rename_i seq _ _ hx
    rw [hx] at hq
    simp only [Option.ite_none_right_eq_some, Option.some.injEq] at hq ⊢
    exact ⟨⟨hq.1.1, by omega⟩, hq.2⟩
  · rename_i hno
    split at hq
    · rename_i hx
      exact absurd hx (hno _ _ _)
    · exact hq

namespace Session

/-- The batches on the link that wait for their answers. -/
def outstanding (id : String) (s : Session M C A) : List Nat :=
  (words s.down).filterMap (answerSeq id s.canEdit) ++
    s.up.filterMap (liveSeq s.canEdit (s.doc.lastSeq id))

/-- Where a change with edits of `sent` is on its way to the client: behind it, or in what the answer to
    the join brings. -/
def Comes (s : Session M C A) (o : Stamp × List Nat) : Prop :=
  (∃ changed, .changed changed ∈ words s.down ∧ changed.stamp = o.1) ∨
  s.taken = false ∧ s.client.waitingSeq = none ∧
    ∀ i name canEdit epoch rev seq peers catchup,
      .joined i name canEdit epoch rev seq peers catchup ∈ words s.down → o.1.rev ≤ rev

/-- A client on its link. -/
structure Linked (id : String) (s : Session M C A) (pipe : Nat) : Prop where
  sits : ∀ seat, s.doc.seats[pipe]? = some seat → seat.viewer.canEdit = s.canEdit ∧
    (seat.client = none ∧ s.taken = false ∧ words s.down = [] ∨
      seat.client = some id ∧ (s.taken || (words s.down).any isJoined) = true)
  asks : ∀ x ∈ s.up, ∀ contract client epoch rev,
    x.frame = .message (.join contract client epoch rev) →
    client = id ∧ (s.taken = false → rev = s.client.rev)
  leads : Leads s.order s.taken s.client.rev (words s.down)
  single : (s.outstanding id).length ≤ 1
  waiting : ∀ q ∈ s.outstanding id, s.client.waitingSeq = some q
  refusals : s.canEdit = true → ∀ q reason detail, .refused q reason detail ∈ words s.down →
    s.doc.lastSeq id < q
  reader : s.canEdit = false → ∀ changed, .changed changed ∈ words s.down → changed.client ≠ id
  last : s.up.Pairwise fun x y => liveSeq s.canEdit (s.doc.lastSeq id) x = none ∨ y.edits = []
  comes : ∀ e ∈ s.client.outbox.sent, ∀ o ∈ s.order, e.id ∈ o.2 → s.Comes o

/-- What holds of a session at any time. -/
structure Valid (id : String) (s : Session M C A) : Prop where
  tells : s.doc.core.tip.Tells (s.order.map (·.1))
  own : ∀ o ∈ s.order, (o.2 ≠ [] → o.1.client = id) ∧ (o.1.client = id → 0 < o.1.seq)
  once : (ids s.order).Nodup
  madeOrder : ∀ n ∈ ids s.order, n < s.made
  madeUp : ∀ x ∈ s.up, ∀ e ∈ x.edits, e.id < s.made
  madeHere : ∀ e ∈ s.client.outbox.unanswered, e.id < s.made
  apart : (s.client.outbox.unanswered.map (·.id)).Nodup
  queued : ∀ e ∈ s.client.outbox.queued, e.id ∉ ids s.order ∧ ∀ x ∈ s.up, e.id ∉ x.edits.map (·.id)
  up : ∀ x ∈ s.up, (x.edits.map (·.id)).Nodup ∧ ∀ e ∈ x.edits, e.id ∉ ids s.order
  unseen : ∀ e ∈ s.client.outbox.sent, ∀ o ∈ s.order, e.id ∈ o.2 → s.client.rev < o.1.rev
  rev : s.client.rev ≤ s.order.length
  link : match s.client.pipe with
    | none => s.up = [] ∧ s.down = []
    | some pipe => Linked id s pipe

theorem mem_ids {order : List (Stamp × List Nat)} {n : Nat} : n ∈ ids order ↔ ∃ o ∈ order, n ∈ o.2 := List.mem_flatMap

variable {s : Session M C A} {o : Stamp × List Nat}

/-- A change with an edit is an own one. -/
theorem Valid.client_eq (hs : s.Valid id) (ho : o ∈ s.order) {n : Nat} (hn : n ∈ o.2) : o.1.client = id :=
  (hs.own o ho).1 (List.ne_nil_of_mem hn)

/-- An own change of the order is not past the last seq that the document knows. -/
theorem Valid.seq_le (hs : s.Valid id) {t : Stamp} (ht : t ∈ s.order.map (·.1)) (hid : t.client = id) :
    0 < t.seq ∧ t.seq ≤ s.doc.lastSeq id := by
  obtain ⟨o, ho, rfl⟩ := List.mem_map.mp ht
  have hpos := (hs.own o ho).2 hid
  refine ⟨hpos, ?_⟩
  show _ ≤ s.doc.core.tip.lastSeq id
  rw [hs.tells.last]
  refine le_greatest (List.mem_map.mpr ⟨o.1, List.mem_filter.mpr ⟨List.mem_filter.mpr ?_, ?_⟩, rfl⟩)
  · exact ⟨ht, by simpa using hpos⟩
  · simpa using hid

/-- Own changes have rising seqs. -/
theorem Valid.seq_lt (hs : s.Valid id) {t t' : Stamp} (ht : t ∈ s.order.map (·.1)) (ht' : t' ∈ s.order.map (·.1))
    (hid : t.client = id) (hid' : t'.client = id) (hrev : t.rev < t'.rev) : t.seq < t'.seq := by
  have hrising := hs.tells.rising
  rw [Rising, accepted, List.pairwise_filter, List.pairwise_iff_getElem] at hrising
  obtain ⟨i, hi, rfl⟩ := List.mem_iff_getElem.mp ht
  obtain ⟨j, hj, rfl⟩ := List.mem_iff_getElem.mp ht'
  have hirev := hs.tells.revs i _ (List.getElem?_eq_getElem hi)
  have hjrev := hs.tells.revs j _ (List.getElem?_eq_getElem hj)
  refine hrising i j hi hj (by omega) ?_ ?_ (hid.trans hid'.symm)
  · simpa using (hs.seq_le ht hid).1
  · simpa using (hs.seq_le ht' hid').1

theorem Valid.rev_le (hs : s.Valid id) (ho : o ∈ s.order) : o.1.rev ≤ s.order.length := by
  obtain ⟨i, hi, rfl⟩ := List.mem_iff_getElem.mp ho
  have := hs.tells.revs i (s.order[i]).1 (by simp [hi])
  omega

/-! ### The client sends -/

theorem sends_nil (s : Session M C A) : s.sends (s.client, []) = s := by
  simp [sends]

end Session

theorem Outbox.next_cases (o : Outbox A) : o.sent = [] ∧ o.next = ⟨o.queued, []⟩ ∨ o.sent ≠ [] ∧ o.next = o := by
  cases h : o.sent with
  | nil => exact .inl ⟨rfl, by simp [Outbox.next, h]⟩
  | cons e sent => exact .inr ⟨by simp, by simp [Outbox.next, h]⟩

theorem Outbox.unanswered_next (o : Outbox A) : o.next.unanswered = o.unanswered := by
  rcases o.next_cases with ⟨hsent, hnext⟩ | ⟨-, hnext⟩
  · simp [hnext, Outbox.unanswered, hsent]
  · rw [hnext]

theorem batchOf_eq_none {edits : List (Edit A)} (h : batchOf toValue edits = none) : edits = [] := by
  match edits with
  | [] => rfl
  | [e] => simp [batchOf] at h
  | e :: e' :: edits => simp [batchOf] at h

/-- A pull sends nothing and changes nothing, or it sends the next batch. -/
theorem Client.pull_cases (toValue : A → Value) (c : Client A) :
    c.pull toValue = (c, []) ∨
    (c.waitingSeq = none ∧ c.pipe ≠ none ∧ c.held = false ∧ ∃ body, c.pull toValue =
      ({ c with
          waitingSeq := some (c.lastSeq + 1)
          lastSeq := c.lastSeq + 1
          outbox := c.outbox.next },
        [⟨.message (.change (c.lastSeq + 1) c.rev body), c.outbox.next.sent⟩])) := by
  unfold pull
  split
  · rename_i p hwaiting hpipe
    cases hheld : c.held with
    | true => simp [batch, hheld]
    | false =>
      have hbatch : c.batch toValue =
          (batchOf toValue c.outbox.next.sent, { c with outbox := c.outbox.next }) := by
        simp [batch, hheld]
      rw [hbatch]
      cases hbody : batchOf toValue c.outbox.next.sent with
      | none =>
        -- nothing waits, so the outbox stays as it is
        have hsent := batchOf_eq_none hbody
        have hsame : c.outbox.next = c.outbox := by
          rcases c.outbox.next_cases with ⟨hs, hnext⟩ | ⟨hs, hnext⟩
          · rw [hnext] at hsent ⊢
            simp only at hsent
            cases hc : c.outbox
            simp_all
          · exact hnext
        refine .inl ?_
        simp [hsame]
      | some body => exact .inr ⟨hwaiting, by simp [hpipe], rfl, body, by simp [hheld]⟩
  · exact .inl rfl

namespace Session

variable {s : Session M C A}

/-- A pull keeps a session, when no batch that the order has would go again. -/
theorem Valid.pull (hs : s.Valid id) (toValue : A → Value)
    (hclear : s.client.pipe ≠ none → s.client.held = false → s.client.waitingSeq = none → s.Unanswered) :
    (s.sends (s.client.pull toValue)).Valid id := by
  rcases s.client.pull_cases toValue with hpull | ⟨hwaiting, hpipe, hheld, body, hpull⟩
  · rw [hpull, sends_nil]
    exact hs
  · obtain ⟨pipe, hpipe'⟩ := Option.ne_none_iff_exists'.mp hpipe
    have hlink : Linked id s pipe := by
      have := hs.link
      rwa [hpipe'] at this
    -- nothing is outstanding, so this is the only batch on the link
    have hnone : s.outstanding id = [] := by
      rw [List.eq_nil_iff_forall_not_mem]
      intro q hq
      have := hlink.waiting q hq
      simp [hwaiting] at this
    have hwords : (words s.down).filterMap (answerSeq id s.canEdit) = [] :=
      (List.append_eq_nil_iff.mp hnone).1
    have hup : s.up.filterMap (liveSeq s.canEdit (s.doc.lastSeq id)) = [] :=
      (List.append_eq_nil_iff.mp hnone).2
    have hsent : ∀ e ∈ s.client.outbox.next.sent, e ∈ s.client.outbox.unanswered ∧
        e.id ∉ ids s.order := by
      intro e he
      rcases s.client.outbox.next_cases with ⟨-, hnext⟩ | ⟨-, hnext⟩
      · rw [hnext] at he
        exact ⟨List.mem_append_right _ he, (hs.queued e he).1⟩
      · rw [hnext] at he
        exact ⟨List.mem_append_left _ he, hclear hpipe hheld hwaiting e he⟩
    have hnever : ∀ e ∈ s.client.outbox.next.sent, ∀ o ∈ s.order, e.id ∉ o.2 :=
      fun e he o ho hmem => (hsent e he).2 (mem_ids.mpr ⟨o, ho, hmem⟩)
    have hparts : (s.client.outbox.sent.map (·.id)).Nodup ∧
        (s.client.outbox.queued.map (·.id)).Nodup ∧
        ∀ a ∈ s.client.outbox.sent.map (·.id), ∀ b ∈ s.client.outbox.queued.map (·.id), a ≠ b := by
      have := hs.apart
      rwa [Outbox.unanswered, List.map_append, List.nodup_append] at this
    rw [hpull]
    refine ⟨hs.tells, hs.own, hs.once, hs.madeOrder, ?_, ?_, ?_, ?_, ?_, ?_, hs.rev, ?_⟩
    · intro x hx e he
      rcases List.mem_append.mp hx with hx | hx
      · exact hs.madeUp x hx e he
      · obtain rfl := List.mem_singleton.mp hx
        exact hs.madeHere e (hsent e he).1
    · intro e he
      exact hs.madeHere e (s.client.outbox.unanswered_next ▸ he)
    · show (s.client.outbox.next.unanswered.map _).Nodup
      rw [Outbox.unanswered_next]
      exact hs.apart
    · intro e he
      rcases s.client.outbox.next_cases with ⟨-, hnext⟩ | ⟨-, hnext⟩
      · simp [sends, hnext] at he
      · have he' : e ∈ s.client.outbox.queued := by simpa [sends, hnext] using he
        refine ⟨(hs.queued e he').1, fun x hx => ?_⟩
        rcases List.mem_append.mp hx with hx | hx
        · exact (hs.queued e he').2 x hx
        · obtain rfl := List.mem_singleton.mp hx
          rw [hnext]
          exact fun hmem => hparts.2.2 _ hmem _ (List.mem_map_of_mem he') rfl
    · intro x hx
      rcases List.mem_append.mp hx with hx | hx
      · exact hs.up x hx
      · obtain rfl := List.mem_singleton.mp hx
        refine ⟨?_, fun e he => (hsent e he).2⟩
        rcases s.client.outbox.next_cases with ⟨-, hnext⟩ | ⟨-, hnext⟩
        · rw [hnext]
          exact hparts.2.1
        · rw [hnext]
          exact hparts.1
    · exact fun e he o ho hmem => absurd hmem (hnever e he o ho)
    · simp only [sends, hpipe']
      refine ⟨hlink.sits, ?_, hlink.leads, ?_, ?_, hlink.refusals, hlink.reader, ?_, ?_⟩
      · intro x hx contract client epoch rev hjoin
        rcases List.mem_append.mp hx with hx | hx
        · exact hlink.asks x hx contract client epoch rev hjoin
        · obtain rfl := List.mem_singleton.mp hx
          simp at hjoin
      · simp only [outstanding, List.filterMap_append, hwords, hup, List.nil_append]
        exact (List.length_filterMap_le _ _).trans (by simp)
      · intro q hq
        simp only [outstanding, List.filterMap_append, hwords, hup, List.nil_append,
          List.filterMap_cons, List.filterMap_nil] at hq
        split at hq
        · simp at hq
        · rename_i q' hlive
          obtain rfl := List.mem_singleton.mp hq
          simp only [liveSeq, Option.ite_none_right_eq_some, Option.some.injEq] at hlive
          exact congrArg some hlive.2
      · refine List.pairwise_append.mpr ⟨hlink.last, List.pairwise_singleton _ _, ?_⟩
        exact fun x hx _ _ => .inl (List.filterMap_eq_nil_iff.mp hup x hx)
      · exact fun e he o ho hmem => absurd hmem (hnever e he o ho)

/-! ### The client hears -/

/-- Once the answer to the join came, a client that waits for nothing has no batch that the order has. -/
theorem Valid.unanswered (hs : s.Valid id) (htaken : s.taken = true) (hpipe : s.client.pipe ≠ none)
    (hwaiting : s.client.waitingSeq = none) : s.Unanswered := by
  intro e he hmem
  obtain ⟨pipe, hpipe'⟩ := Option.ne_none_iff_exists'.mp hpipe
  have hlink : Linked id s pipe := by
    have := hs.link
    rwa [hpipe'] at this
  obtain ⟨o, ho, hn⟩ := mem_ids.mp hmem
  rcases hlink.comes e he o ho hn with ⟨changed, hch, hstamp⟩ | ⟨hno, -⟩
  · have hclient : changed.client = id := by
      have := hs.client_eq ho hn
      rwa [← hstamp] at this
    have := hlink.waiting changed.seq
      (List.mem_append_left _ (List.mem_filterMap.mpr ⟨_, hch, by simp [answerSeq, hclient]⟩))
    simp [hwaiting] at this
  · simp [htaken] at hno

/-- A client that only took what came keeps a session when it keeps its link. -/
theorem Valid.hears (hs : s.Valid id) {c : Client A} {down : List (Frame ToClient)} {taken : Bool}
    (houtbox : c.outbox = s.client.outbox ∨ c.outbox = s.client.outbox.answered) (hpipe : c.pipe = s.client.pipe)
    (hrev : c.rev ≤ s.order.length) (hunseen : ∀ e ∈ c.outbox.sent, ∀ o ∈ s.order, e.id ∈ o.2 → c.rev < o.1.rev)
    (hlink : ∀ pipe, s.client.pipe = some pipe →
      Linked id { s with client := c, down, taken } pipe) (hdown : s.client.pipe = none → down = []) :
    Valid id { s with client := c, down, taken } := by
  have hqueued : c.outbox.queued = s.client.outbox.queued := by
    rcases houtbox with h | h <;> rw [h]
    rfl
  have hsub : c.outbox.unanswered.Sublist s.client.outbox.unanswered := by
    rcases houtbox with h | h <;> rw [h]
    exact List.sublist_append_right _ _
  refine ⟨hs.tells, hs.own, hs.once, hs.madeOrder, hs.madeUp, ?_, ?_, ?_, hs.up, hunseen, hrev, ?_⟩
  · exact fun e he => hs.madeHere e (hsub.subset he)
  · exact hs.apart.sublist (hsub.map _)
  · intro e he
    exact hs.queued e (hqueued ▸ he)
  · have hold := hs.link
    show match c.pipe with
      | none => s.up = [] ∧ down = []
      | some pipe => Linked id { s with client := c, down, taken } pipe
    rw [hpipe]
    cases hp : s.client.pipe with
    | none =>
      rw [hp] at hold
      exact ⟨hold.1, hdown hp⟩
    | some pipe => exact hlink pipe hp

variable {pipe : Nat}

theorem Valid.linked (hs : s.Valid id) (hpipe : s.client.pipe = some pipe) : Linked id s pipe := by
  have := hs.link
  rwa [hpipe] at this

/-- A frame without a word changes nothing. -/
theorem Valid.skip {s : Session M C A} (hs : s.Valid id) {f : Frame ToClient}
    {rest : List (Frame ToClient)} (hdown : s.down = f :: rest) (hf : f.word = none) :
    Valid id { s with down := rest } := by
  have hwords : words s.down = words rest := by rw [hdown, words, List.filterMap_cons_none hf, words]
  refine hs.hears (.inl rfl) rfl hs.rev hs.unseen (fun pipe hp => ?_) fun hp => ?_
  · have hl := hs.linked hp
    obtain ⟨hsits, hasks, hleads, hsingle, hwaiting, hrefusals, hreader, hlast, hcomes⟩ := hl
    simp only [outstanding, Comes, hwords] at hsits hleads hsingle hwaiting hrefusals hreader hcomes
    exact ⟨hsits, hasks, hleads, hsingle, hwaiting, hrefusals, hreader, hlast, hcomes⟩
  · have := hs.link
    rw [hp] at this
    simp [hdown] at this

variable {rest : List (Frame ToClient)}

/-- A client to whom something comes has a pipe. -/
theorem Valid.piped (hs : s.Valid id) {f : Frame ToClient} (hdown : s.down = f :: rest) : s.client.pipe ≠ none := by
  intro hp
  have := hs.link
  rw [hp] at this
  simp [hdown] at this

/-- A client that took the next word, and whose batch comes behind it if the order has it. -/
theorem Linked.next (hl : Linked id s pipe) {m : ToClient} (hwords : words s.down = m :: words rest) {c : Client A}
    (hleads : Leads s.order true c.rev (words rest)) (hsingle : (outstanding id { s with down := rest }).length ≤ 1)
    (hwaiting : ∀ q ∈ outstanding id { s with down := rest }, c.waitingSeq = some q)
    (hbehind : ∀ e ∈ c.outbox.sent, ∀ o ∈ s.order, e.id ∈ o.2 → ∃ own, .changed own ∈ words rest ∧ own.stamp = o.1) :
    Linked id { s with client := c, down := rest, taken := true } pipe := by
  have hsub : (words rest).Sublist (words s.down) := by
    rw [hwords]
    exact List.sublist_cons_self _ _
  refine ⟨?_, ?_, hleads, hsingle, hwaiting, ?_, ?_, hl.last, fun e he o ho hn => .inl (hbehind e he o ho hn)⟩
  · intro seat hseat
    obtain ⟨hedit, ⟨-, -, hno⟩ | ⟨hclient, -⟩⟩ := hl.sits seat hseat
    · simp [hwords] at hno
    · exact ⟨hedit, .inr ⟨hclient, by simp⟩⟩
  · intro x hx contract client epoch rev hjoin
    exact ⟨(hl.asks x hx contract client epoch rev hjoin).1, fun hno => by simp at hno⟩
  · exact fun hcan q reason detail hmem => hl.refusals hcan q reason detail (hsub.subset hmem)
  · exact fun hcan changed hmem => hl.reader hcan changed (hsub.subset hmem)

/-- What comes of a batch after a word that is not its change comes behind that word. -/
theorem Linked.behind (hl : Linked id s pipe) {m : ToClient} (hwords : words s.down = m :: words rest)
    (htaken : s.taken = true) {e : Edit A} (he : e ∈ s.client.outbox.sent) {o : Stamp × List Nat} (ho : o ∈ s.order)
    (hn : e.id ∈ o.2) (hm : ∀ own, m = .changed own → own.stamp ≠ o.1) :
    ∃ own, .changed own ∈ words rest ∧ own.stamp = o.1 := by
  rcases hl.comes e he o ho hn with ⟨own, hmem, hstamp⟩ | ⟨hno, -⟩
  · rw [hwords] at hmem
    rcases List.mem_cons.mp hmem with heq | hmem
    · exact absurd hstamp (hm own heq.symm)
    · exact ⟨own, hmem, hstamp⟩
  · simp [htaken] at hno

/-- A change of the order moves the client on. -/
theorem Valid.applied (hs : s.Valid id) {changed : Changed} (hdown : s.down = .message (.changed changed) :: rest) :
    Valid id { s with client := s.client.applied id changed, down := rest } ∧ s.taken = true := by
  have hpipe := hs.piped hdown
  obtain ⟨pipe, hp⟩ := Option.ne_none_iff_exists'.mp hpipe
  have hl := hs.linked hp
  have hwords : words s.down = .changed changed :: words rest := by
    rw [hdown]
    exact words_cons rfl rest
  have hleads := hl.leads
  rw [hwords] at hleads
  obtain ⟨htaken, hlt, hle, -, hrest⟩ := hleads
  refine ⟨?_, htaken⟩
  have hrev : (s.client.applied id changed).rev = changed.rev := by
    unfold Client.applied
    split <;> rfl
  have hpipe' : (s.client.applied id changed).pipe = s.client.pipe := by
    unfold Client.applied
    split <;> rfl
  -- a change of someone else leaves the batch, and its own change is behind it
  have hbehind : ∀ e ∈ (s.client.applied id changed).outbox.sent, ∀ o ∈ s.order, e.id ∈ o.2 →
      ∃ own, .changed own ∈ words rest ∧ own.stamp = o.1 := by
    intro e he o ho hn
    by_cases hown : changed.client = id
    · simp [Client.applied, hown, Outbox.answered] at he
    · simp only [Client.applied, hown, if_false] at he
      refine hl.behind hwords htaken he ho hn fun own heq hstamp => hown ?_
      obtain rfl := ToClient.changed.inj heq
      have := hs.client_eq ho hn
      rwa [← hstamp] at this
  have hsub : (outstanding id { s with down := rest }).Sublist (s.outstanding id) := by
    rw [outstanding, outstanding, hwords]
    exact ((List.sublist_cons_self _ _).filterMap _).append (List.Sublist.refl _)
  refine hs.hears ?_ hpipe' (hrev ▸ hle) ?_ ?_ fun h => absurd h hpipe
  · unfold Client.applied
    split
    · exact .inr rfl
    · exact .inl rfl
  · intro e he o ho hn
    obtain ⟨own, hmem, hstamp⟩ := hbehind e he o ho hn
    rw [hrev, ← hstamp]
    exact (hrest.of_mem hmem).1
  · intro q hq
    obtain rfl : pipe = q := Option.some.inj (hp.symm.trans hq)
    rw [htaken]
    refine hl.next hwords (hrev ▸ hrest) (hsub.length_le.trans hl.single) (fun seq hseq => ?_) hbehind
    by_cases hown : changed.client = id
    · -- it was the only answer
      have hfewer : (s.outstanding id).length = (outstanding id { s with down := rest }).length + 1 := by
        simp [outstanding, hwords, answerSeq, hown]
      have := hl.single
      have := List.length_pos_of_mem hseq
      omega
    · simp only [Client.applied, hown, if_false]
      exact hl.waiting seq (hsub.subset hseq)

/-- A refusal ends the wait for it, and the order has nothing of the batch. -/
theorem Valid.refused {s : Session M C A} (hs : s.Valid id) {seq : Nat} {reason : RefusedReason}
    {detail : Option String} {rest : List (Frame ToClient)}
    (hdown : s.down = .message (.refused seq reason detail) :: rest) :
    Valid id { s with client := { s.client with waitingSeq := none }, down := rest } ∧
      s.taken = true := by
  have hpipe := hs.piped hdown
  obtain ⟨pipe, hp⟩ := Option.ne_none_iff_exists'.mp hpipe
  have hl := hs.linked hp
  have hwords : words s.down = .refused seq reason detail :: words rest := by
    rw [hdown]
    exact words_cons rfl rest
  have hleads := hl.leads
  rw [hwords] at hleads
  obtain ⟨htaken, hrest⟩ := hleads
  refine ⟨?_, htaken⟩
  -- who may edit has one answer on the way, and who may not has none that counts
  have hnone : outstanding id { s with down := rest } = [] := by
    unfold outstanding
    cases hcan : s.canEdit with
    | true =>
      have hsingle := hl.single
      simp only [outstanding, hwords, List.filterMap_cons, answerSeq, hcan, if_true,
        List.cons_append, List.length_cons] at hsingle
      exact List.eq_nil_of_length_eq_zero (Nat.le_zero.mp (Nat.le_of_succ_le_succ hsingle))
    | false =>
      rw [List.append_eq_nil_iff, List.filterMap_eq_nil_iff, List.filterMap_eq_nil_iff]
      refine ⟨fun m hm => ?_, fun x hx => ?_⟩
      · cases m with
        | changed changed =>
          simp [answerSeq, hl.reader hcan changed (hwords ▸ List.mem_cons_of_mem _ hm)]
        | _ => simp [answerSeq]
      · unfold liveSeq
        split <;> simp
  refine hs.hears (.inl rfl) rfl hs.rev hs.unseen (fun q hq => ?_) fun h => absurd h hpipe
  obtain rfl : pipe = q := Option.some.inj (hp.symm.trans hq)
  rw [htaken]
  exact hl.next hwords (htaken ▸ hrest) (by simp [hnone]) (by simp [hnone])
    fun e he o ho hn => hl.behind hwords htaken he ho hn nofun

/-- A client that loads again forgets its rev, and its second join goes on the link. -/
theorem Valid.reload (hs : s.Valid id) (htaken : s.taken = true) (hpipe : s.client.pipe ≠ none) :
    (s.sends (s.client.reload id)).Valid id := by
  obtain ⟨pipe, hp⟩ := Option.ne_none_iff_exists'.mp hpipe
  have hl := hs.linked hp
  have hlive : liveSeq s.canEdit (s.doc.lastSeq id) (Client.joinFrame id 0 0 : Sent A) = none := rfl
  have hout : outstanding id (s.sends (s.client.reload id)) = s.outstanding id := by
    simp [outstanding, sends, Client.reload, hlive]
  refine ⟨hs.tells, hs.own, hs.once, hs.madeOrder, ?_, hs.madeHere, hs.apart, ?_, ?_, ?_, ?_, ?_⟩
  · intro x hx e he
    rcases List.mem_append.mp hx with hx | hx
    · exact hs.madeUp x hx e he
    · obtain rfl := List.mem_singleton.mp hx
      simp [Client.joinFrame] at he
  · intro e he
    refine ⟨(hs.queued e he).1, fun x hx => ?_⟩
    rcases List.mem_append.mp hx with hx | hx
    · exact (hs.queued e he).2 x hx
    · obtain rfl := List.mem_singleton.mp hx
      simp [Client.joinFrame]
  · intro x hx
    rcases List.mem_append.mp hx with hx | hx
    · exact hs.up x hx
    · obtain rfl := List.mem_singleton.mp hx
      simp [Client.joinFrame]
  · intro e he o ho hn
    exact lt_of_le_of_lt (Nat.zero_le _) (hs.unseen e he o ho hn)
  · exact Nat.zero_le _
  · show match s.client.pipe with
      | none => s.up ++ [Client.joinFrame id 0 0] = [] ∧ s.down = []
      | some pipe => Linked id (s.sends (s.client.reload id)) pipe
    rw [hp]
    refine ⟨hl.sits, ?_, ?_, ?_, ?_, hl.refusals, hl.reader, ?_, ?_⟩
    · intro x hx contract client epoch rev hjoin
      rcases List.mem_append.mp hx with hx | hx
      · exact ⟨(hl.asks x hx contract client epoch rev hjoin).1,
          fun hno => absurd (htaken.symm.trans hno) (by simp)⟩
      · obtain rfl := List.mem_singleton.mp hx
        simp only [Client.joinFrame, Frame.message.injEq, ToDocument.join.injEq] at hjoin
        exact ⟨hjoin.2.1.symm, fun hno => absurd (htaken.symm.trans hno) (by simp)⟩
    · have hleads := hl.leads
      rw [htaken] at hleads
      show Leads s.order s.taken 0 (words s.down)
      rw [htaken]
      exact hleads.less (Nat.zero_le _)
    · rw [hout]
      exact hl.single
    · rw [hout]
      exact hl.waiting
    · refine List.pairwise_append.mpr ⟨hl.last, List.pairwise_singleton _ _, fun x _ y hy => ?_⟩
      obtain rfl := List.mem_singleton.mp hy
      exact .inr rfl
    · exact hl.comes

end Session

end Kodosi.Documents
