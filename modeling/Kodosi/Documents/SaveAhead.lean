import Kodosi.Documents.Task
import Kodosi.Lib.Checks

/-! Unsaved work has a save ahead: between two events of a task, a document that is not saved has a time at
    which it is saved, as long as no deadline finds it waiting and still not writable. -/

namespace Kodosi.Documents
open Kodosi.Lib

variable {M C Q : Type} {F : Format M C Q} {W : Wire} {E : Machine}

/-! ### What a document tells of its new revs -/

/-- A step that saves nothing: where it puts a change in the order, it says that work is unsaved. -/
structure Document.Tells (d : Document M C) (out : Document M C × List Effect) : Prop where
  savedRev : out.1.savedRev = d.savedRev
  waits : out.1.waits = d.waits
  unsaved : out.1.rev = d.rev ∨ .unsaved ∈ out.2
  writes : ∀ rev file, .write rev file ∉ out.2

namespace Document

variable {d : Document M C}

theorem Tells.same {d' : Document M C} {es : List Effect} (hsaved : d'.savedRev = d.savedRev)
    (hwaits : d'.waits = d.waits) (hrev : d'.rev = d.rev) (hes : ∀ rev file, .write rev file ∉ es) :
    d.Tells (d', es) := ⟨hsaved, hwaits, .inl hrev, hes⟩

theorem Tells.trans {d₁ : Document M C} {es : List Effect} {out : Document M C × List Effect}
    (h : d.Tells (d₁, es)) (h' : d₁.Tells out) : d.Tells (out.1, es ++ out.2) where
  savedRev := h'.savedRev.trans h.savedRev
  waits := h'.waits.trans h.waits
  unsaved := by
    rcases h.unsaved with hrev | hmem
    · exact h'.unsaved.imp (·.trans hrev) (List.mem_append_right _)
    · exact .inr (List.mem_append_left _ hmem)
  writes rev file hmem := (List.mem_append.mp hmem).elim (h.writes rev file) (h'.writes rev file)

theorem tells_ordered (change : C) (author client : String) (seq : Nat) :
    d.Tells (d.ordered F W change author client seq) where
  savedRev := rfl
  waits := rfl
  unsaved := .inr (by simp [ordered])
  writes rev file := by
    simp only [ordered, sendTo]
    split <;> simp

theorem tells_leftPipe (pipe : Nat) : d.Tells (d.leftPipe pipe) := by
  unfold leftPipe
  split
  · exact .same rfl rfl rfl (by simp)
  · dsimp only
    split
    · exact .same rfl rfl rfl (by simp)
    · exact .same rfl rfl rfl (by simp [sendTo])

theorem tells_join (pipe contract : Nat) (client : String) (epoch rev : Nat) :
    d.Tells (d.join F pipe contract client epoch rev) := by
  unfold join
  split
  · exact .same rfl rfl rfl (by simp [sendTo])
  · dsimp only
    split
    · exact .same rfl rfl rfl (by simp)
    · exact .same rfl rfl rfl (by simp [sendTo])

theorem tells_change (pipe seq base : Nat) (body : Value) : d.Tells (d.change F W pipe seq base body) := by
  have hnone : d.Tells (d, []) := .same rfl rfl rfl (by simp)
  have hrefuse : ∀ model assets reason detail,
      d.Tells ({ d with model, assets }, [refuse pipe seq reason detail]) :=
    fun _ _ _ _ => .same rfl rfl rfl (by simp [refuse, sendTo])
  unfold change
  split
  · exact hnone
  split
  · exact hnone
  dsimp only
  split
  · exact hrefuse d.model d.assets _ _
  split
  · exact hnone
  split
  · exact hrefuse d.model d.assets _ _
  split
  · exact hrefuse d.model d.assets _ _
  split
  · exact hrefuse d.model d.assets _ _
  split
  · obtain ⟨hsaved, hwaits, hunsaved, hwrites⟩ := tells_ordered (F := F) (W := W)
      (d := { d with model := _, assets := _, seqs := d.seqs.insert _ seq }) _ _ _ seq
    exact ⟨hsaved, hwaits, hunsaved, hwrites⟩
  · exact hrefuse _ _ _ _
  · exact hrefuse _ _ _ _

theorem tells_place (pipe rev : Nat) (body : Value) : d.Tells (d.place F pipe rev body) := by
  have hnone : d.Tells (d, []) := .same rfl rfl rfl (by simp)
  unfold place
  split
  · exact hnone
  dsimp only
  split
  · exact hnone
  split
  · exact .same rfl rfl rfl (by simp)
  · exact .same rfl rfl rfl (by simp [sendTo])

theorem tells_assetFrame (pipe : Nat) (hash : Hash) (bytes : Bytes) : d.Tells (d.assetFrame F pipe hash bytes) := by
  unfold assetFrame
  split
  · split
    · exact .same rfl rfl rfl (by simp)
    · exact .same rfl rfl rfl (by simp)
  split
  · exact .same rfl rfl rfl (by simp)
  split
  · exact .same rfl rfl rfl (by simp)
  · exact .same rfl rfl rfl (by simp)

theorem tells_message (pipe : Nat) (frame : Bytes) : d.Tells (d.message F W pipe frame) := by
  have hdrop : d.Tells (d, [.drop pipe]) := .same rfl rfl rfl (by simp)
  unfold message
  split
  · exact hdrop
  · exact tells_assetFrame _ _ _
  · split
    · exact tells_join _ _ _ _ _
    · exact tells_change _ _ _ _
    · exact tells_place _ _ _
    · refine .same rfl rfl rfl ?_
      unfold query
      split <;> simp [sendTo]
    · exact .same rfl rfl rfl (by simp [people, sendTo])
    · exact hdrop

theorem tells_orderAll (writer : String) : ∀ (changes : List C) (d : Document M C),
    d.Tells (orderAll F W writer changes d)
  | [], _ => .same rfl rfl rfl (by simp)
  | c :: changes, d => by
    unfold orderAll
    split
    · rename_i c' model assets _
      have hone : d.Tells
          (({ d with model, assets }).ordered F W c' writer s!"file:{writer}" 0) := by
        obtain ⟨hsaved, hwaits, hunsaved, hwrites⟩ := tells_ordered (F := F) (W := W)
          (d := { d with model, assets }) c' writer s!"file:{writer}" 0
        exact ⟨hsaved, hwaits, hunsaved, hwrites⟩
      exact hone.trans (tells_orderAll writer changes _)
    · rename_i model assets _
      obtain ⟨hsaved, hwaits, hunsaved, hwrites⟩ :=
        tells_orderAll writer changes { d with model, assets }
      exact ⟨hsaved, hwaits, hunsaved, hwrites⟩

theorem tells_fileChanged (file : Bytes) (writer : String) : d.Tells (d.fileChanged F W file writer) := by
  unfold fileChanged
  split
  · exact .same rfl rfl rfl (by simp)
  dsimp only
  split
  · exact .same rfl rfl rfl (by simp)
  · rename_i assets _ _ changes _
    obtain ⟨hsaved, hwaits, hunsaved, hwrites⟩ :=
      tells_orderAll (F := F) (W := W) writer changes { d with assets }
    exact ⟨hsaved, hwaits, hunsaved.imp_right (List.mem_cons_of_mem _), by simpa using hwrites⟩

end Document

namespace Task

variable {t t' : Task M C}

/-! ### Work that changes no timer -/

/-- The timers, and what they are about, are as they were. -/
structure Same (t t' : Task M C) : Prop where
  rev : t'.document.rev = t.document.rev
  savedRev : t'.document.savedRev = t.document.savedRev
  waits : t'.document.waits = t.document.waits
  first : t'.firstUnsaved = t.firstUnsaved
  last : t'.lastUnsaved = t.lastUnsaved
  retry : t'.retryAt = t.retryAt

theorem Same.refl : Same t t := ⟨rfl, rfl, rfl, rfl, rfl, rfl⟩

theorem Same.trans {t'' : Task M C} (h : Same t t') (h' : Same t' t'') : Same t t'' :=
  ⟨h'.rev.trans h.rev, h'.savedRev.trans h.savedRev, h'.waits.trans h.waits,
    h'.first.trans h.first, h'.last.trans h.last, h'.retry.trans h.retry⟩

theorem same_foldl {α : Type} {f : Task M C → α → Task M C} (hf : ∀ t a, Same t (f t a)) :
    ∀ (as : List α) (t : Task M C), Same t (as.foldl f t)
  | [], _ => .refl
  | a :: as, t => (hf t a).trans (same_foldl hf as (f t a))

theorem same_left (pipe : Nat) : (d : Document M C) → (d.leftPipe pipe).1.rev = d.rev := by
  intro d
  unfold Document.leftPipe
  split
  · rfl
  · dsimp only
    split <;> rfl

theorem same_leave (pipe : Nat) (t : Task M C) : Same t (t.leave F W pipe) := by
  have h := Document.tells_leftPipe (d := t.document) pipe
  exact ⟨same_left pipe _, h.savedRev, h.waits, rfl, rfl, rfl⟩

theorem same_send (t : Task M C) : Same t (t.send F W E) :=
  (show Same t t.ask from ⟨rfl, rfl, rfl, rfl, rfl, rfl⟩).trans
    (same_foldl (fun t pipe => same_leave pipe t) _ _)

theorem same_sendAll (t : Task M C) (effects : List Effect) : Same t (t.sendAll F W E effects) := by
  refine same_foldl (fun t e => ?_) effects t
  cases e with
  | send => exact same_send t
  | _ => exact .refl

/-! ### A save is ahead -/

/-- Unsaved work has a time at which it is saved, and a document that waits is tried again. -/
structure Timed (t : Task M C) : Prop where
  ahead : t.document.rev ≠ t.document.savedRev →
    t.firstUnsaved.isSome ∧ t.lastUnsaved.isSome ∨ t.retryAt.isSome
  waiting : t.document.waits = true → t.retryAt.isSome

theorem Timed.same (ht : t.Timed) (h : Same t t') : t'.Timed where
  ahead := by
    rw [h.rev, h.savedRev, h.first, h.last, h.retry]
    exact ht.ahead
  waiting := by
    rw [h.waits, h.retry]
    exact ht.waiting

theorem Timed.retried (h : t.retryAt.isSome) : t.Timed := ⟨fun _ => .inr h, fun _ => h⟩

theorem timed_write (file : Bytes) : (t.write F W E t.document.rev file).Timed := by
  unfold write
  split
  · refine Timed.same ?_ (same_sendAll _ _)
    exact ⟨fun h => absurd rfl h, fun h => Bool.noConfusion h⟩
  · exact (Timed.retried rfl).same (same_sendAll _ _)

/-- A save leaves a save ahead, or the document saved. Where it clears what was ahead, the document did
    not wait, or the format can write it. -/
theorem timed_save (hwaiting : t.document.waits = true → t.retryAt.isSome ∨
    t.document.rev ≠ t.document.savedRev ∧
      ∃ file, F.write t.document.model t.disk t.document.assets = .ok file) :
    (t.save F W E).Timed := by
  by_cases hrev : t.document.rev = t.document.savedRev
  · have hstep : t.document.step F W (.save t.disk) = (t.document, []) := by
      rw [Document.step, Document.save, if_pos hrev]
    simp only [save, hstep, List.foldl_nil]
    exact ⟨fun h => absurd hrev h, fun h => (hwaiting h).resolve_right fun hw => hw.1 hrev⟩
  · cases hwrite : F.write t.document.model t.disk t.document.assets with
    | ok file =>
      have hstep : t.document.step F W (.save t.disk) = (t.document, [.write t.document.rev file]) := by
        simp only [Document.step, Document.save, if_neg hrev, hwrite]
      simp only [save, hstep, List.foldl_cons, List.foldl_nil]
      exact timed_write (t := { t with firstUnsaved := none, lastUnsaved := none }) file
    | error e =>
      by_cases hwaits : t.document.waits = true
      · have hstep : t.document.step F W (.save t.disk) = (t.document, []) := by
          simp only [Document.step, Document.save, if_neg hrev, hwrite, Document.saveWaits, hwaits, if_true]
        simp only [save, hstep, List.foldl_nil]
        refine Timed.retried ((hwaiting hwaits).resolve_right ?_)
        rintro ⟨_, file, hfile⟩
        rw [hwrite] at hfile
        simp at hfile
      · have hstep : t.document.step F W (.save t.disk) = ({ t.document with waits := true },
            [sendTo t.document.joinedPipes (.saved t.document.savedRev true)]) := by
          simp only [Document.step, Document.save, if_neg hrev, hwrite, Document.saveWaits, hwaits,
            if_false, Bool.false_eq_true]
        simp only [save, hstep, List.foldl_cons, List.foldl_nil, sendTo]
        exact (Timed.retried rfl).same (same_send _)

theorem Timed.save (ht : t.Timed) : (t.save F W E).Timed :=
  timed_save fun hwaits => .inl (ht.waiting hwaits)

theorem Timed.startNewJournal (ht : t.Timed) : (t.startNewJournal F W E).Timed := by
  unfold Task.startNewJournal
  split
  · exact ⟨ht.ahead, ht.waiting⟩
  split
  · refine Timed.same ?_ (same_sendAll _ _)
    exact ⟨fun h => absurd rfl h, ht.waiting⟩
  · exact ⟨ht.ahead, ht.waiting⟩

theorem Timed.sealJournal (ht : t.Timed) : (t.sealJournal F W E).Timed := by
  unfold Task.sealJournal
  split
  · have hsave : (({ t with sealing := false } : Task M C).save F W E).Timed :=
      Timed.save ⟨ht.ahead, ht.waiting⟩
    dsimp only
    split
    · exact hsave.startNewJournal
    · exact hsave
  · exact ht

/-! ### Effects -/

/-- Effects that wait to be run: they say so if there is new unsaved work. -/
structure Pending (t : Task M C) (effects : List Effect) : Prop where
  ahead : t.document.rev ≠ t.document.savedRev →
    (t.firstUnsaved.isSome ∧ t.lastUnsaved.isSome ∨ t.retryAt.isSome) ∨ .unsaved ∈ effects
  waiting : t.document.waits = true → t.retryAt.isSome
  writes : ∀ rev file, .write rev file ∉ effects

theorem Timed.pending (ht : t.Timed) : t.Pending [] :=
  ⟨fun h => .inl (ht.ahead h), ht.waiting, by simp⟩

variable {effects : List Effect}

/-- One more step of the document, whose effects wait with the others. -/
theorem Pending.step (hp : t.Pending effects) {out : Document M C × List Effect} (hout : t.document.Tells out)
    (closeAt : Option Nat) :
    Pending { t with document := out.1, closeAt } (effects ++ out.2) where
  ahead h := by
    rcases hout.unsaved with hrev | hmem
    · have : t.document.rev ≠ t.document.savedRev := by
        rwa [← hrev, ← hout.savedRev]
      exact (hp.ahead this).imp_right (List.mem_append_left _)
    · exact .inr (List.mem_append_right _ hmem)
  waiting h := hp.waiting (hout.waits ▸ h)
  writes rev file hmem := (List.mem_append.mp hmem).elim (hp.writes rev file) (hout.writes rev file)

theorem document_note (e : Effect) : (t.note E e).document = t.document := by
  cases e <;> rfl

theorem retry_note (e : Effect) : (t.note E e).retryAt = t.retryAt := by
  cases e <;> rfl

/-- What is noted of an effect is no longer said by it. -/
theorem Pending.note {e : Effect} (hp : t.Pending (e :: effects)) : (t.note E e).Pending effects where
  ahead h := by
    rw [document_note] at h
    cases e with
    | unsaved =>
      refine .inl (.inl ⟨?_, rfl⟩)
      cases hfirst : t.firstUnsaved <;> simp [Task.note, hfirst]
    | _ => exact (hp.ahead h).imp_right fun hmem => by simpa using hmem
  waiting h := by
    rw [document_note] at h
    rw [retry_note]
    exact hp.waiting h
  writes rev file hmem := hp.writes rev file (List.mem_cons_of_mem _ hmem)

theorem Pending.notes : ∀ {effects : List Effect} {t : Task M C}, t.Pending effects →
    (effects.foldl (Task.note E) t).Timed
  | [], _, hp => ⟨fun h => (hp.ahead h).resolve_right (by simp), hp.waiting⟩
  | e :: effects, t, hp => by
    rw [List.foldl_cons]
    exact Pending.notes hp.note

theorem Timed.carryOut (ht : t.Timed) {e : Effect} (he : ∀ rev file, e ≠ .write rev file) :
    (t.carryOut F W E e).Timed := by
  cases e with
  | send => exact ht.same (same_send _)
  | drop pipe =>
    exact ht.same ((same_leave (F := F) (W := W) pipe t).trans (same_sendAll (F := F) (W := W) _ _))
  | write rev file => exact absurd rfl (he rev file)
  | _ => exact ht

theorem Timed.carryOuts : ∀ {effects : List Effect} {t : Task M C}, t.Timed →
    (∀ rev file, .write rev file ∉ effects) → (effects.foldl (Task.carryOut F W E) t).Timed
  | [], _, ht, _ => ht
  | e :: effects, t, ht, hwrites => by
    rw [List.foldl_cons]
    refine Timed.carryOuts (ht.carryOut fun rev file he => ?_) fun rev file hmem => ?_
    · exact hwrites rev file (he ▸ List.mem_cons_self)
    · exact hwrites rev file (List.mem_cons_of_mem _ hmem)

theorem Pending.runEffects (hp : t.Pending effects) : (t.runEffects F W E effects).Timed :=
  (hp.notes.carryOuts hp.writes).sealJournal

theorem same_closing (reason : ClosedReason) (t : Task M C) :
    Same t (sendAll F W E { t with document := (t.document.step F W (.closing reason)).1 }
      (t.document.step F W (.closing reason)).2) :=
  (show Same t { t with document := (t.document.step F W (.closing reason)).1 } from
    ⟨rfl, rfl, rfl, rfl, rfl, rfl⟩).trans (same_sendAll _ _)

theorem Timed.finish (ht : t.Timed) (reason : ClosedReason) : (t.finish F W E reason).Timed := by
  have := (ht.save (F := F) (W := W) (E := E)).same (same_closing (F := F) (W := W) (E := E) reason _)
  exact ⟨this.ahead, this.waiting⟩

/-! ### Events -/

theorem Pending.take : ∀ {batch : List Command} {t : Task M C} {effects : List Effect},
    t.Pending effects → (Task.take F W E batch t effects).Timed
  | [], t, effects, hp => by
    have ht := hp.runEffects (F := F) (W := W) (E := E)
    unfold Task.take
    dsimp only
    split
    · exact ⟨ht.ahead, ht.waiting⟩
    · exact ht
  | .connect pipe viewer :: _, t, _, hp => by
    unfold Task.take
    have hconnected : t.document.Tells (t.document.step F W (.connected pipe viewer)) :=
      .same rfl rfl rfl (by simp)
    exact Pending.take (hp.step hconnected none)
  | .message pipe frame :: _, t, _, hp => by
    unfold Task.take
    exact Pending.take (hp.step (Document.tells_message pipe frame) t.closeAt)
  | .left pipe :: _, t, _, hp => by
    unfold Task.take
    exact Pending.take (hp.step (Document.tells_leftPipe pipe) t.closeAt)
  | .flush :: _, _, _, hp => by
    unfold Task.take
    exact Pending.take hp.runEffects.save.pending
  | .close :: _, _, _, hp => by
    unfold Task.take
    exact hp.runEffects.finish _

theorem Timed.lookAtFile (ht : t.Timed) : (t.lookAtFile F W E).Timed := by
  unfold Task.lookAtFile
  split
  · have hask : t.ask.Timed := ⟨ht.ahead, ht.waiting⟩
    have := hask.same (same_closing (F := F) (W := W) (E := E) .removed t.ask)
    exact ⟨this.ahead, this.waiting⟩
  · exact ⟨ht.ahead, ht.waiting⟩
  split
  · exact ⟨ht.ahead, ht.waiting⟩
  split
  · exact ⟨ht.ahead, ht.waiting⟩
  split
  · exact ⟨ht.ahead, ht.waiting⟩
  · rename_i file _ _
    have hp := ht.pending.step (Document.tells_fileChanged (F := F) (W := W) file OUTSIDE) t.closeAt
    exact Pending.runEffects ⟨hp.ahead, hp.waiting, hp.writes⟩

variable (F W E) in
/-- No deadline that closes nothing finds the document waiting, unless there is something to save and the
    format can write it. -/
def Spared (t : Task M C) (e : Event) : Prop :=
  e = .deadline → t.closes E = false → t.document.waits = true →
    t.document.rev ≠ t.document.savedRev ∧
      ∃ file, F.write t.document.model t.disk t.document.assets = .ok file

theorem Timed.step (ht : t.Timed) {e : Event} (he : Spared F E t e) : (t.step F W E e).Timed := by
  cases e with
  | commands batch => exact ht.pending.take
  | watch => exact ht.lookAtFile
  | hangup => exact ht.finish _
  | deadline =>
    show (t.deadlineReached F W E).Timed
    unfold deadlineReached
    cases hcloses : t.closes E with
    | true => exact Timed.finish (t := t.ask) ⟨ht.ahead, ht.waiting⟩ _
    | false =>
      rw [if_neg (by simp)]
      exact timed_save fun hwaits => .inr (he rfl hcloses hwaits)

variable {epoch : Nat} {d : Document M C}

theorem waits_openFile {file : Bytes} {assets : Assets} (h : Document.openFile F file epoch assets = .ok d) :
    d.waits = false := by
  obtain ⟨⟨model, assets⟩, -, h⟩ := bind_ok h
  obtain rfl := Except.ok.inj h
  rfl

theorem waits_replayRecord {d' : Document M C} {record : Bytes} (h : d.replayRecord F W record = .ok d') :
    d'.waits = d.waits := by
  unfold Document.replayRecord Document.replay at h
  split at h
  · simp at h
  split at h
  · simp at h
  split at h
  · simp at h
  · obtain rfl := Except.ok.inj h
    rfl

theorem waits_restore {file : Bytes} {restored : Restored} {records : List Bytes} {assets : Assets}
    (h : Document.restore F W file restored records assets = .ok d) :
    d.waits = false := by
  obtain ⟨opened, hopen, h⟩ := bind_ok h
  refine foldlM_ok (I := fun (_ : List Bytes) (d : Document M C) => d.waits = false)
    (d := []) (fun hd hr => (waits_replayRecord hr).trans hd) ?_ h
  exact (show opened.waits = false from waits_openFile hopen)

variable {found : Option Found}

theorem waits_openOrRestore {disk : Bytes} {journalBytes : Nat} {outside : Bool}
    (h : openOrRestore F W found disk epoch = .ok (d, journalBytes, outside)) : d.waits = false := by
  unfold openOrRestore at h
  split at h
  · rename_i restored f hfound
    obtain ⟨rfl, -⟩ := Prod.mk.inj (Except.ok.inj h)
    obtain ⟨g, -, hg⟩ := Option.bind_eq_some_iff.mp hfound
    obtain ⟨d, hd, heq⟩ := Option.map_eq_some_iff.mp hg
    obtain ⟨rfl, -⟩ := Prod.mk.inj heq
    cases hrestore : Document.restore F W g.original g.restored g.records g.assets with
    | error e =>
      rw [hrestore] at hd
      simp [Except.toOption] at hd
    | ok restored =>
      rw [hrestore] at hd
      obtain rfl := Option.some.inj hd
      exact waits_restore hrestore
  · cases hopen : Document.openFile F disk epoch ⟨[]⟩ with
    | error e =>
      rw [hopen] at h
      simp [Except.map] at h
    | ok opened =>
      rw [hopen] at h
      obtain ⟨rfl, -⟩ := Prod.mk.inj (Except.ok.inj h)
      exact waits_openFile hopen

theorem timed_start {disk : Bytes} {stamp : FileStamp} {now : Nat} {outside : Bool}
    (h : Task.start F W found disk stamp epoch now = .ok (t, outside)) :
    t.Timed := by
  obtain ⟨⟨d, journalBytes, o⟩, hopen, h⟩ := bind_ok h
  obtain ⟨rfl, -⟩ := Prod.mk.inj (Except.ok.inj h)
  refine ⟨fun hrev => .inl ?_, fun hwaits => ?_⟩
  · simp only [if_pos hrev]
    exact ⟨rfl, rfl⟩
  · exact absurd hwaits (by simp [waits_openOrRestore hopen])

/-- In every state of a task between two events, unsaved work has a time at which it is saved. -/
theorem save_ahead {found : Option Found} {disk : Bytes} {stamp : FileStamp} {epoch now : Nat}
    {t₀ t : Task M C} {outside : Bool} {es : List Event}
    (hstart : Task.start F W found disk stamp epoch now = .ok (t₀, outside))
    (hrun : Run (Guarded (Spared F E) (Task.Next F W E)) (t₀.firstLook F W E outside) es t)
    (hunsaved : t.document.rev ≠ t.document.savedRev) :
    (t.firstUnsaved.isSome ∧ t.lastUnsaved.isSome ∨ t.retryAt.isSome) ∧
      ∃ at', (t.saving = some at' ∨ t.retryAt = some at') ∧
        ∃ deadline, t.nextDeadline = some deadline ∧ deadline ≤ at' := by
  have ht₀ : (t₀.firstLook F W E outside).Timed := by
    unfold firstLook
    split
    · exact (timed_start hstart).lookAtFile
    · exact timed_start hstart
  have ht : t.Timed :=
    hrun.invariant (fun hs ⟨hspared, _, heq⟩ => heq ▸ hs.step hspared) ht₀
  refine ⟨ht.ahead hunsaved, ?_⟩
  have hsave : ∃ at', t.saving = some at' ∨ t.retryAt = some at' := by
    rcases ht.ahead hunsaved with ⟨hfirst, hlast⟩ | hretry
    · obtain ⟨first, hfirst⟩ := Option.isSome_iff_exists.mp hfirst
      obtain ⟨last, hlast⟩ := Option.isSome_iff_exists.mp hlast
      exact ⟨_, .inl (by rw [saving, hfirst, hlast])⟩
    · obtain ⟨at', hretry⟩ := Option.isSome_iff_exists.mp hretry
      exact ⟨at', .inr hretry⟩
  obtain ⟨at', hat⟩ := hsave
  refine ⟨at', hat, ?_⟩
  have hmem : at' ∈ [t.saving, t.retryAt, t.closeAt].filterMap id := by
    rw [List.mem_filterMap]
    rcases hat with h | h
    · exact ⟨t.saving, List.mem_cons_self, h⟩
    · exact ⟨t.retryAt, by simp, h⟩
  cases hmin : t.nextDeadline with
  | none =>
    have hnil := List.min?_eq_none_iff.mp hmin
    rw [hnil] at hmem
    exact absurd hmem (List.not_mem_nil)
  | some deadline => exact ⟨deadline, rfl, (List.min?_eq_some_iff.mp hmin).2 at' hmem⟩

/-! ### The small format -/

namespace Tally

/-- A counter that cannot be written. -/
def unwritable : Format Nat Nat Unit :=
  { Documents.Tally.format with write := fun _ _ _ => .error ⟨"no document part"⟩ }

/-- The task of a file of one byte. -/
def begun : Task Nat Nat where
  document := Documents.Tally.opened
  journalBytes := 0
  disk := [0]
  stamp := ⟨1, none⟩
  firstUnsaved := none
  lastUnsaved := none
  retryAt := none
  closeAt := some CLOSE_AFTER
  sealing := false
  ended := false
  asked := 0

/-- Someone joins and adds two. -/
def edits : List Event :=
  [.commands [.connect 1 ⟨"ana", "Ana", true⟩, .message 1 [0, 0, 1, 0], .message 1 [0, 1, 1, 0, 2]]]

/-- The task after these events. -/
def after (F : Format Nat Nat Unit) (es : List Event) : Task Nat Nat :=
  es.foldl (Task.step F wire machine) begun

end Tally

theorem save_ahead_tally :
    let t := Tally.after Documents.Tally.format Tally.edits
    t.document.rev = 1 ∧ t.document.savedRev = 0 ∧ ∃ deadline, t.nextDeadline = some deadline := by
  intro t
  have hstate : t.document.rev = 1 ∧ t.document.savedRev = 0 := by decide
  have hrun : Run (Guarded (Spared Documents.Tally.format Tally.machine)
      (Task.Next Documents.Tally.format Tally.wire Tally.machine))
      (Tally.begun.firstLook Documents.Tally.format Tally.wire Tally.machine false) Tally.edits t :=
    Run.single_iff.mpr ⟨fun h => by simp at h, rfl, rfl⟩
  have hstart : Task.start Documents.Tally.format Tally.wire none [0] ⟨1, none⟩ 1 0
      = .ok (Tally.begun, false) := rfl
  obtain ⟨-, -, -, deadline, hdeadline, -⟩ :=
    save_ahead hstart hrun (by rw [hstate.1, hstate.2]; decide)
  exact ⟨hstate.1, hstate.2, deadline, hdeadline⟩

/-- A document that twice cannot be written stays unsaved, and nothing is ahead. -/
theorem no_save_ahead :
    let t := Tally.after Tally.unwritable (Tally.edits ++ [.deadline, .deadline])
    Task.start Tally.unwritable Tally.wire none [0] ⟨1, none⟩ 1 0 = .ok (Tally.begun, false) ∧
      Run (Task.Next Tally.unwritable Tally.wire Tally.machine) Tally.begun
        (Tally.edits ++ [.deadline, .deadline]) t ∧
      t.ended = false ∧ t.document.rev = 1 ∧ t.document.savedRev = 0 ∧
      t.firstUnsaved = none ∧ t.lastUnsaved = none ∧ t.retryAt = none ∧ t.nextDeadline = none := by
  intro t
  have hallows : Run.Allows (fun (t : Task Nat Nat) (_ : Event) => t.ended = false)
      (Task.step Tally.unwritable Tally.wire Tally.machine) Tally.begun
      (Tally.edits ++ [.deadline, .deadline]) := by decide
  exact ⟨rfl, Run.of_allows hallows, by decide⟩

end Task

end Kodosi.Documents
