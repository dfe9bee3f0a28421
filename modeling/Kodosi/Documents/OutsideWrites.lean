import Kodosi.Documents.SaveAhead

/-! A start after a crash, where another program wrote the file while the host was down: when the first look
    at the file merges that write. -/

namespace Kodosi.Documents
open Kodosi.Lib

variable {M C Q : Type} {F : Format M C Q} {W : Wire} {E : Machine}

namespace Task

/-! ### Work that changes no model -/

theorem model_foldl {α : Type} {f : Task M C → α → Task M C}
    (hf : ∀ t a, (f t a).document.model = t.document.model) :
    ∀ (as : List α) (t : Task M C), (as.foldl f t).document.model = t.document.model
  | [], _ => rfl
  | a :: as, t => (model_foldl hf as (f t a)).trans (hf t a)

theorem model_leave (pipe : Nat) (t : Task M C) : (t.leave F W pipe).document.model = t.document.model := by
  show (t.document.leftPipe pipe).1.model = _
  unfold Document.leftPipe
  split
  · rfl
  · dsimp only
    split <;> rfl

theorem model_send (t : Task M C) : (t.send F W E).document.model = t.document.model :=
  model_foldl (fun t pipe => model_leave pipe t) _ _

theorem model_sendAll (t : Task M C) (effects : List Effect) :
    (t.sendAll F W E effects).document.model = t.document.model := by
  refine model_foldl (fun t e => ?_) effects t
  cases e with
  | send => exact model_send t
  | _ => rfl

theorem model_saveWaits (d : Document M C) : d.saveWaits.1.model = d.model := by
  unfold Document.saveWaits
  split <;> rfl

theorem model_write (t : Task M C) (rev : Nat) (file : Bytes) :
    (t.write F W E rev file).document.model = t.document.model := by
  unfold write
  split
  · exact model_sendAll _ _
  · exact (model_sendAll _ _).trans (model_saveWaits _)

theorem model_save (t : Task M C) : (t.save F W E).document.model = t.document.model := by
  have hdocument : (t.document.step F W (.save t.disk)).1.model = t.document.model := by
    show (t.document.save F t.disk).1.model = _
    unfold Document.save
    split
    · rfl
    split
    · rfl
    · exact model_saveWaits _
  refine (model_foldl (fun t e => ?_) _ _).trans hdocument
  cases e with
  | write rev file => exact model_write t rev file
  | send => exact model_send _
  | _ => rfl

theorem model_startNewJournal (t : Task M C) : (t.startNewJournal F W E).document.model = t.document.model := by
  unfold startNewJournal
  split
  · rfl
  split
  · exact model_sendAll _ _
  · rfl

theorem model_runEffects (t : Task M C) (effects : List Effect) :
    (t.runEffects F W E effects).document.model = t.document.model := by
  have hseal : ∀ t : Task M C, (t.sealJournal F W E).document.model = t.document.model := by
    intro t
    unfold sealJournal
    split
    · dsimp only
      split
      · exact (model_startNewJournal _).trans (model_save _)
      · exact model_save _
    · rfl
  have hcarryOut : ∀ (t : Task M C) (e : Effect),
      (t.carryOut F W E e).document.model = t.document.model := by
    intro t e
    cases e with
    | send => exact model_send t
    | drop pipe => exact (model_sendAll _ _).trans (model_leave (F := F) (W := W) pipe t)
    | write rev file => exact model_write t rev file
    | _ => rfl
  calc (t.runEffects F W E effects).document.model
    _ = (effects.foldl (carryOut F W E) (effects.foldl (note E) t)).document.model := hseal _
    _ = (effects.foldl (note E) t).document.model := model_foldl hcarryOut _ _
    _ = t.document.model := model_foldl (fun t e => congrArg _ (document_note e)) _ _

/-! ### The first look -/

/-- The task of a journal that another program's write is newer than. -/
theorem start_outside {found : Found} {d : Document M C} {disk : Bytes}
    (hrestore : Document.restore F W found.original found.restored found.records found.assets = .ok d)
    (hwritten : F.sha256 disk ≠ found.savedHash.getD (F.sha256 found.original))
    (stamp : FileStamp) (epoch now : Nat) :
    ∃ t, Task.start F W (some found) disk stamp epoch now = .ok (t, true) ∧ t.document = d ∧
      t.disk = disk ∧ t.stamp = stamp ∧ t.asked = 0 := by
  have hopen : openOrRestore F W (some found) disk epoch = .ok (d, found.bytes, true) := by
    simp only [openOrRestore, Option.bind_some, hrestore, Except.toOption, Option.map_some,
      decide_eq_true hwritten]
  have hstart : ∃ t, Task.start F W (some found) disk stamp epoch now = .ok (t, true) ∧
      t.document = d ∧ t.disk = disk ∧ t.stamp = stamp ∧ t.asked = 0 := by
    rw [Task.start, ok_bind hopen]
    exact ⟨_, rfl, rfl, rfl, rfl, rfl⟩
  exact hstart

/-- What the first look makes of the model, when it finds the file. -/
theorem model_lookAtFile {t : Task M C} {stamp : FileStamp} {file : Bytes}
    (hmetadata : E.metadata t.asked = .found stamp) (hread : E.read t.asked = some file) :
    (t.lookAtFile F W E).document.model =
      if stamp ≠ t.stamp ∧ F.sha256 file ≠ F.sha256 t.disk then
        (t.document.step F W (.fileChanged file OUTSIDE)).1.model
      else t.document.model := by
  unfold lookAtFile
  simp only [hmetadata, hread]
  by_cases hstamp : stamp = t.stamp
  · rw [if_pos hstamp, if_neg fun h => h.1 hstamp]
    rfl
  · rw [if_neg hstamp]
    by_cases hhash : F.sha256 file = F.sha256 t.disk
    · rw [if_pos hhash, if_neg fun h => h.2 hhash]
      rfl
    · rw [if_neg hhash]
      exact (model_runEffects _ _).trans (if_pos ⟨hstamp, hhash⟩).symm

/-- After a crash and a write of another program, the first look at the file merges what it finds there
    exactly when the file was written once more since the start, or the merge changes nothing. -/
theorem first_look_merges {found : Found} {d : Document M C} {disk : Bytes} {stamp : FileStamp}
    {epoch now : Nat} {t : Task M C} {outside : Bool}
    (hrestore : Document.restore F W found.original found.restored found.records found.assets = .ok d)
    (hwritten : F.sha256 disk ≠ found.savedHash.getD (F.sha256 found.original))
    (hstart : Task.start F W (some found) disk stamp epoch now = .ok (t, outside))
    {stamp' : FileStamp} {file : Bytes} (hmetadata : E.metadata 0 = .found stamp')
    (hread : E.read 0 = some file) :
    (t.firstLook F W E outside).document.model = (d.step F W (.fileChanged file OUTSIDE)).1.model ↔
      stamp' ≠ stamp ∧ F.sha256 file ≠ F.sha256 disk ∨
        (d.step F W (.fileChanged file OUTSIDE)).1.model = d.model := by
  obtain ⟨t', hstart', hdocument, hdisk, hstamp, hasked⟩ :=
    start_outside hrestore hwritten stamp epoch now
  rw [hstart'] at hstart
  obtain ⟨rfl, rfl⟩ := Prod.mk.inj (Except.ok.inj hstart)
  have hlook := model_lookAtFile (F := F) (W := W) (t := t') (by rw [hasked, hmetadata])
    (by rw [hasked, hread])
  rw [hdocument, hdisk, hstamp] at hlook
  rw [firstLook, if_pos rfl, hlook]
  by_cases hagain : stamp' ≠ stamp ∧ F.sha256 file ≠ F.sha256 disk
  · rw [if_pos hagain]
    exact ⟨fun _ => .inl hagain, fun _ => rfl⟩
  · rw [if_neg hagain]
    exact ⟨fun h => .inr h.symm, fun h => (h.resolve_left hagain).symm⟩

/-! ### The small format -/

namespace Tally

/-- A journal that was started from a file of one byte, and nothing since. -/
def crashed : Found := ⟨[0], ⟨1, 0, ∅, []⟩, [], ⟨[]⟩, none, 0⟩

/-- The task that starts on that journal and a file of four bytes. -/
def restarted : Task Nat Nat :=
  { begun with disk := [0, 0, 0, 0], stamp := ⟨4, none⟩ }

/-- A machine on which the first look finds this file. -/
def finds (stamp : FileStamp) (file : Bytes) : Machine :=
  { machine with metadata := fun _ => .found stamp, read := fun _ => some file }

end Tally

/-- A file that is written twice is merged as it is at the first look. -/
theorem first_look_merges_tally :
    (Tally.restarted.firstLook Documents.Tally.format Tally.wire
      (Tally.finds ⟨5, none⟩ [0, 0, 0, 0, 0]) true).document.model = 5 := by
  have hrestore : Document.restore Documents.Tally.format Tally.wire Tally.crashed.original
      Tally.crashed.restored Tally.crashed.records Tally.crashed.assets
        = .ok Documents.Tally.opened := rfl
  have hwritten : Documents.Tally.format.sha256 [0, 0, 0, 0] ≠
      Tally.crashed.savedHash.getD (Documents.Tally.format.sha256 Tally.crashed.original) := by decide
  have hstart : Task.start Documents.Tally.format Tally.wire (some Tally.crashed) [0, 0, 0, 0]
      ⟨4, none⟩ 1 0 = .ok (Tally.restarted, true) := rfl
  have hmerges := (first_look_merges (E := Tally.finds ⟨5, none⟩ [0, 0, 0, 0, 0]) hrestore hwritten
    hstart rfl rfl).mpr (.inl ⟨by decide, by decide⟩)
  rw [hmerges]
  decide

/-- The write of another program is not merged, and the next save overwrites it. -/
theorem first_look_loses :
    let E := Tally.finds ⟨4, none⟩ [0, 0, 0, 0]
    let t := Tally.restarted.firstLook Documents.Tally.format Tally.wire E true
    Document.restore Documents.Tally.format Tally.wire [0] Tally.crashed.restored [] ⟨[]⟩
        = .ok Documents.Tally.opened ∧
      Task.start Documents.Tally.format Tally.wire (some Tally.crashed) [0, 0, 0, 0] ⟨4, none⟩ 1 0
        = .ok (Tally.restarted, true) ∧
      (Documents.Tally.opened.step Documents.Tally.format Tally.wire
        (.fileChanged [0, 0, 0, 0] OUTSIDE)).1.model = 4 ∧
      t.document.model = 1 ∧
      ((Tally.edits ++ [Event.watch, Event.deadline]).foldl
        (Task.step Documents.Tally.format Tally.wire E) t).disk = [0, 0, 0] := by
  refine ⟨rfl, rfl, by decide, by decide, by decide⟩

end Task

end Kodosi.Documents
