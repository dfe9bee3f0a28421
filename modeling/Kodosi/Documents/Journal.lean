import Kodosi.Documents.Refines

/-! The journal of a document, and the way back from it. Whatever the document lived through, a restore
    from its journal gives the same order again: each record replays the put that wrote it. -/

namespace Kodosi.Documents
open Kodosi.Lib

variable {M C Q : Type} {F : Format M C Q} {W : Wire}

/-- The change that `apply` returns, written to JSON and read back, applies with no later changes to
    the same model, whatever the assets, and gives the same new model. -/
def Format.Replays (F : Format M C Q) (W : Wire) : Prop :=
  ∀ m c since a c' m' a', F.apply m c since a = (.ok c', m', a') →
    ∀ rev author client seq, ∃ body c'',
      W.readRecord (W.recordOf ⟨rev, author, client, seq, F.toValue c'⟩) =
        .ok ⟨rev, author, client, seq, body⟩ ∧
      F.fromValue body = .ok c'' ∧
      ∀ b, ∃ c₃ b', F.apply m c'' [] b = (.ok c₃, m', b')

/-- A change that `apply` returned and that is read back from its record is returned again as it is. -/
def Format.Settles (F : Format M C Q) (W : Wire) : Prop :=
  ∀ m c since a c' m' a', F.apply m c since a = (.ok c', m', a') →
    ∀ rev author client seq changed c'' b c₃ m₃ b',
      W.readRecord (W.recordOf ⟨rev, author, client, seq, F.toValue c'⟩) = .ok changed →
      F.fromValue changed.body = .ok c'' → F.apply m c'' [] b = (.ok c₃, m₃, b') → c₃ = c'

/-- What the host's journal holds of a document since it was opened or last rebased. The model is that
    of the start: the journal itself keeps only the file. -/
structure Journal (M : Type) where
  model : M
  file : Bytes
  epoch : Nat
  firstRev : Nat
  seqs : Std.TreeMap String Nat
  saved : List Nat
  records : List Bytes

namespace Journal

/-- A journal that starts at this document. -/
def start (d : Document M C) : Journal M :=
  ⟨d.model, d.original, d.epoch, d.firstRev, d.seqs, [], []⟩

/-- What the journal holds after one step of the document. -/
def keep (j : Journal M) (i : Input) (out : Document M C × List Effect) : Journal M :=
  match i with
  | .rebased _ _ => start out.1
  | .saved rev => { j with saved := j.saved ++ [rev] }
  | _ => { j with records := j.records ++ appends out.2 }

/-- What a restart gives to `restore`. -/
def restored (j : Journal M) : Restored := ⟨j.epoch, j.firstRev, j.seqs, j.saved⟩

/-- The order as it stands before the records of the journal. -/
def base (j : Journal M) : Core M C :=
  ⟨j.model, j.file, j.epoch, j.firstRev, j.firstRev, [], j.seqs, j.saved.getLast?.getD j.firstRev⟩

end Journal

/-- One step of a document and its journal. -/
def live (F : Format M C Q) (W : Wire) (s : Document M C × Journal M) (i : Input) :
    Document M C × Journal M :=
  let out := s.1.step F W i
  (out.1, s.2.keep i out)

/-- The document and the journal after these inputs. -/
def lives (F : Format M C Q) (W : Wire) (d : Document M C) (inputs : List Input) :
    Document M C × Journal M :=
  inputs.foldl (live F W) (d, .start d)

/-! ### The journal holds the puts since its start -/

/-- The records of a journal are those of the puts that lead from its base to the document. -/
def Holds (F : Format M C Q) (W : Wire) (s : Document M C × Journal M) : Prop :=
  ∃ cs, s.2.records = Document.recordsOf F W cs ∧ Run (Core.Put F) s.2.base cs s.1.core

theorem holds_start (d : Document M C) (hrev : d.rev = d.firstRev) (hlog : d.log = [])
    (hsaved : d.savedRev = d.firstRev) : Holds F W (d, .start d) := by
  refine ⟨[], rfl, Run.nil_iff.mpr ?_⟩
  simp only [Document.core, Journal.base, Journal.start, hrev, hlog, hsaved, List.getLast?_nil,
    Option.getD_none]

variable {k : Core M C} {cs : List (Commit M C)}

/-- Puts go the same way whatever the file holds. -/
theorem puts_save {k' : Core M C} (rev : Nat) (h : Run (Core.Put F) k cs k') :
    Run (Core.Put F) (k.save rev) cs (k'.save rev) := by
  have hput : ∀ s c t, Core.Put F s c t → Core.Put F (s.save rev) (id c) (t.save rev) :=
    fun s c t ⟨hfits, ht⟩ => ⟨⟨hfits.applied, hfits.rev, hfits.seq⟩, by rw [ht]; rfl⟩
  simpa using h.image (Core.save · rev) id hput

theorem holds_step (hF : F.RefusesClean) {s : Document M C × Journal M} (hs : Holds F W s)
    (i : Input) : Holds F W (live F W s i) := by
  obtain ⟨cs, hrecords, hrun⟩ := hs
  have hputs : (∀ rev, i ≠ .saved rev) → (∀ file epoch, i ≠ .rebased file epoch) →
      Holds F W ((s.1.step F W i).1,
        { s.2 with records := s.2.records ++ appends (s.1.step F W i).2 }) := by
    intro hsaved hrebased
    obtain ⟨happ, hrun'⟩ := s.1.step_puts (W := W) hF i hsaved hrebased
    refine ⟨cs ++ commits (s.1.acts F W i), ?_, hrun.trans hrun'⟩
    rw [happ, hrecords, Document.recordsOf, Document.recordsOf, Document.recordsOf, List.map_append]
  cases i with
  | rebased file epoch => exact holds_start _ rfl rfl rfl
  | saved rev =>
    -- the base of the journal moves with the save, and so does the run
    refine ⟨cs, hrecords, ?_⟩
    have hbase : (s.2.keep (.saved rev) (s.1.step F W (.saved rev))).base =
        (s.2.base : Core M C).save rev := by
      simp only [Journal.keep, Journal.base, Core.save, List.getLast?_concat, Option.getD_some]
    have := puts_save rev hrun
    rwa [← hbase] at this
  | connected | message | left | fileChanged | save | saveWaits | closing =>
    exact hputs (by simp) (by simp)

variable {d : Document M C}

theorem holds_lives (hF : F.RefusesClean) {file : Bytes} {epoch : Nat} {assets : Assets}
    (hopen : Document.openFile F file epoch assets = .ok d) (inputs : List Input) : Holds F W (lives F W d inputs) := by
  have hd : Holds F W (d, .start d) := by
    simp only [Document.openFile, bind, Except.bind] at hopen
    split at hopen
    · simp at hopen
    · obtain rfl := Except.ok.inj hopen
      exact holds_start _ rfl rfl rfl
  refine (Run.foldl (live F W) (d, .start d) inputs).invariant ?_ hd
  rintro s i _ hs rfl
  exact holds_step hF hs i

/-! ### Replay -/

/-- Two entries of one rev, author, client and seq; under `P` with one change as well. -/
structure Alike (P : Prop) (a b : Ordered C) : Prop where
  rev : a.rev = b.rev
  author : a.author = b.author
  client : a.client = b.client
  seq : a.seq = b.seq
  change : P → a.change = b.change

/-- A document that stands at this order, up to the changes in its log when `P` fails. -/
structure Stands (P : Prop) (d : Document M C) (k : Core M C) : Prop where
  model : d.model = k.model
  original : d.original = k.original
  epoch : d.epoch = k.epoch
  firstRev : d.firstRev = k.firstRev
  rev : d.rev = k.rev
  seqs : d.seqs = k.seqs
  savedRev : d.savedRev = k.savedRev
  log : List.Forall₂ (Alike P) d.log k.log

/-- A record replays the put that wrote it. -/
theorem replay_put (hW : F.Replays W) {c : Commit M C} (hd : Stands (F.Settles W) d k) (hc : Core.Fits F k c) :
    ∃ d', d.replayRecord F W (W.recordOf (changedOf F c.entry)) = .ok d' ∧ Stands (F.Settles W) d' (k.put c) := by
  obtain ⟨change, since, a, a', happly⟩ := hc.applied
  obtain ⟨body, c'', hread, hfrom, hreplay⟩ :=
    hW _ _ _ _ _ _ _ happly c.entry.rev c.entry.author c.entry.client c.entry.seq
  obtain ⟨c₃, b', hagain⟩ := hreplay d.assets
  have hrecord : d.replayRecord F W (W.recordOf (changedOf F c.entry)) = .ok { d with
      model := c.model
      assets := b'
      rev := c.entry.rev
      seqs := if 0 < c.entry.seq then d.seqs.insert c.entry.client c.entry.seq else d.seqs
      log := d.log ++ [⟨c.entry.rev, c.entry.author, c.entry.client, c.entry.seq, c₃⟩] } := by
    simp only [Document.replayRecord, changedOf, hread, Document.replay, hfrom, hd.model, hagain]
  refine ⟨_, hrecord, rfl, hd.original, hd.epoch, hd.firstRev, rfl, ?_, hd.savedRev, ?_⟩
  · simp only [Core.put, hd.seqs]
  · have hsame : F.Settles W → c₃ = c.entry.change := fun hset =>
      hset _ _ _ _ _ _ _ happly _ _ _ _ _ _ _ _ _ _ hread hfrom hagain
    exact List.rel_append hd.log (.cons ⟨rfl, rfl, rfl, rfl, hsame⟩ .nil)

/-- The records of a run of puts replay the run. -/
theorem replay_puts (hW : F.Replays W) {k' : Core M C} (hrun : Run (Core.Put F) k cs k') (hd : Stands (F.Settles W) d k) :
    ∃ d', (Document.recordsOf F W cs).foldlM (Document.replayRecord F W) d = .ok d' ∧ Stands (F.Settles W) d' k' := by
  induction hrun with
  | nil => exact ⟨d, rfl, hd⟩
  | @snoc k₁ k₂ cs c _ hnext ih =>
    obtain ⟨hfits, rfl⟩ := hnext
    obtain ⟨d₁, hfold, hd₁⟩ := ih
    obtain ⟨d₂, hlast, hd₂⟩ := replay_put hW hd₁ hfits
    refine ⟨d₂, ?_, hd₂⟩
    rw [Document.recordsOf, List.map_append, List.foldlM_append]
    rw [Document.recordsOf] at hfold
    simp only [hfold, bind, Except.bind, List.map_cons, List.map_nil, List.foldlM_cons, hlast,
      List.foldlM_nil]
    rfl

/-- At every point of a run, a restore from the journal gives the document that is live, when the file
    of the journal reads as the model that the document had when the journal started. -/
theorem restore_lives (hF : F.RefusesClean) (hW : F.Replays W) {file : Bytes} {epoch : Nat}
    {assets : Assets} {d₀ : Document M C} (hopen : Document.openFile F file epoch assets = .ok d₀)
    {inputs : List Input} {d : Document M C} {j : Journal M} (hlives : lives F W d₀ inputs = (d, j))
    {kept kept' : Assets} (hread : F.read j.file kept = .ok (j.model, kept')) :
    ∃ d', Document.restore F W j.file j.restored j.records kept = .ok d' ∧
      d'.model = d.model ∧ d'.rev = d.rev ∧ d'.firstRev = d.firstRev ∧ d'.epoch = d.epoch ∧
      d'.savedRev = d.savedRev ∧ d'.seqs = d.seqs ∧
      d'.log.map (fun e => (e.rev, e.author, e.client, e.seq)) =
        d.log.map (fun e => (e.rev, e.author, e.client, e.seq)) ∧
      (F.Settles W → d'.log = d.log) := by
  obtain ⟨cs, hrecords, hrun⟩ := holds_lives (W := W) hF hopen inputs
  rw [hlives] at hrecords hrun
  have hbase : Stands (F.Settles W)
      { (⟨j.model, kept', j.file, j.epoch, 0, 0, [], ∅, ∅, 0, [0], false⟩ : Document M C) with
        firstRev := j.restored.firstRev
        rev := j.restored.firstRev
        savedRev := j.restored.saved.getLast?.getD j.restored.firstRev
        savedStates := j.restored.firstRev :: j.restored.saved
        seqs := j.restored.seqs } j.base :=
    ⟨rfl, rfl, rfl, rfl, rfl, rfl, rfl, .nil⟩
  obtain ⟨d', hfold, hd'⟩ := replay_puts hW hrun hbase
  refine ⟨d', ?_, hd'.model, hd'.rev, hd'.firstRev, hd'.epoch, hd'.savedRev, hd'.seqs, ?_, ?_⟩
  · rw [hrecords]
    simp only [Document.restore, Document.openFile, hread, bind, Except.bind, pure, Except.pure]
    exact hfold
  · refine List.forall₂_eq_eq_eq ▸ List.forall₂_map_left_iff.mpr (List.forall₂_map_right_iff.mpr ?_)
    exact hd'.log.imp fun a b h => by rw [h.rev, h.author, h.client, h.seq]
  · intro hset
    refine List.forall₂_eq_eq_eq ▸ hd'.log.imp fun a b h => ?_
    obtain ⟨hrev, hauthor, hclient, hseq, hchange⟩ := h
    cases a
    cases b
    simp only [Ordered.mk.injEq]
    exact ⟨hrev, hauthor, hclient, hseq, hchange hset⟩

/-! ### The small format -/

theorem Tally.replays : format.Replays wire := by
  intro m c since a c' m' a' h rev author client seq
  have hvalue : format.toValue c' = nulls c' := rfl
  refine ⟨nulls c', c', by rw [hvalue, readRecord_recordOf, size_nulls], by simp [format, size_nulls],
    fun b => ?_⟩
  simp only [format, apply] at h ⊢
  split at h
  · simp at h
  · rename_i hle
    obtain ⟨rfl, rfl, -⟩ : c = c' ∧ m + c = m' ∧ a = a' := by simpa using h
    exact ⟨c, b, if_neg hle⟩

theorem Tally.opens (file : Bytes) (hfile : file ≠ []) (epoch : Nat) (a : Assets) :
    Document.openFile format file epoch a = .ok ⟨file.length, a, file, epoch, 0, 0, [], ∅, ∅, 0, [0], false⟩ := by
  simp [Document.openFile, format, hfile, bind, Except.bind, pure, Except.pure]

/-- The small format's document of one byte. -/
def Tally.opened : Document Nat Nat := ⟨1, ⟨[]⟩, [0], 1, 0, 0, [], ∅, ∅, 0, [0], false⟩

/-- An outside write adds two, and a restore finds it. -/
theorem restore_lives_tally :
    let s := lives Tally.format Tally.wire Tally.opened
      [.fileChanged [0, 0, 0] "ana", .saved 1]
    ∃ d', Document.restore Tally.format Tally.wire s.2.file s.2.restored s.2.records ⟨[]⟩ = .ok d' ∧
      d'.model = 3 ∧ d'.rev = 1 ∧ d'.savedRev = 1 := by
  intro s
  have hfile : s.2.file = [0] ∧ s.2.model = 1 := by decide
  have hstate : s.1.model = 3 ∧ s.1.rev = 1 ∧ s.1.savedRev = 1 := by decide
  have hread : Tally.format.read s.2.file ⟨[]⟩ = .ok (s.2.model, ⟨[]⟩) := by
    rw [hfile.1, hfile.2]
    rfl
  obtain ⟨d', hd', hmodel, hrev, -, -, hsaved, -⟩ :=
    restore_lives Tally.refusesClean Tally.replays (Tally.opens [0] (by simp) 1 ⟨[]⟩)
      (Prod.mk.eta (p := s)).symm hread
  exact ⟨d', hd', hmodel.trans hstate.1, hrev.trans hstate.2.1, hsaved.trans hstate.2.2⟩

/-- A counter whose changes are taken as two more than they were, and count only as odd or even. -/
def Tally.drifting : Format Nat Nat Unit :=
  { Tally.format with apply := fun m c _ a => (.ok (c + 2), m + c % 2, a) }

theorem Tally.drifting_replays : drifting.Replays wire := by
  intro m c since a c' m' a' h rev author client seq
  have hvalue : drifting.toValue c' = nulls c' := rfl
  refine ⟨nulls c', c', by rw [hvalue, readRecord_recordOf, size_nulls], by simp [drifting, format, size_nulls],
    fun b => ⟨c' + 2, b, ?_⟩⟩
  obtain ⟨rfl, rfl, -⟩ : c + 2 = c' ∧ m + c % 2 = m' ∧ a = a' := by simpa [drifting] using h
  simp [drifting]

theorem Tally.drifting_refusesClean : drifting.RefusesClean := by
  intro m c since a r m' a' h
  simp [drifting] at h

theorem Tally.drifting_restore (W : Wire) (record : Bytes) {author client : String}
    (hread : W.readRecord record = .ok ⟨1, author, client, 0, nulls 3⟩) :
    ∃ d', Document.restore drifting W [0] ⟨1, 0, ∅, []⟩ [record] ⟨[]⟩ = .ok d' ∧ d'.log.map (·.change) = [5] := by
  refine ⟨⟨2, ⟨[]⟩, [0], 1, 0, 1, [⟨1, author, client, 0, 5⟩], ∅, ∅, 0, [0], false⟩, ?_, rfl⟩
  simp only [Document.restore, Document.openFile, List.foldlM_cons, List.foldlM_nil, bind,
    Except.bind, pure, Except.pure, Document.replayRecord, hread]
  simp [drifting, format, Document.replay, size_nulls]

/-- Two ways in which a restore is not the live document: the journal started again from a file that
    does not read, or the replay takes a change as another one with the same effect. -/
theorem restore_not_live :
    (Tally.format.RefusesClean ∧ Tally.format.Replays Tally.wire ∧
      Document.openFile Tally.format [0] 1 ⟨[]⟩ = .ok Tally.opened ∧
      let s := lives Tally.format Tally.wire Tally.opened [.rebased [] 2]
      ∀ kept d', Document.restore Tally.format Tally.wire s.2.file s.2.restored s.2.records kept ≠
        .ok d') ∧
    (Tally.drifting.RefusesClean ∧ Tally.drifting.Replays Tally.wire ∧
      Document.openFile Tally.drifting [0] 1 ⟨[]⟩ = .ok Tally.opened ∧
      let s := lives Tally.drifting Tally.wire Tally.opened [.fileChanged [0, 0] "ana"]
      s.1.log.map (·.change) = [3] ∧
      ∃ d', Document.restore Tally.drifting Tally.wire s.2.file s.2.restored s.2.records ⟨[]⟩ =
          .ok d' ∧ d'.log.map (·.change) = [5]) := by
  refine ⟨⟨Tally.refusesClean, Tally.replays, Tally.opens [0] (by simp) 1 ⟨[]⟩, ?_⟩,
    ⟨Tally.drifting_refusesClean, Tally.drifting_replays, Tally.opens [0] (by simp) 1 ⟨[]⟩, ?_⟩⟩
  · intro s kept d'
    have hfile : s.2.file = [] := rfl
    simp [Document.restore, Document.openFile, hfile, Tally.format, bind, Except.bind]
  · intro s
    refine ⟨by decide, ?_⟩
    have hfile : s.2.file = [0] := rfl
    have hrestored : s.2.restored = ⟨1, 0, ∅, []⟩ := rfl
    have hrecords : s.2.records =
        [Tally.wire.recordOf ⟨1, "ana", "file:" ++ "ana", 0, Tally.nulls 3⟩] := rfl
    rw [hfile, hrestored, hrecords]
    exact Tally.drifting_restore _ _ (Tally.readRecord_recordOf _)

end Kodosi.Documents
