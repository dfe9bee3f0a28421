import Kodosi.Dosi.LogKept

/-! Whether a computer always comes to read what it heard of: something that is under way or scheduled has to lead to the
    next read. -/

namespace Kodosi.Dosi.System
open Kodosi.Lib

/-- The answer to the running read is on its way, and neither it nor what is known has this sequence. -/
def AnswerBehind (s : System) (heard : Nat) : Prop :=
  ∃ r log, s.read = some r ∧ r.answer = some log ∧ max log.sequence (s.shared.synced.getD 0) < heard

/-- Something newer than what is known was heard of, and a write, a read or a retry is to come. -/
def Live (s : System) : Prop :=
  s.shared.synced.getD 0 < s.shared.heard →
    s.shared.writing = true ∨ s.shared.reading ≠ .idle ∨ 0 < s.retries

/-- What leads to the next read: a record that waits is written or has a retry; a log that was never read is being read;
    and what was put off has a write or a retry behind it. -/
structure Wakes (s : System) : Prop where
  waits : s.shared.writing = false → s.shared.pending ≠ [] → 0 < s.retries
  unread : s.shared.synced = none → s.shared.reading ≠ .idle
  idle : s.shared.reading = .idle → s.shared.synced.getD 0 < s.shared.heard → s.shared.writing = true ∨ 0 < s.retries
  running : s.shared.reading = .running → AnswerBehind s s.shared.heard → s.shared.pending ≠ []

/-- What is heard of is not lost: a notice, or the sequence of an own write, comes before the answer to the first read is
    on its way, or is in that answer, or another record waits to be written; and a write fails for good only when another
    record waits, or when nothing was put off for it that the running read does not bring. -/
def Keeps (s : System) : Event → Prop
  | .hear (some sequence) => s.shared.synced = none → s.shared.pending = [] → s.shared.reading = .running →
      ¬AnswerBehind s (max s.shared.heard sequence)
  | .written => ∀ w sequence, s.write = some w → w.given = some sequence → s.shared.synced = none →
      s.shared.pending.length ≤ 1 → s.shared.reading = .running → ¬AnswerBehind s (max s.shared.heard sequence)
  | .writeFailed false => s.shared.pending.length ≤ 1 →
      (s.shared.reading = .running → ¬AnswerBehind s s.shared.heard) ∧
      (s.shared.reading = .idle → s.retries = 0 → s.shared.heard ≤ s.shared.synced.getD 0)
  | _ => True

variable {s : System}

theorem Wakes.live (h : Wakes s) : Live s := by
  intro hbehind
  by_cases hidle : s.shared.reading = .idle
  · rcases h.idle hidle hbehind with hwriting | hretries
    · exact .inl hwriting
    · exact .inr (.inr hretries)
  · exact .inr (.inl hidle)

/-! ### What each part leads to -/

/-- After a read was asked for, nothing that was heard of is lost. -/
theorem wakes_requestSync (hwaits : s.shared.writing = false → s.shared.pending ≠ [] → 0 < s.retries) :
    Wakes s.requestSync := by
  rcases requestSync_cases s with ⟨-, hs⟩ | ⟨-, hs⟩
  · rw [hs]
    exact ⟨hwaits, fun _ => nofun, nofun, nofun⟩
  · rw [hs]
    refine ⟨hwaits, fun _ => nofun, nofun, fun _ hbehind => ?_⟩
    obtain ⟨r, log, hr, hlog, -⟩ := hbehind
    obtain rfl := Option.some.inj hr
    cases hlog

theorem writing_writeNext (s : System) (hpending : s.writeNext.shared.pending ≠ []) :
    s.writeNext.shared.writing = true := by
  rcases writeNext_cases s with ⟨hwriting | hnone, hs⟩ | ⟨-, record, rest, -, hs⟩
  · rwa [hs]
  · rw [hs] at hpending
    exact absurd hnone hpending
  · rw [hs]

/-- The next write leaves what is read, what is known and what waits as they are. -/
theorem writeNext_same (s : System) : s.writeNext.shared.synced = s.shared.synced ∧
    s.writeNext.shared.heard = s.shared.heard ∧ s.writeNext.shared.reading = s.shared.reading ∧
    s.writeNext.shared.pending = s.shared.pending ∧ s.writeNext.read = s.read ∧ s.writeNext.retries = s.retries := by
  rcases writeNext_cases s with ⟨-, hs⟩ | ⟨-, record, rest, -, hs⟩ <;> rw [hs] <;> exact ⟨rfl, rfl, rfl, rfl, rfl, rfl⟩

theorem answerBehind_writeNext {heard : Nat} : AnswerBehind s.writeNext heard ↔ AnswerBehind s heard := by
  obtain ⟨hsynced, -, -, -, hread, -⟩ := writeNext_same s
  rw [AnswerBehind, AnswerBehind, hsynced, hread]

/-- When the next write has started, what was put off waits for a record or is nothing. -/
theorem wakes_writeNext (hunread : s.shared.synced = none → s.shared.reading ≠ .idle)
    (hidle : s.shared.pending = [] → s.shared.reading = .idle → s.shared.synced.getD 0 < s.shared.heard → 0 < s.retries)
    (hrunning : s.shared.pending = [] → s.shared.reading = .running → ¬AnswerBehind s s.shared.heard) :
    Wakes s.writeNext := by
  obtain ⟨hsynced, hheard, hreading, hpending, hread, hretries⟩ := writeNext_same s
  refine ⟨fun hwriting hwaits => ?_, ?_, fun hr hbehind => ?_, fun hr hbehind hnone => ?_⟩
  · rw [writing_writeNext s hwaits] at hwriting
    cases hwriting
  · rw [hsynced, hreading]
    exact hunread
  · by_cases hnone : s.shared.pending = []
    · rw [hsynced, hheard] at hbehind
      rw [hreading] at hr
      rw [hretries]
      exact .inr (hidle hnone hr hbehind)
    · exact .inl (writing_writeNext s (by rwa [hpending]))
  · rw [hreading] at hr
    rw [hpending] at hnone
    rw [answerBehind_writeNext, hheard] at hbehind
    exact hrunning hnone hr hbehind

/-- After a computer caught up where it could, what is put off has a write behind it. -/
theorem wakes_catchUp (hwaits : s.shared.writing = false → s.shared.pending ≠ [] → 0 < s.retries)
    (hunread : s.shared.synced = none → s.shared.reading ≠ .idle)
    (hrunning : s.shared.reading = .running → AnswerBehind s s.shared.heard →
      s.shared.synced = none ∨ s.shared.writing = true → s.shared.pending ≠ []) : Wakes s.catchUp := by
  rw [System.catchUp]
  by_cases hbehind : s.shared.behind = true
  · rw [if_pos hbehind]
    exact wakes_requestSync hwaits
  · have hheld : s.shared.synced.getD 0 < s.shared.heard → s.shared.synced = none ∨ s.shared.writing = true := by
      intro hlt
      cases hsynced : s.shared.synced with
      | none => exact .inl rfl
      | some known =>
        rw [hsynced] at hlt
        cases hwriting : s.shared.writing with
        | true => exact .inr rfl
        | false => exact absurd (by simpa [Shared.behind, hsynced, hwriting] using hlt) hbehind
    rw [if_neg hbehind]
    refine ⟨hwaits, hunread, fun hidle hlt => ?_, fun hr h => ?_⟩
    · rcases hheld hlt with hnone | hwriting
      · exact absurd hidle (hunread hnone)
      · exact .inl hwriting
    · have hlt : s.shared.synced.getD 0 < s.shared.heard := by
        obtain ⟨r, log, -, -, hlt⟩ := h
        exact Nat.lt_of_le_of_lt (Nat.le_max_right _ _) hlt
      exact hrunning hr h (hheld hlt)

theorem wakes_saveNext (h : Wakes s) : Wakes s.saveNext := by
  obtain ⟨saving, unsaved, save, hs⟩ := saveNext_cases s
  rw [hs]
  exact ⟨h.waits, h.unread, h.idle, h.running⟩

theorem wakes_retryLater (hunread : s.shared.synced = none → s.shared.reading ≠ .idle)
    (hrunning : s.shared.reading = .running → AnswerBehind s s.shared.heard → s.shared.pending ≠ []) :
    Wakes s.retryLater :=
  ⟨fun _ _ => Nat.succ_pos _, hunread, fun _ _ => .inr (Nat.succ_pos _), hrunning⟩

/-! ### Events -/

theorem wakes_written (h : Wakes s) {w : Writing} {sequence : Nat} (hw : s.write = some w)
    (hgiven : w.given = some sequence) (hkeeps : Keeps s .written) : Wakes (s.written sequence) := by
  have hkept := hkeeps w sequence hw hgiven
  obtain ⟨hsynced, hheard, hreading, hpending, hread, -⟩ := writeNext_same (s.gotWritten sequence)
  have hunknown : (s.gotWritten sequence).shared.synced = none → s.shared.synced = none := by
    intro hnone
    simp only [gotWritten] at hnone
    split at hnone
    · cases hnone
    · exact hnone
  rw [written_eq]
  refine wakes_catchUp (fun hwriting hwaits => ?_) (fun hnone => ?_) fun hr hbehind hheld hnone => ?_
  · rw [writing_writeNext _ hwaits] at hwriting
    cases hwriting
  · rw [hreading]
    rw [hsynced] at hnone
    exact h.unread (hunknown hnone)
  · rw [hpending] at hnone
    rcases hheld with hunread | hwriting
    · rw [hsynced] at hunread
      rw [hreading] at hr
      rw [answerBehind_writeNext, hheard] at hbehind
      have hlength : s.shared.pending.length ≤ 1 := by
        have htail : s.shared.pending.tail = [] := hnone
        have := congrArg List.length htail
        rw [List.length_tail, List.length_nil] at this
        omega
      obtain ⟨r, log, hr', hlog, hlt⟩ := hbehind
      rw [hunread] at hlt
      refine hkept (hunknown hunread) hlength hr ⟨r, log, hr', hlog, ?_⟩
      rw [hunknown hunread]
      exact hlt
    · -- Nothing waits, so no write has started.
      rcases writeNext_cases (s.gotWritten sequence) with ⟨-, hs⟩ | ⟨-, record, rest, hsome, -⟩
      · rw [hs] at hwriting
        cases hwriting
      · rw [hnone] at hsome
        cases hsome

theorem wakes_hear (hlinked : Linked s) (h : Wakes s) {sequence : Nat} (hkeeps : Keeps s (.hear (some sequence))) :
    Wakes (s.nudge (some sequence)) := by
  rw [nudge_eq]
  refine wakes_catchUp h.waits h.unread fun hr hbehind hheld hnone => ?_
  rcases hheld with hunread | hwriting
  · exact hkeeps hunread hnone hr hbehind
  · have hwrite := hlinked.write.writing
    rw [show s.shared.writing = true from hwriting] at hwrite
    obtain ⟨w, hw⟩ := Option.isSome_iff_exists.mp hwrite
    have hfirst := hlinked.write.first w hw
    rw [show s.shared.pending = [] from hnone] at hfirst
    cases hfirst

theorem wakes_synced (hlinked : Linked s) (h : Wakes s) {after : Nat} {log : DosiLog}
    (hread : s.read = some ⟨after, some log⟩) : Wakes (s.synced log) := by
  rw [synced]
  split
  · exact wakes_requestSync h.waits
  · by_cases hagain : s.shared.reading = .again
    · have hbeq : (s.shared.reading == .again) = true := beq_iff_eq.mpr hagain
      simp only [Shared.syncedTo, hbeq, if_true]
      exact wakes_requestSync h.waits
    · have hbeq : (s.shared.reading == .again) = false := by simpa using hagain
      simp only [Shared.syncedTo, hbeq, Bool.false_eq_true, if_false]
      refine ⟨h.waits, by simp, fun _ hlt => ?_, by simp⟩
      have hrunning : s.shared.reading = .running :=
        (hlinked.read.reading.mp (by rw [hread]; rfl)).resolve_right hagain
      have hbehind : AnswerBehind s s.shared.heard := by
        refine ⟨_, log, hread, rfl, ?_⟩
        rw [Nat.max_comm]
        exact hlt
      cases hwriting : s.shared.writing with
      | true => exact .inl rfl
      | false => exact .inr (h.waits hwriting (h.running hrunning hbehind))

theorem wakes_retry (h : Wakes s) : Wakes s.retry := by
  rw [retry_eq]
  refine wakes_saveNext ?_
  obtain ⟨hsynced, hheard, hreading, hpending, hread, -⟩ := writeNext_same { s with retries := s.retries - 1 }
  have hwaits : ∀ {P : Prop}, ({ s with retries := s.retries - 1 }.writeNext).shared.writing = false →
      ({ s with retries := s.retries - 1 }.writeNext).shared.pending ≠ [] → P := by
    intro P hwriting hwaits
    rw [writing_writeNext _ hwaits] at hwriting
    cases hwriting
  rw [syncWanted]
  by_cases hwants : ({ s with retries := s.retries - 1 }.writeNext).shared.wantsSync = true
  · rw [if_pos hwants]
    exact wakes_requestSync hwaits
  · rw [if_neg hwants]
    refine ⟨hwaits, by rw [hsynced, hreading]; exact h.unread, fun hidle hlt => .inl ?_, fun hr hbehind => ?_⟩
    · have hknown : s.shared.synced ≠ none := fun hnone => h.unread hnone (hreading ▸ hidle)
      obtain ⟨known, hknown⟩ := Option.ne_none_iff_exists'.mp hknown
      have hsome := hsynced.trans hknown
      rw [hsome] at hlt
      cases hwriting : ({ s with retries := s.retries - 1 }.writeNext).shared.writing with
      | true => rfl
      | false =>
        refine absurd ?_ hwants
        rw [Shared.wantsSync, hidle, hsome, Shared.behind, hwriting, hsome]
        simpa using hlt
    · rw [hpending]
      rw [answerBehind_writeNext, hheard] at hbehind
      exact h.running (hreading ▸ hr) hbehind

/-- Every event that keeps what was heard of leads on. -/
theorem wakes_next {t : System} {e : Event} (hlinked : Linked s) (h : Wakes s) (hkeeps : Keeps s e)
    (hnext : s.next e = some t) : Wakes t := by
  cases e with
  | push record =>
    obtain rfl := Option.some.inj hnext
    rw [push_eq]
    split
    · exact h
    · have hsome : s.shared.pending ++ [fit record] ≠ [] := by simp
      exact wakes_writeNext h.unread (fun hnone => absurd hnone hsome) fun hnone => absurd hnone hsome
  | save instructions =>
    obtain rfl := Option.some.inj hnext
    show Wakes (saveNext { s with shared := { s.shared with unsaved := some instructions } })
    exact wakes_saveNext ⟨h.waits, h.unread, h.idle, h.running⟩
  | give =>
    rw [next] at hnext
    split at hnext
    · obtain rfl := Option.some.inj hnext
      exact ⟨h.waits, h.unread, h.idle, h.running⟩
    · cases hnext
  | written =>
    rw [next] at hnext
    split at hnext
    · rename_i record sequence hw
      obtain rfl := Option.some.inj hnext
      exact wakes_written h hw rfl hkeeps
    · cases hnext
  | writeFailed retry =>
    obtain ⟨w, -, rfl⟩ := Option.map_eq_some_iff.mp hnext
    rw [writeFailed_eq]
    cases retry with
    | true => exact wakes_retryLater h.unread h.running
    | false =>
      have hlength : s.shared.pending.tail = [] → s.shared.pending.length ≤ 1 := by
        intro htail
        have := congrArg List.length htail
        rw [List.length_tail, List.length_nil] at this
        omega
      refine wakes_writeNext (s := s.lostWrite false) h.unread (fun hnone hidle hlt => ?_) fun hnone hr =>
        (hkeeps (hlength hnone)).1 hr
      refine Nat.pos_of_ne_zero fun hzero => ?_
      exact absurd hlt (Nat.not_lt.mpr ((hkeeps (hlength hnone)).2 hidle hzero))
  | others item =>
    obtain rfl := Option.some.inj hnext
    exact ⟨h.waits, h.unread, h.idle, h.running⟩
  | hear sequence =>
    cases sequence with
    | none =>
      obtain rfl := Option.some.inj hnext
      exact wakes_requestSync h.waits
    | some sequence =>
      rw [next] at hnext
      split at hnext
      · obtain rfl := Option.some.inj hnext
        exact wakes_hear hlinked h hkeeps
      · cases hnext
  | serve =>
    rw [next] at hnext
    split at hnext
    · obtain rfl := Option.some.inj hnext
      refine ⟨h.waits, h.unread, h.idle, fun _ hbehind => ?_⟩
      -- What the server answers has all that was heard of.
      obtain ⟨r, log, hr, hlog, hlt⟩ := hbehind
      obtain rfl := Option.some.inj hr
      obtain rfl := Option.some.inj hlog
      have hheard := hlinked.exact.heard
      have hle : s.server.length ≤ max s.server.length (s.shared.synced.getD 0) := Nat.le_max_left _ _
      exact absurd (Nat.lt_of_le_of_lt hle hlt) (Nat.not_lt.mpr hheard)
    · cases hnext
  | synced =>
    rw [next] at hnext
    split at hnext
    · rename_i after log hread
      obtain rfl := Option.some.inj hnext
      exact wakes_synced hlinked h hread
    · cases hnext
  | resets =>
    obtain ⟨r, -, rfl⟩ := Option.map_eq_some_iff.mp hnext
    rw [synced, if_pos rfl]
    exact wakes_requestSync h.waits
  | syncFailed =>
    obtain ⟨r, -, rfl⟩ := Option.map_eq_some_iff.mp hnext
    exact wakes_retryLater (by simp [Shared.syncFailed]) (by simp [Shared.syncFailed])
  | saved failed =>
    obtain ⟨instructions, -, rfl⟩ := Option.map_eq_some_iff.mp hnext
    have hbase : Wakes { s with shared := { s.shared with saving := false }, save := none } :=
      ⟨h.waits, h.unread, h.idle, h.running⟩
    rcases failed with _ | _ | _
    · exact wakes_saveNext hbase
    · exact wakes_saveNext hbase
    · exact wakes_retryLater h.unread h.running
  | retry =>
    rw [next] at hnext
    split at hnext
    · obtain rfl := Option.some.inj hnext
      exact wakes_retry h
    · cases hnext

theorem wakes_opened (server : List Kept) (kept : Nat) : Wakes (opened server kept) := by
  refine wakes_requestSync (s := ⟨.new ((recordsTo server kept).getLast?.map (·.sequence)), recordsTo server kept, none,
    none, none, 0, server⟩) ?_
  exact fun _ hsome => absurd rfl hsome

/-! ### Runs -/

/-- In every run the store has exactly the server's records up to the synced sequence, each once and in order. In every
    run that keeps what is heard of, something always leads to the next read while there is something newer. -/
theorem shared_log_kept {server : List Kept} {kept : Nat} :
    (∀ {es : List Event} {s : System}, Run (fun s e t => s.next e = some t) (opened server kept) es s →
      s.store = recordsTo s.server (s.shared.synced.getD 0)) ∧
    (∀ {es : List Event} {s : System},
      Run (Guarded Keeps fun s e t => s.next e = some t) (opened server kept) es s → Live s) := by
  refine ⟨fun hrun => (linked_run hrun).exact.store, fun hrun => ?_⟩
  have hboth := hrun.invariant (I := fun s => Linked s ∧ Wakes s) ?_ ⟨linked_opened server kept, wakes_opened server kept⟩
  · exact hboth.2.live
  · rintro s e t ⟨hlinked, hwakes⟩ ⟨hkeeps, hnext⟩
    exact ⟨linked_next hlinked hnext, wakes_next hlinked hwakes hkeeps hnext⟩

/-- A record that this computer writes after its first read. -/
def firstRecord : List Event := [.serve, .synced, .push (.begin "one"), .give, .written]

theorem shared_log_kept_written : ∃ s, firstRecord.foldlM next (opened [] 0) = some s ∧
    s.store = [⟨1, true, .begin "one"⟩] ∧ Live s := by
  obtain ⟨hstore, hlive⟩ := @shared_log_kept [] 0
  obtain ⟨s, hs⟩ : ∃ s, firstRecord.foldlM next (opened [] 0) = some s := ⟨_, rfl⟩
  have hrun : Run (Guarded Keeps fun s e t => s.next e = some t) (opened [] 0) firstRecord s := by
    obtain rfl := Option.some.inj hs
    refine .snoc (.snoc (.snoc (.snoc (.snoc .nil ⟨trivial, rfl⟩) ⟨trivial, rfl⟩) ⟨trivial, rfl⟩) ⟨trivial, rfl⟩)
      ⟨?_, rfl⟩
    exact fun _ _ _ _ hnone => nomatch hnone
  refine ⟨s, hs, (hstore hrun.unguard).trans ?_, hlive hrun⟩
  obtain rfl := Option.some.inj hs
  rfl

/-- A notice is put off for a write, and the write fails for good; and a notice comes when the answer to the first read
    is on its way. Neither time is there anything left that leads to the next read. -/
theorem notice_lost :
    (∃ s, Run (fun s e t => s.next e = some t) (opened [] 0)
        [.serve, .synced, .push (.begin "one"), .others (some (false, .begin "two")), .hear (some 1), .writeFailed false] s ∧
      ¬Live s) ∧
    ∃ s, Run (fun s e t => s.next e = some t) (opened [] 0)
        [.serve, .others (some (false, .begin "two")), .hear (some 1), .synced] s ∧ ¬Live s := by
  refine ⟨⟨_, .of_foldlM rfl, fun h => ?_⟩, ⟨_, .of_foldlM rfl, fun h => ?_⟩⟩
  · rcases h (by decide) with h | h | h
    · cases h
    · exact h rfl
    · cases h
  · rcases h (by decide) with h | h | h
    · cases h
    · exact h rfl
    · cases h

end Kodosi.Dosi.System
