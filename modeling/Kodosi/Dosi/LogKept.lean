import Kodosi.Dosi.Shared
import Kodosi.Lib.Run

/-! What a computer's store has of the shared log: exactly the records of the server up to the synced sequence. -/

namespace Kodosi.Dosi
open Kodosi.Lib

/-! ### The records of a log -/

theorem entriesFrom_append : ∀ (k : Nat) (items more : List Kept),
    entriesFrom k (items ++ more) = entriesFrom k items ++ entriesFrom (k + items.length) more
  | _, [], _ => rfl
  | k, none :: items, more => by
    rw [List.cons_append, entriesFrom, entriesFrom, entriesFrom_append, List.length_cons]
    congr 2
    omega
  | k, some (mine, record) :: items, more => by
    rw [List.cons_append, entriesFrom, entriesFrom, entriesFrom_append, List.length_cons, List.cons_append]
    congr 3
    omega

theorem lt_of_mem_entriesFrom : ∀ {k : Nat} {items : List Kept} {e : DosiEntry}, e ∈ entriesFrom k items →
    k < e.sequence ∧ e.sequence ≤ k + items.length
  | _, [], _, h => absurd h List.not_mem_nil
  | k, none :: items, e, h => by
    obtain ⟨hlt, hle⟩ := lt_of_mem_entriesFrom (k := k + 1) h
    rw [List.length_cons]
    omega
  | k, some (mine, record) :: items, e, h => by
    rw [List.length_cons]
    rcases List.mem_cons.mp h with rfl | h
    · exact ⟨Nat.lt_succ_self k, by simp⟩
    · obtain ⟨hlt, hle⟩ := lt_of_mem_entriesFrom h
      omega

/-- What is newer than a sequence is what stands behind it. -/
theorem filter_entriesFrom : ∀ (d k : Nat) (items : List Kept),
    (entriesFrom k items).filter (k + d < ·.sequence) = entriesFrom (k + d) (items.drop d)
  | 0, k, items => by
    rw [List.drop_zero]
    refine List.filter_eq_self.mpr fun e he => decide_eq_true ?_
    exact (lt_of_mem_entriesFrom he).1
  | d + 1, k, [] => by simp [entriesFrom]
  | d + 1, k, none :: items => by
    have hrest := filter_entriesFrom d (k + 1) items
    rw [show k + 1 + d = k + (d + 1) by omega] at hrest
    rw [entriesFrom, List.drop_succ_cons]
    exact hrest
  | d + 1, k, some (mine, record) :: items => by
    have hrest := filter_entriesFrom d (k + 1) items
    rw [show k + 1 + d = k + (d + 1) by omega] at hrest
    rw [entriesFrom, List.drop_succ_cons, List.filter_cons, if_neg (by simp)]
    exact hrest

variable {server : List Kept}

theorem recordsTo_grow {n : Nat} (more : List Kept) (h : n ≤ server.length) :
    recordsTo (server ++ more) n = recordsTo server n := by
  rw [recordsTo, recordsTo, List.take_append_of_le_length h]

theorem recordsTo_succ {n : Nat} {mine : Bool} {record : DosiRecord} (h : server[n]? = some (some (mine, record))) :
    recordsTo server (n + 1) = recordsTo server n ++ [⟨n + 1, mine, record⟩] := by
  obtain ⟨hlt, -⟩ := List.getElem?_eq_some_iff.mp h
  rw [recordsTo, List.take_add_one, h, entriesFrom_append, List.length_take, Nat.min_eq_left (by omega), Nat.zero_add]
  rfl

theorem recordsTo_more {known sequence : Nat} (h : known ≤ sequence) (hle : known ≤ server.length) :
    recordsTo server known ++ entriesFrom known ((server.take sequence).drop known) = recordsTo server sequence := by
  have hsplit := List.take_append_drop known (server.take sequence)
  rw [List.take_take, Nat.min_eq_left h] at hsplit
  calc recordsTo server known ++ entriesFrom known ((server.take sequence).drop known)
      = entriesFrom 0 (server.take known ++ (server.take sequence).drop known) := by
        rw [entriesFrom_append, List.length_take, Nat.min_eq_left hle, Nat.zero_add]
        rfl
    _ = recordsTo server sequence := by rw [hsplit, recordsTo]

/-- The last record that is kept says how far the log is kept. -/
theorem recordsTo_last (server : List Kept) : ∀ n : Nat,
    recordsTo server (((recordsTo server n).getLast?.map (·.sequence)).getD 0) = recordsTo server n
  | 0 => rfl
  | n + 1 => by
    have hsame : server[n]?.getD none = none → recordsTo server (n + 1) = recordsTo server n := by
      intro hnone
      rw [recordsTo, recordsTo, List.take_add_one, entriesFrom_append]
      cases hn : server[n]? with
      | none => simp [entriesFrom]
      | some item =>
        rw [hn] at hnone
        obtain rfl : item = none := hnone
        simp [entriesFrom]
    cases hitem : server[n]?.getD none with
    | none =>
      rw [hsame hitem]
      exact recordsTo_last server n
    | some kept =>
      obtain ⟨mine, record⟩ := kept
      have hn : server[n]? = some (some (mine, record)) := by
        cases hn : server[n]? with
        | none => rw [hn] at hitem; cases hitem
        | some item => rw [hn] at hitem; exact congrArg some hitem
      rw [recordsTo_succ hn, List.getLast?_concat]
      exact recordsTo_succ hn

/-! ### Steps in parts -/

namespace System

/-- Starts the next write, when none is under way. -/
def writeNext (s : System) : System :=
  let (shared, write) := s.shared.nextWrite
  { s with shared }.send write none none

/-- Starts a read when the log has something newer that no write holds up. -/
def catchUp (s : System) : System := if s.shared.behind then s.requestSync else s

def saveNext (s : System) : System :=
  let (shared, save) := s.shared.nextSave
  { s with shared }.send none none save

/-- The write is over and its record is in the log under this sequence. -/
def gotWritten (s : System) (sequence : Nat) : System :=
  let follows := s.shared.synced.any (· + 1 == sequence)
  { s with
    write := none
    store := s.store ++ ((if follows then s.shared.pending.head? else none).map fun record =>
      (⟨sequence, true, record⟩ : DosiEntry)).toList
    shared := { s.shared with
      writing := false
      delay := FIRST_DELAY
      pending := s.shared.pending.tail
      synced := if follows then some sequence else s.shared.synced
      heard := max s.shared.heard sequence } }

theorem send_catchUp (s : System) (shared : Shared) (write : Option DosiRecord) :
    { s with shared := shared.catchUp.1 }.send write shared.catchUp.2 none =
      ({ s with shared }.send write none none).catchUp := by
  have hshared : ({ s with shared }.send write none none).shared = shared := rfl
  rw [catchUp, hshared, Shared.catchUp]
  by_cases hbehind : shared.behind = true
  · rw [if_pos hbehind, if_pos hbehind, requestSync, hshared]
    generalize shared.sync = synced
    obtain ⟨shared', sync⟩ := synced
    cases sync <;> cases write <;> rfl
  · rw [if_neg hbehind, if_neg hbehind]

theorem written_eq (s : System) (sequence : Nat) : s.written sequence = ((s.gotWritten sequence).writeNext).catchUp :=
  send_catchUp (s.gotWritten sequence) (s.gotWritten sequence).shared.nextWrite.1
    (s.gotWritten sequence).shared.nextWrite.2

theorem nudge_eq (s : System) (sequence : Nat) :
    s.nudge (some sequence) = { s with shared := { s.shared with heard := max s.shared.heard sequence } }.catchUp :=
  send_catchUp s { s.shared with heard := max s.shared.heard sequence } none

theorem push_eq (s : System) (record : DosiRecord) :
    s.push record = if MAX_PENDING ≤ s.shared.pending.length then s
      else writeNext { s with shared := { s.shared with pending := s.shared.pending ++ [fit record] } } := by
  rw [push, Shared.push]
  by_cases h : MAX_PENDING ≤ s.shared.pending.length
  · rw [if_pos h, if_pos h]
    rfl
  · rw [if_neg h, if_neg h]
    rfl

/-- The write is over, and its record waits or goes. -/
def lostWrite (s : System) (retry : Bool) : System :=
  { s with
    write := none
    shared := { s.shared with
      writing := false
      pending := if retry then s.shared.pending else s.shared.pending.tail } }

theorem writeFailed_eq (s : System) (retry : Bool) : s.writeFailed retry =
    if retry then (s.lostWrite true).retryLater else (s.lostWrite false).writeNext := by
  cases retry <;> rfl

/-- Reads when a read is wanted. -/
def syncWanted (s : System) : System := if s.shared.wantsSync then s.requestSync else s

theorem retry_eq (s : System) : s.retry = ({ s with retries := s.retries - 1 }.writeNext).syncWanted.saveNext := by
  have hnext : s.retry =
      let shared := s.shared.nextWrite.1
      let wanted := if shared.wantsSync then shared.sync else (shared, none)
      let saved := wanted.1.nextSave
      { s with shared := saved.1, retries := s.retries - 1 }.send s.shared.nextWrite.2 wanted.2 saved.2 := rfl
  have hshared : ({ s with retries := s.retries - 1 }.writeNext).shared = s.shared.nextWrite.1 := rfl
  rw [hnext, syncWanted, hshared]
  by_cases hwants : s.shared.nextWrite.1.wantsSync = true
  · simp only [if_pos hwants, requestSync, saveNext, writeNext, send]
    cases s.shared.nextWrite.2 <;> cases s.shared.nextWrite.1.sync.2 <;>
      cases s.shared.nextWrite.1.sync.1.nextSave.2 <;> rfl
  · simp only [if_neg hwants, saveNext, writeNext, send]
    cases s.shared.nextWrite.2 <;> cases s.shared.nextWrite.1.nextSave.2 <;> rfl

/-! ### What each part can do -/

theorem writeNext_cases (s : System) :
    (s.shared.writing = true ∨ s.shared.pending = []) ∧ s.writeNext = s ∨
    s.shared.writing = false ∧ ∃ record rest, s.shared.pending = record :: rest ∧
      s.writeNext = { s with shared := { s.shared with writing := true }, write := some ⟨record, none⟩ } := by
  obtain ⟨⟨synced, heard, reading, writing, pending, saving, unsaved, delay⟩, store, write, read, save, retries, server⟩ := s
  cases writing with
  | true => exact .inl ⟨.inl rfl, rfl⟩
  | false => cases pending with
    | nil => exact .inl ⟨.inr rfl, rfl⟩
    | cons record rest => exact .inr ⟨rfl, record, rest, rfl, rfl⟩

theorem requestSync_cases (s : System) :
    (s.shared.reading = .running ∨ s.shared.reading = .again) ∧
      s.requestSync = { s with shared := { s.shared with reading := .again } } ∨
    (s.shared.reading = .idle ∨ s.shared.reading = .wanted) ∧
      s.requestSync = { s with
        shared := { s.shared with reading := .running }, read := some ⟨s.shared.synced.getD 0, none⟩ } := by
  obtain ⟨⟨synced, heard, reading, writing, pending, saving, unsaved, delay⟩, store, write, read, save, retries, server⟩ := s
  cases reading with
  | idle => exact .inr ⟨.inl rfl, rfl⟩
  | wanted => exact .inr ⟨.inr rfl, rfl⟩
  | running => exact .inl ⟨.inl rfl, rfl⟩
  | again => exact .inl ⟨.inr rfl, rfl⟩

theorem saveNext_cases (s : System) : ∃ saving unsaved save,
    s.saveNext = { s with shared := { s.shared with saving, unsaved }, save } := by
  obtain ⟨⟨synced, heard, reading, writing, pending, saving, unsaved, delay⟩, store, write, read, save, retries, server⟩ := s
  cases saving with
  | true => exact ⟨_, _, _, rfl⟩
  | false => cases unsaved <;> exact ⟨_, _, _, rfl⟩

/-! ### The invariant -/

/-- The store has the server's records up to the synced sequence, and no sequence is past the log. -/
structure Exact (s : System) : Prop where
  store : s.store = recordsTo s.server (s.shared.synced.getD 0)
  synced : s.shared.synced.getD 0 ≤ s.server.length
  heard : s.shared.heard ≤ s.server.length

/-- The write that is under way is that of the first record that waits, and what the server gave to it is in the log. -/
structure WriteLinked (s : System) : Prop where
  writing : s.write.isSome = s.shared.writing
  first : ∀ w, s.write = some w → s.shared.pending.head? = some w.record
  given : ∀ w, s.write = some w → ∀ sequence, w.given = some sequence →
    ∃ n, sequence = n + 1 ∧ s.server[n]? = some (some (true, w.record))

/-- The answer to a read that started behind `after` has what stands there up to its own sequence. -/
structure Answers (server : List Kept) (after : Nat) (log : DosiLog) : Prop where
  reset : log.reset = false
  sequence : log.sequence ≤ server.length
  entries : log.entries = entriesFrom after ((server.take log.sequence).drop after)

structure ReadLinked (s : System) : Prop where
  reading : s.read.isSome = true ↔ s.shared.reading = .running ∨ s.shared.reading = .again
  after : ∀ r, s.read = some r → r.after ≤ s.shared.synced.getD 0
  answer : ∀ r, s.read = some r → ∀ log, r.answer = some log → Answers s.server r.after log

structure Linked (s : System) : Prop where
  exact : Exact s
  write : WriteLinked s
  read : ReadLinked s

variable {s : System}

theorem writeLinked_none (hwrite : s.write = none) (hwriting : s.shared.writing = false) : WriteLinked s where
  writing := by rw [hwrite, hwriting]; rfl
  first w hw := by rw [hwrite] at hw; cases hw
  given w hw := by rw [hwrite] at hw; cases hw

theorem readLinked_none (hread : s.read = none) (hreading : s.shared.reading = .idle ∨ s.shared.reading = .wanted) :
    ReadLinked s where
  reading := by rcases hreading with h | h <;> rw [hread, h] <;> simp
  after r hr := by rw [hread] at hr; cases hr
  answer r hr := by rw [hread] at hr; cases hr

theorem Exact.grow (h : Exact s) (more : List Kept) : Exact { s with server := s.server ++ more } where
  store := by
    rw [recordsTo_grow more h.synced]
    exact h.store
  synced := Nat.le_trans h.synced (by simp)
  heard := Nat.le_trans h.heard (by simp)

theorem ReadLinked.grow (h : ReadLinked s) (more : List Kept) : ReadLinked { s with server := s.server ++ more } where
  reading := h.reading
  after := h.after
  answer r hr log hlog := by
    obtain ⟨hreset, hsequence, hentries⟩ := h.answer r hr log hlog
    refine ⟨hreset, Nat.le_trans hsequence (by simp), ?_⟩
    rw [List.take_append_of_le_length hsequence]
    exact hentries

theorem WriteLinked.writeNext (h : WriteLinked s) : WriteLinked s.writeNext := by
  rcases writeNext_cases s with ⟨-, hs⟩ | ⟨-, record, rest, hpending, hs⟩
  · rwa [hs]
  · rw [hs]
    refine ⟨rfl, ?_, ?_⟩
    · rintro w hw
      obtain rfl := Option.some.inj hw
      show s.shared.pending.head? = _
      rw [hpending]
      rfl
    · rintro w hw sequence hsequence
      obtain rfl := Option.some.inj hw
      cases hsequence

theorem ReadLinked.requestSync (h : ReadLinked s) : ReadLinked s.requestSync := by
  rcases requestSync_cases s with ⟨hreading, hs⟩ | ⟨-, hs⟩
  · rw [hs]
    exact ⟨⟨fun _ => .inr rfl, fun _ => h.reading.mpr hreading⟩, h.after, h.answer⟩
  · rw [hs]
    refine ⟨⟨fun _ => .inl rfl, fun _ => rfl⟩, ?_, ?_⟩
    · rintro r hr
      obtain rfl := Option.some.inj hr
      exact Nat.le_refl _
    · rintro r hr log hlog
      obtain rfl := Option.some.inj hr
      cases hlog

theorem Linked.writeNext (h : Linked s) : Linked s.writeNext := by
  refine ⟨?_, h.write.writeNext, ?_⟩
  · rcases writeNext_cases s with ⟨-, hs⟩ | ⟨-, record, rest, -, hs⟩
    · rw [hs]; exact h.exact
    · rw [hs]; exact ⟨h.exact.store, h.exact.synced, h.exact.heard⟩
  · rcases writeNext_cases s with ⟨-, hs⟩ | ⟨-, record, rest, -, hs⟩
    · rw [hs]; exact h.read
    · rw [hs]; exact ⟨h.read.reading, h.read.after, h.read.answer⟩

theorem Linked.requestSync (h : Linked s) : Linked s.requestSync := by
  refine ⟨?_, ?_, h.read.requestSync⟩
  · rcases requestSync_cases s with ⟨-, hs⟩ | ⟨-, hs⟩ <;> rw [hs] <;>
      exact ⟨h.exact.store, h.exact.synced, h.exact.heard⟩
  · rcases requestSync_cases s with ⟨-, hs⟩ | ⟨-, hs⟩ <;> rw [hs] <;>
      exact ⟨h.write.writing, h.write.first, h.write.given⟩

theorem Linked.saveNext (h : Linked s) : Linked s.saveNext := by
  obtain ⟨saving, unsaved, save, hs⟩ := saveNext_cases s
  rw [hs]
  exact ⟨⟨h.exact.store, h.exact.synced, h.exact.heard⟩, ⟨h.write.writing, h.write.first, h.write.given⟩,
    ⟨h.read.reading, h.read.after, h.read.answer⟩⟩

theorem Linked.catchUp (h : Linked s) : Linked s.catchUp := by
  rw [System.catchUp]
  split
  · exact h.requestSync
  · exact h

/-! ### Events -/

theorem linked_gotWritten (h : Linked s) {record : DosiRecord} {sequence : Nat}
    (hw : s.write = some ⟨record, some sequence⟩) : Linked (s.gotWritten sequence) := by
  obtain ⟨n, rfl, hn⟩ := h.write.given _ hw _ rfl
  have hhead : s.shared.pending.head? = some record := h.write.first _ hw
  obtain ⟨hlt, -⟩ := List.getElem?_eq_some_iff.mp hn
  have hheard : max s.shared.heard (n + 1) ≤ s.server.length := Nat.max_le.mpr ⟨h.exact.heard, hlt⟩
  have hfollows : s.shared.synced.any (· + 1 == n + 1) = true ↔ s.shared.synced = some n := by
    cases s.shared.synced <;> simp
  by_cases hsynced : s.shared.synced = some n
  · have hgot : s.gotWritten (n + 1) = { s with
        write := none
        store := s.store ++ [⟨n + 1, true, record⟩]
        shared := { s.shared with
          writing := false, delay := FIRST_DELAY, pending := s.shared.pending.tail
          synced := some (n + 1), heard := max s.shared.heard (n + 1) } } := by
      simp only [gotWritten, hfollows.mpr hsynced, if_true, hhead, Option.map_some, Option.toList_some]
    rw [hgot]
    refine ⟨⟨?_, hlt, hheard⟩, writeLinked_none rfl rfl, ⟨h.read.reading, fun r hr => ?_, h.read.answer⟩⟩
    · have hstore := h.exact.store
      rw [hsynced] at hstore
      rw [hstore]
      exact (recordsTo_succ hn).symm
    · have hafter := h.read.after r hr
      rw [hsynced] at hafter
      exact Nat.le_succ_of_le hafter
  · have hgot : s.gotWritten (n + 1) = { s with
        write := none
        shared := { s.shared with
          writing := false, delay := FIRST_DELAY, pending := s.shared.pending.tail
          heard := max s.shared.heard (n + 1) } } := by
      simp only [gotWritten, hfollows.not.mpr hsynced, Bool.false_eq_true, if_false, Option.map_none, Option.toList_none,
        List.append_nil]
    rw [hgot]
    exact ⟨⟨h.exact.store, h.exact.synced, hheard⟩, writeLinked_none rfl rfl,
      ⟨h.read.reading, h.read.after, h.read.answer⟩⟩

theorem linked_lostWrite (h : Linked s) (retry : Bool) : Linked (s.lostWrite retry) :=
  ⟨⟨h.exact.store, h.exact.synced, h.exact.heard⟩, writeLinked_none rfl rfl,
    ⟨h.read.reading, h.read.after, h.read.answer⟩⟩

theorem linked_retryLater (h : Linked s) : Linked s.retryLater :=
  ⟨⟨h.exact.store, h.exact.synced, h.exact.heard⟩, ⟨h.write.writing, h.write.first, h.write.given⟩,
    ⟨h.read.reading, h.read.after, h.read.answer⟩⟩

theorem linked_resets (h : Linked s) {log : DosiLog} (hlog : log.reset = true) : Linked (s.synced log) := by
  rw [synced, if_pos hlog]
  exact Linked.requestSync ⟨⟨rfl, Nat.zero_le _, h.exact.heard⟩, ⟨h.write.writing, h.write.first, h.write.given⟩,
    readLinked_none rfl (.inl rfl)⟩

/-- After an answer the store has what the answer adds to what was known. -/
theorem linked_synced (h : Linked s) {after : Nat} {log : DosiLog} (hread : s.read = some ⟨after, some log⟩) :
    Linked (s.synced log) := by
  obtain ⟨hreset, hsequence, hentries⟩ := h.read.answer _ hread _ rfl
  have hafter : after ≤ s.shared.synced.getD 0 := h.read.after _ hread
  have hknown := h.exact.synced
  generalize hk : s.shared.synced.getD 0 = known at hafter hknown
  have hnewer : log.entries.filter (known < ·.sequence) = entriesFrom known ((s.server.take log.sequence).drop known) := by
    have hfilter := filter_entriesFrom (known - after) after ((s.server.take log.sequence).drop after)
    rw [Nat.add_sub_cancel' hafter, List.drop_drop, Nat.add_sub_cancel' hafter] at hfilter
    rw [hentries]
    exact hfilter
  have hstore : s.store ++ log.entries.filter (known < ·.sequence) = recordsTo s.server (max known log.sequence) := by
    rw [h.exact.store, hk, hnewer]
    by_cases hle : known ≤ log.sequence
    · rw [Nat.max_eq_right hle]
      exact recordsTo_more hle hknown
    · rw [Nat.max_eq_left (by omega), List.drop_eq_nil_of_le (by simp; omega)]
      exact List.append_nil _
  have hbase : Linked { s with
      shared := (s.shared.syncedTo log.sequence).1
      store := s.store ++ log.entries.filter (known < ·.sequence)
      read := none } := by
    refine ⟨⟨?_, ?_, h.exact.heard⟩, ⟨h.write.writing, h.write.first, h.write.given⟩, readLinked_none rfl (.inl rfl)⟩
    · rw [hstore, ← hk]
      rfl
    · show max (s.shared.synced.getD 0) log.sequence ≤ s.server.length
      rw [hk]
      exact Nat.max_le.mpr ⟨hknown, hsequence⟩
  rw [synced, if_neg (by rw [hreset]; decide)]
  simp only [hk]
  split
  · exact hbase.requestSync
  · exact hbase

/-- Every event keeps the invariant. -/
theorem linked_next {t : System} {e : Event} (h : Linked s) (hnext : s.next e = some t) : Linked t := by
  cases e with
  | push record =>
    obtain rfl := Option.some.inj hnext
    rw [push_eq]
    split
    · exact h
    · refine Linked.writeNext ⟨⟨h.exact.store, h.exact.synced, h.exact.heard⟩, ⟨h.write.writing, fun w hw => ?_,
        h.write.given⟩, ⟨h.read.reading, h.read.after, h.read.answer⟩⟩
      obtain ⟨rest, hpending⟩ : ∃ rest, s.shared.pending = w.record :: rest := by
        cases hp : s.shared.pending with
        | nil =>
          have hfirst := h.write.first w hw
          rw [hp] at hfirst
          cases hfirst
        | cons record rest =>
          have hfirst := h.write.first w hw
          rw [hp] at hfirst
          exact ⟨rest, by rw [Option.some.inj hfirst]⟩
      show (s.shared.pending ++ [fit record]).head? = some w.record
      rw [hpending]
      rfl
  | save instructions =>
    obtain rfl := Option.some.inj hnext
    show Linked (saveNext { s with shared := { s.shared with unsaved := some instructions } })
    exact Linked.saveNext ⟨⟨h.exact.store, h.exact.synced, h.exact.heard⟩,
      ⟨h.write.writing, h.write.first, h.write.given⟩, ⟨h.read.reading, h.read.after, h.read.answer⟩⟩
  | give =>
    rw [next] at hnext
    split at hnext
    · rename_i record hw
      obtain rfl := Option.some.inj hnext
      have hgrown := h.exact.grow [some (true, record)]
      have hread := h.read.grow [some (true, record)]
      refine ⟨⟨hgrown.store, hgrown.synced, hgrown.heard⟩, ⟨?_, ?_, ?_⟩, ⟨hread.reading, hread.after, hread.answer⟩⟩
      · rw [← h.write.writing, hw]
        rfl
      · rintro w hgiven
        obtain rfl := Option.some.inj hgiven
        exact h.write.first ⟨record, none⟩ hw
      · rintro w hgiven sequence hsequence
        obtain rfl := Option.some.inj hgiven
        obtain rfl := Option.some.inj hsequence
        exact ⟨s.server.length, rfl, List.getElem?_concat_length⟩
    · cases hnext
  | written =>
    rw [next] at hnext
    split at hnext
    · rename_i record sequence hw
      obtain rfl := Option.some.inj hnext
      rw [written_eq]
      exact (linked_gotWritten h hw).writeNext.catchUp
    · cases hnext
  | writeFailed retry =>
    obtain ⟨w, -, rfl⟩ := Option.map_eq_some_iff.mp hnext
    rw [writeFailed_eq]
    split
    · exact linked_retryLater (linked_lostWrite h true)
    · exact (linked_lostWrite h false).writeNext
  | others item =>
    obtain rfl := Option.some.inj hnext
    refine ⟨h.exact.grow [item], ⟨h.write.writing, h.write.first, fun w hw sequence hsequence => ?_⟩, h.read.grow [item]⟩
    obtain ⟨n, hn, hkept⟩ := h.write.given w hw sequence hsequence
    exact ⟨n, hn, List.getElem?_append_left (List.getElem?_eq_some_iff.mp hkept).1 ▸ hkept⟩
  | hear sequence =>
    cases sequence with
    | none =>
      obtain rfl := Option.some.inj hnext
      exact h.requestSync
    | some sequence =>
      rw [next] at hnext
      split at hnext
      · rename_i hle
        obtain rfl := Option.some.inj hnext
        rw [nudge_eq]
        exact Linked.catchUp ⟨⟨h.exact.store, h.exact.synced, Nat.max_le.mpr ⟨h.exact.heard, hle⟩⟩,
          ⟨h.write.writing, h.write.first, h.write.given⟩, ⟨h.read.reading, h.read.after, h.read.answer⟩⟩
      · cases hnext
  | serve =>
    rw [next] at hnext
    split at hnext
    · rename_i after hread
      obtain rfl := Option.some.inj hnext
      refine ⟨⟨h.exact.store, h.exact.synced, h.exact.heard⟩, ⟨h.write.writing, h.write.first, h.write.given⟩,
        ⟨⟨fun _ => h.read.reading.mp (by rw [hread]; rfl), fun _ => rfl⟩, ?_, ?_⟩⟩
      · rintro r hr
        obtain rfl := Option.some.inj hr
        exact h.read.after ⟨after, none⟩ hread
      · rintro r hr log hlog
        obtain rfl := Option.some.inj hr
        obtain rfl := Option.some.inj hlog
        refine ⟨rfl, Nat.le_refl _, ?_⟩
        rw [readLog, List.take_length]
    · cases hnext
  | synced =>
    rw [next] at hnext
    split at hnext
    · rename_i after log hread
      obtain rfl := Option.some.inj hnext
      exact linked_synced h hread
    · cases hnext
  | resets =>
    obtain ⟨r, -, rfl⟩ := Option.map_eq_some_iff.mp hnext
    exact linked_resets h rfl
  | syncFailed =>
    obtain ⟨r, -, rfl⟩ := Option.map_eq_some_iff.mp hnext
    exact linked_retryLater ⟨⟨h.exact.store, h.exact.synced, h.exact.heard⟩,
      ⟨h.write.writing, h.write.first, h.write.given⟩, readLinked_none rfl (.inr rfl)⟩
  | saved failed =>
    obtain ⟨instructions, -, rfl⟩ := Option.map_eq_some_iff.mp hnext
    have hbase : ∀ saving unsaved save, Linked { s with shared := { s.shared with saving, unsaved }, save } :=
      fun _ _ _ => ⟨⟨h.exact.store, h.exact.synced, h.exact.heard⟩, ⟨h.write.writing, h.write.first, h.write.given⟩,
        ⟨h.read.reading, h.read.after, h.read.answer⟩⟩
    match failed with
    | none | some false => exact (hbase false s.shared.unsaved none).saveNext
    | some true => exact linked_retryLater (hbase false _ none)
  | retry =>
    rw [next] at hnext
    split at hnext
    · obtain rfl := Option.some.inj hnext
      rw [retry_eq, syncWanted]
      have hbase : Linked { s with retries := s.retries - 1 } :=
        ⟨⟨h.exact.store, h.exact.synced, h.exact.heard⟩, ⟨h.write.writing, h.write.first, h.write.given⟩,
          ⟨h.read.reading, h.read.after, h.read.answer⟩⟩
      split
      · exact hbase.writeNext.requestSync.saveNext
      · exact hbase.writeNext.saveNext
    · cases hnext

theorem linked_opened (server : List Kept) (kept : Nat) : Linked (opened server kept) := by
  have hle : ((recordsTo server kept).getLast?.map (·.sequence)).getD 0 ≤ server.length := by
    cases hlast : (recordsTo server kept).getLast? with
    | none => exact Nat.zero_le _
    | some e =>
      obtain ⟨-, hle⟩ := lt_of_mem_entriesFrom (List.mem_of_getLast? hlast)
      rw [List.length_take, Nat.zero_add] at hle
      exact Nat.le_trans hle (Nat.min_le_right _ _)
  have hbase : Linked ⟨.new ((recordsTo server kept).getLast?.map (·.sequence)), recordsTo server kept, none, none, none, 0,
      server⟩ :=
    ⟨⟨(recordsTo_last server kept).symm, hle, Nat.zero_le _⟩, writeLinked_none rfl rfl, readLinked_none rfl (.inl rfl)⟩
  exact hbase.requestSync

/-- Through every run the store has exactly the server's records up to the synced sequence. -/
theorem linked_run {server : List Kept} {kept : Nat} {es : List Event}
    (hrun : Run (fun s e t => s.next e = some t) (opened server kept) es s) : Linked s :=
  hrun.invariant linked_next (linked_opened server kept)

end System

end Kodosi.Dosi
