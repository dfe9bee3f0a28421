import Kodosi.Documents.JournalFile

/-! Journal recovery: of each part of its records that a crash leaves, a journal comes back with exactly what the whole
    records in it say, and it goes on behind them. -/

namespace Kodosi.Documents.OnDisk
open Kodosi.Lib

/-! ### The records -/

/-- A call that adds to a journal. -/
inductive Call where
  | append (change : Bytes)
  | saved (rev : UInt64) (hash : { hash : Hash // hash.length = HASH_BYTES })

namespace Call

def kind : Call → UInt8
  | .append _ => CHANGE
  | .saved _ _ => SAVED

def body : Call → Bytes
  | .append change => change
  | .saved rev hash => toBe 8 rev.toNat ++ hash.val

/-- The record of a call. -/
def write (c : Call) : Bytes := c.kind :: toBe 4 c.body.length ++ c.body

/-- The length of the record's body has a number, so the call goes well. -/
def Fits (c : Call) : Prop := c.body.length < 2 ^ 32

instance : DecidablePred Fits := fun c => inferInstanceAs (Decidable (c.body.length < 2 ^ 32))

/-- What the call adds to what the records say. -/
def seen (s : Seen) : Call → Seen
  | .append change => { s with records := s.records ++ [change] }
  | .saved rev hash => { s with saved := s.saved ++ [rev.toNat], savedHash := some hash.val }

theorem take_seen (s : Seen) (c : Call) : s.take c.kind c.body = some (seen s c) := by
  cases c with
  | append change => rfl
  | saved rev hash =>
    have hlength : (toBe 8 rev.toNat).length = 8 := length_toBe 8 _
    have hrev : ofBe (toBe 8 rev.toNat) = rev.toNat := ofBe_toBe 8 _ rev.toNat_lt
    have hne : SAVED ≠ CHANGE := by decide
    have hbody : 8 ≤ (toBe 8 rev.toNat ++ hash.val).length := by
      rw [List.length_append, hlength]
      omega
    show s.take SAVED (toBe 8 rev.toNat ++ hash.val) = _
    rw [Seen.take, if_neg hne, if_pos rfl, if_pos hbody]
    simp only [List.take_left' hlength, List.drop_left' hlength, if_pos hash.2, hrev]
    rfl

end Call

/-- A record that is whole is read, and a part of one is not. -/
theorem delimits : Delimits nextRecord Call.Fits (fun c => (c.kind, c.body)) Call.write where
  whole c hc rest := by
    obtain ⟨a, b, d, e, hlength⟩ : ∃ a b d e, toBe 4 c.body.length = [a, b, d, e] := ⟨_, _, _, _, rfl⟩
    have hback : ofBe [a, b, d, e] = c.body.length := hlength ▸ ofBe_toBe 4 _ hc
    have hle : c.body.length ≤ (c.body ++ rest).length := by simp
    rw [Call.write, hlength]
    simp only [List.cons_append, List.nil_append, nextRecord, hback]
    rw [if_pos hle, List.take_left, List.drop_left]
  torn c hc n hn := by
    obtain ⟨a, b, d, e, hlength⟩ : ∃ a b d e, toBe 4 c.body.length = [a, b, d, e] := ⟨_, _, _, _, rfl⟩
    have hback : ofBe [a, b, d, e] = c.body.length := hlength ▸ ofBe_toBe 4 _ hc
    rw [Call.write, hlength] at hn ⊢
    simp only [List.cons_append, List.nil_append, List.length_cons] at hn ⊢
    rcases n with _ | _ | _ | _ | _ | n
    iterate 5 rfl
    simp only [List.take_succ_cons, nextRecord, hback]
    rw [if_neg]
    rw [List.length_take]
    omega
  done := rfl

/-! ### Reading a log that is cut -/

theorem readRecords_none {seen : Seen} {rest : Bytes} (h : nextRecord rest = none) :
    readRecords seen rest = some (seen, rest) := by
  rw [readRecords]
  split
  · rfl
  · rename_i hsome
    rw [h] at hsome
    cases hsome

theorem readRecords_some {seen seen' : Seen} {kind : UInt8} {body rest tail : Bytes}
    (h : nextRecord rest = some ((kind, body), tail)) (hseen : seen.take kind body = some seen') :
    readRecords seen rest = readRecords seen' tail := by
  rw [readRecords]
  split
  · rename_i hnone
    rw [h] at hnone
    cases hnone
  · rename_i hsome
    rw [h] at hsome
    obtain ⟨⟨rfl, rfl⟩, rfl⟩ : (_ ∧ _) ∧ _ := by simpa using hsome
    rw [hseen]

/-- Of a log that is cut, the whole records are taken in, and the rest is left. -/
theorem readRecords_cut : ∀ {log : List Call} (seen : Seen) (n : Nat), (∀ c ∈ log, c.Fits) →
    ∃ rest, readRecords seen ((logged Call.write log).take n) =
        some ((wholeIn Call.write log n).foldl Call.seen seen, rest) ∧
      (logged Call.write log).take n = logged Call.write (wholeIn Call.write log n) ++ rest
  | [], seen, n, _ => by
    refine ⟨[], ?_, by simp [wholeIn]⟩
    rw [logged_nil, List.take_nil, readRecords_none delimits.done]
    rfl
  | c :: log, seen, n, hfits => by
    have hnext := delimits.next_cut (hfits c List.mem_cons_self) log n
    rw [wholeIn]
    by_cases hn : c.write.length ≤ n
    · rw [if_pos hn] at hnext
      obtain ⟨rest, hread, hrest⟩ :=
        @readRecords_cut log (Call.seen seen c) (n - c.write.length) fun c hc => hfits c (List.mem_cons_of_mem _ hc)
      refine ⟨rest, ?_, ?_⟩
      · rw [readRecords_some hnext (Call.take_seen seen c), if_pos hn]
        exact hread
      · rw [if_pos hn, logged_cons, logged_cons, List.take_append, List.take_of_length_le hn, hrest, List.append_assoc]
    · rw [if_neg hn] at hnext
      rw [if_neg hn]
      exact ⟨_, readRecords_none hnext, rfl⟩

/-! ### What a log says -/

/-- The changes of a log. -/
def changes (log : List Call) : List Bytes :=
  log.filterMap fun
    | .append change => some change
    | .saved _ _ => none

/-- The saves of a log, each with the hash of the file. -/
def saves (log : List Call) : List (UInt64 × Hash) :=
  log.filterMap fun
    | .append _ => none
    | .saved rev hash => some (rev, hash.val)

theorem foldl_seen : ∀ (log : List Call) (s : Seen), log.foldl Call.seen s =
    ⟨s.records ++ changes log, s.saved ++ (saves log).map (·.1.toNat),
      ((saves log).getLast?.map Prod.snd).or s.savedHash⟩
  | [], s => by simp [changes, saves]
  | .append change :: log, s => by
    rw [List.foldl_cons, foldl_seen log]
    simp [Call.seen, changes, saves]
  | .saved rev hash :: log, s => by
    rw [List.foldl_cons, foldl_seen log]
    have hchanges : changes (.saved rev hash :: log) = changes log := rfl
    have hsaves : saves (.saved rev hash :: log) = (rev, hash.val) :: saves log := rfl
    rw [hchanges, hsaves, List.map_cons, List.getLast?_cons]
    cases (saves log).getLast? <;> simp [Call.seen]

/-! ### A journal and its log -/

/-- One call; a call that fails leaves the journal as it is. -/
def Journal.call (j : Journal) : Call → Journal
  | .append change => (j.append change).getD j
  | .saved rev hash => (j.saved rev hash).getD j

/-- The folder after a crash that left the first `n` bytes of the records. -/
def Folder.cut (folder : Folder) (n : Nat) : Folder := { folder with records := folder.records.map (·.take n) }

/-- What a journal was started with. -/
structure Origin where
  path : String
  file : Bytes
  epoch : Nat
  firstRev : Nat
  seqs : Std.TreeMap String Nat

/-- What is found of a journal whose records are these. -/
def Origin.found (o : Origin) (log : List Call) : Found :=
  ⟨o.file, ⟨o.epoch, o.firstRev, o.seqs, (saves log).map (·.1.toNat)⟩, changes log, ⟨[]⟩,
    (saves log).getLast?.map Prod.snd⟩

variable {L : Libraries} {o : Origin} {j j' : Journal} {log : List Call}

/-- The journal is open, and its folder has what it was started with and the records of this log. -/
structure Holds (L : Libraries) (o : Origin) (j : Journal) (log : List Call) : Prop where
  isOpen : j.isOpen = true
  original : j.folder.original = some o.file
  «meta» : ∃ bytes, j.folder.meta = some bytes ∧ L.fromSlice bytes = some ⟨o.path, o.epoch, o.firstRev, o.seqs⟩
  assets : j.folder.assets = some []
  records : j.folder.records = some (logged Call.write log)
  bytes : j.bytes = (logged Call.write log).length
  fits : ∀ c ∈ log, c.Fits

theorem holds_start (hjson : ∀ bytes, L.toVec ⟨o.path, o.epoch, o.firstRev, o.seqs⟩ = some bytes →
      L.fromSlice bytes = some ⟨o.path, o.epoch, o.firstRev, o.seqs⟩)
    (h : start L o.path o.file o.epoch o.firstRev o.seqs = some j) : Holds L o j [] := by
  obtain ⟨bytes, hbytes, hj⟩ := Option.bind_eq_some_iff.mp h
  obtain rfl := Option.some.inj hj
  exact ⟨rfl, rfl, ⟨bytes, rfl, hjson bytes hbytes⟩, rfl, rfl, rfl, fun c hc => absurd hc List.not_mem_nil⟩

theorem call_eq (j : Journal) (c : Call) : j.call c = (j.record c.kind c.body).getD j := by
  cases c <;> rfl

/-- A call adds its record to the log when it goes well, and nothing when it fails. -/
theorem Holds.call (h : Holds L o j log) (c : Call) : Holds L o (j.call c) (if c.Fits then log ++ [c] else log) := by
  rw [call_eq, Journal.record]
  by_cases hc : c.Fits
  · have hlog : logged Call.write (log ++ [c]) = logged Call.write log ++ c.write := by
      rw [logged_append, logged_singleton]
    rw [if_pos hc, if_pos (show c.body.length < 2 ^ 32 from hc), Option.getD_some, if_pos h.isOpen]
    refine ⟨h.isOpen, h.original, h.meta, h.assets, ?_, ?_, ?_⟩
    · rw [hlog]
      simp only [h.records, Option.getD_some]
      rfl
    · have hbytes : j.bytes + c.write.length = (logged Call.write (log ++ [c])).length := by
        rw [hlog, List.length_append, h.bytes]
      exact hbytes
    · intro d hd
      rcases List.mem_append.mp hd with hd | hd
      · exact h.fits d hd
      · rwa [List.mem_singleton.mp hd]
  · rw [if_neg hc, if_neg (show ¬c.body.length < 2 ^ 32 from hc)]
    exact h

/-- After a crash the journal comes back with the records that are whole, and holds them from then on. -/
theorem Holds.find_cut (h : Holds L o j log) (n : Nat) :
    ∃ j', find L (j.folder.cut n) o.path = some (j', o.found (wholeIn Call.write log n)) ∧
      Holds L o j' (wholeIn Call.write log n) := by
  obtain ⟨bytes, hmeta, hjson⟩ := h.meta
  obtain ⟨rest, hread, hrest⟩ := @readRecords_cut log ⟨[], [], none⟩ n h.fits
  have hwhole : ((logged Call.write log).take n).length - rest.length =
      (logged Call.write (wholeIn Call.write log n)).length := by
    rw [hrest, List.length_append, Nat.add_sub_cancel]
  have hkept : ((logged Call.write log).take n).take (logged Call.write (wholeIn Call.write log n)).length =
      logged Call.write (wholeIn Call.write log n) := by
    rw [hrest, List.take_left]
  refine ⟨⟨{ j.folder with records := some (logged Call.write (wholeIn Call.write log n)) }, true,
    (logged Call.write (wholeIn Call.write log n)).length⟩, ?_, ?_⟩
  · simp only [find, Folder.cut, hmeta, h.original, h.assets, h.records, Option.map_some, Option.getD_some, hjson, hread,
      hwhole, hkept, bind, Option.bind_some, guard, if_true, pure]
    rw [foldl_seen]
    simp [Origin.found]
  · exact ⟨rfl, h.original, ⟨bytes, hmeta, hjson⟩, h.assets, rfl, rfl,
      fun c hc => h.fits c ((wholeIn_sub log n).subset hc)⟩

/-! ### Runs with crashes -/

/-- A call, or a crash that leaves so many bytes of the records and a restart after it. -/
inductive Event where
  | call (c : Call)
  | crash (n : Nat)

def Journal.next (L : Libraries) (path : String) (j : Journal) : Event → Option Journal
  | .call c => some (j.call c)
  | .crash n => (find L (j.folder.cut n) path).map Prod.fst

/-- What an event makes of the log. -/
def logAfter (log : List Call) : Event → List Call
  | .call c => if c.Fits then log ++ [c] else log
  | .crash n => wholeIn Call.write log n

/-- Through every run of calls and crashes the journal goes on, and its folder has the log. -/
theorem holds_run (h : Holds L o j log) (events : List Event) :
    ∃ j', events.foldlM (Journal.next L o.path) j = some j' ∧ Holds L o j' (events.foldl logAfter log) := by
  induction events generalizing j log with
  | nil => exact ⟨j, rfl, h⟩
  | cons event events ih =>
    have hnext : ∃ j', j.next L o.path event = some j' ∧ Holds L o j' (logAfter log event) := by
      cases event with
      | call c => exact ⟨_, rfl, h.call c⟩
      | crash n =>
        obtain ⟨j', hfind, hj'⟩ := h.find_cut n
        exact ⟨j', by rw [Journal.next, hfind]; rfl, hj'⟩
    obtain ⟨j₁, hj₁, h₁⟩ := hnext
    obtain ⟨j', hj', h'⟩ := ih h₁
    refine ⟨j', ?_, h'⟩
    rw [List.foldlM_cons, hj₁]
    exact hj'

theorem holds_calls (h : Holds L o j log) (calls : List Call) :
    Holds L o (calls.foldl Journal.call j) (log ++ calls.filter (·.Fits)) := by
  induction calls generalizing j log with
  | nil => rwa [List.filter_nil, List.append_nil]
  | cons c calls ih =>
    have hrest := ih (h.call c)
    rw [List.foldl_cons, List.filter_cons]
    by_cases hc : c.Fits
    · rw [if_pos (decide_eq_true hc)]
      rw [if_pos hc, List.append_assoc] at hrest
      exact hrest
    · rw [if_neg (by simpa using hc)]
      rwa [if_neg hc] at hrest

/-- A journal that finds its folder as it left it has everything. -/
theorem Holds.find_all (h : Holds L o j log) : ∃ j', find L j.folder o.path = some (j', o.found log) := by
  obtain ⟨j', hfind, -⟩ := h.find_cut (logged Call.write log).length
  have hcut : j.folder.cut (logged Call.write log).length = j.folder := by
    cases hfolder : j.folder with
    | mk original records «meta» assets =>
      have hrecords : records = some (logged Call.write log) := by rw [← h.records, hfolder]
      simp only [Folder.cut, hrecords, Option.map_some, List.take_length]
  rw [hcut, wholeIn_all (Nat.le_refl _)] at hfind
  exact ⟨j', hfind⟩

/-- Of every run of calls on a journal that was started, and every part of the records that a crash leaves, `find` gives
    what the longest run of whole records says and cuts off the rest; after more calls it gives that and the new
    records; and of a complete file it gives everything. -/
theorem find_whole_records (hjson : ∀ bytes, L.toVec ⟨o.path, o.epoch, o.firstRev, o.seqs⟩ = some bytes →
      L.fromSlice bytes = some ⟨o.path, o.epoch, o.firstRev, o.seqs⟩)
    (hstart : start L o.path o.file o.epoch o.firstRev o.seqs = some j) (calls : List Call) (n : Nat) :
    let written := calls.filter (·.Fits)
    let left := calls.foldl Journal.call j
    left.folder.records = some (logged Call.write written) ∧
    ∃ whole, (whole <+: written ∧ (logged Call.write whole).length ≤ n ∧
        ∀ longer, longer <+: written → (logged Call.write longer).length ≤ n → longer <+: whole) ∧
      (∃ j', find L (left.folder.cut n) o.path = some (j', o.found whole) ∧
        j'.folder.records = some (logged Call.write whole) ∧
        ∀ more : List Call, ∃ j'', find L (more.foldl Journal.call j').folder o.path =
          some (j'', o.found (whole ++ more.filter (·.Fits)))) ∧
      ((logged Call.write written).length ≤ n → whole = written) := by
  have hleft := holds_calls (holds_start hjson hstart) calls
  obtain ⟨j', hfind, hj'⟩ := hleft.find_cut n
  exact ⟨hleft.records, _, ⟨wholeIn_sub _ n, length_wholeIn_le _ n, fun _ => wholeIn_longest⟩,
    ⟨j', hfind, hj'.records, fun more => (holds_calls hj' more).find_all⟩, wholeIn_all⟩

/-! ### A torn record -/

/-- The journal of the file "file", with a JSON of that one text. -/
def fileOrigin : Origin := ⟨"/files/a.docx", utf8 "file", 7, 0, ∅⟩

def oneMeta : Libraries where
  toVec _ := some (utf8 "\x7b\"path\":\"/files/a.docx\",\"epoch\":7,\"firstRev\":0,\"seqs\":\x7b\x7d\x7d")
  fromSlice _ := some ⟨fileOrigin.path, fileOrigin.epoch, fileOrigin.firstRev, fileOrigin.seqs⟩
  sha256 bytes := bytes

theorem holds_run_torn : ∃ j, start oneMeta "/files/a.docx" (utf8 "file") 7 0 ∅ = some j ∧
    ∃ j', [Event.call (.append [1, 2]), .call (.append [3]), .crash 10, .call (.append [4]), .crash 99].foldlM
      (Journal.next oneMeta "/files/a.docx") j = some j' ∧ Holds oneMeta fileOrigin j' [.append [1, 2], .append [4]] :=
  ⟨_, rfl, holds_run (o := fileOrigin) (holds_start (fun _ _ => rfl) rfl) _⟩

/-- A journal of two changes whose second record is torn has the first, and with the next change both. -/
theorem find_whole_records_torn : ∃ j, start oneMeta "/files/a.docx" (utf8 "file") 7 0 ∅ = some j ∧
    let left := [Call.append [1, 2], .append [3]].foldl Journal.call j
    ∃ j' j'', find oneMeta (left.folder.cut 10) "/files/a.docx" = some (j', fileOrigin.found [.append [1, 2]]) ∧
      find oneMeta ([Call.append [4]].foldl Journal.call j').folder "/files/a.docx" =
        some (j'', fileOrigin.found [.append [1, 2], .append [4]]) := by
  refine ⟨_, rfl, ?_⟩
  obtain ⟨-, whole, ⟨hsub, hlength, hlongest⟩, ⟨j', hfind, -, hmore⟩, -⟩ :=
    find_whole_records (L := oneMeta) (o := fileOrigin) (fun _ _ => rfl) rfl [.append [1, 2], .append [3]] 10
  have hwhole : whole = [.append [1, 2]] := by
    have hfirst := hlongest [.append [1, 2]] ⟨[.append [3]], rfl⟩ (by decide)
    match whole, hsub, hlength, hfirst with
    | [], _, _, hfirst => exact absurd hfirst.length_le (by decide)
    | [_], _, _, hfirst => exact (hfirst.eq_of_length rfl).symm
    | c :: d :: whole, hsub, hlength, _ =>
      have hall := hsub.eq_of_length_le (Nat.le_add_left 2 whole.length)
      rw [hall] at hlength
      exact absurd hlength (by decide)
  obtain ⟨j'', hagain⟩ := hmore [.append [4]]
  rw [hwhole] at hfind hagain
  exact ⟨j', j'', hfind, hagain⟩

end Kodosi.Documents.OnDisk
