import Kodosi.Documents.Journal

/-! The history of a document over its whole life: every change that went in the order, across the
    restarts that build the document again from its journal and the rebases that start the journal
    again. Each client's changes are in it once, and in the order of their seqs. -/

namespace Kodosi.Documents
open Kodosi.Lib

/-- The part of a change that tells which one it is. -/
structure Stamp where
  rev : Nat
  client : String
  seq : Nat

variable {M C Q : Type} {F : Format M C Q} {W : Wire}

def Ordered.stamp (o : Ordered C) : Stamp := ⟨o.rev, o.client, o.seq⟩

def Changed.stamp (c : Changed) : Stamp := ⟨c.rev, c.client, c.seq⟩

/-- A record reads back with the rev, the client and the seq that were written. -/
def Wire.KeepsStamps (W : Wire) : Prop :=
  ∀ c c', W.readRecord (W.recordOf c) = .ok c' → c'.stamp = c.stamp

/-- The changes of clients: a write of another program has no seq. -/
def accepted (history : List Stamp) : List Stamp := history.filter (0 < ·.seq)

/-- The accepted seqs of one client. -/
def seqsOf (history : List Stamp) (client : String) : List Nat :=
  ((accepted history).filter (·.client = client)).map (·.seq)

/-- The greatest accepted seq of one client. -/
def greatest (history : List Stamp) (client : String) : Nat := (seqsOf history client).foldl max 0

/-! ### One life of a document -/

/-- A document with its journal and, for the proofs, every change that went in its order. -/
structure Life (M C : Type) where
  doc : Document M C
  journal : Journal M
  history : List Stamp

inductive Event where
  | input (i : Input)
  /-- The document is built again from its journal, with the assets that were kept. -/
  | restart (kept : Assets)

namespace Life

def start (d : Document M C) : Life M C := ⟨d, .start d, []⟩

/-- A life after one input. -/
def input (F : Format M C Q) (W : Wire) (l : Life M C) (i : Input) : Life M C :=
  let out := l.doc.step F W i
  ⟨out.1, l.journal.keep i out, l.history ++ (commits (l.doc.acts F W i)).map (·.entry.stamp)⟩

inductive Next (F : Format M C Q) (W : Wire) (l : Life M C) : Event → Life M C → Prop
  | input (i : Input) : Next F W l (.input i) (l.input F W i)
  | restart {kept : Assets} {d : Document M C}
      (restored : Document.restore F W l.journal.file l.journal.restored l.journal.records kept =
        .ok d) : Next F W l (.restart kept) { l with doc := d }

end Life

/-! ### The seqs of a history -/

theorem accepted_append (h h' : List Stamp) : accepted (h ++ h') = accepted h ++ accepted h' := by
  simp [accepted]

theorem seqsOf_append (h h' : List Stamp) (client : String) :
    seqsOf (h ++ h') client = seqsOf h client ++ seqsOf h' client := by
  simp [seqsOf, accepted]

theorem seqsOf_single (s : Stamp) (client : String) :
    seqsOf [s] client = if 0 < s.seq ∧ s.client = client then [s.seq] else [] := by
  by_cases hs : 0 < s.seq <;> by_cases hc : s.client = client <;> simp [seqsOf, accepted, hs, hc]

variable {h : List Stamp}

theorem le_greatest {client : String} {n : Nat} (hn : n ∈ seqsOf h client) : n ≤ greatest h client := by
  have hmax : ∀ (l : List Nat) (m : Nat), m ≤ l.foldl max m ∧ ∀ n ∈ l, n ≤ l.foldl max m := by
    intro l
    induction l with
    | nil => simp
    | cons x l ih =>
      intro m
      obtain ⟨hm, hl⟩ := ih (max m x)
      refine ⟨le_trans (le_max_left m x) hm, fun n hn => ?_⟩
      rcases List.mem_cons.mp hn with rfl | hn
      · exact le_trans (le_max_right m n) hm
      · exact hl n hn
  exact (hmax _ 0).2 n hn

/-- Accepted changes of one client have rising seqs. -/
def Rising (history : List Stamp) : Prop :=
  (accepted history).Pairwise fun a b => a.client = b.client → a.seq < b.seq

/-- A change with a new seq of its client keeps the seqs rising. -/
theorem Rising.append (hr : Rising h) {s : Stamp} (hs : s.seq = 0 ∨ greatest h s.client < s.seq) :
    Rising (h ++ [s]) := by
  rw [Rising, accepted_append, List.pairwise_append]
  refine ⟨hr, ?_, ?_⟩
  · rcases Nat.eq_zero_or_pos s.seq with h0 | hpos
    · simp [accepted, h0]
    · simp [accepted, hpos]
  · intro a ha b hb hclient
    obtain ⟨hb, hpos⟩ := List.mem_filter.mp hb
    obtain rfl := List.mem_singleton.mp hb
    have hle : a.seq ≤ greatest h b.client :=
      le_greatest (List.mem_map.mpr ⟨a, List.mem_filter.mpr ⟨ha, by simpa using hclient⟩, rfl⟩)
    have hpos' : 0 < b.seq := by simpa using hpos
    omega

theorem Rising.seqsOf (hr : Rising h) (client : String) : (seqsOf h client).Pairwise (· < ·) := by
  rw [Documents.seqsOf, List.pairwise_map]
  refine (hr.filter _).imp_of_mem ?_
  intro a b ha hb hab
  have ha' := (List.mem_filter.mp ha).2
  have hb' := (List.mem_filter.mp hb).2
  simp only [decide_eq_true_eq] at ha' hb'
  exact hab (ha'.trans hb'.symm)

theorem Rising.nodup (hr : Rising h) : ((accepted h).map fun s => (s.client, s.seq)).Nodup := by
  rw [List.Nodup, List.pairwise_map]
  refine List.Pairwise.imp ?_ hr
  intro a b hab heq
  obtain ⟨hclient, hseq⟩ := Prod.mk.inj heq
  have := hab hclient
  omega

theorem greatest_append (h : List Stamp) (s : Stamp) (client : String)
    (hs : s.seq = 0 ∨ greatest h s.client < s.seq) :
    greatest (h ++ [s]) client = if 0 < s.seq ∧ s.client = client then s.seq else greatest h client := by
  rw [greatest, seqsOf_append, List.foldl_append, seqsOf_single]
  split
  · rename_i hc
    obtain ⟨hpos, rfl⟩ := hc
    have : greatest h s.client < s.seq := by omega
    exact max_eq_right this.le
  · rfl

/-! ### What a document knows of its history -/

/-- The part of an order that tells which changes it has. -/
structure Tip where
  firstRev : Nat
  rev : Nat
  log : List Stamp
  seqs : Std.TreeMap String Nat

def Core.tip (k : Core M C) : Tip := ⟨k.firstRev, k.rev, k.log.map (·.stamp), k.seqs⟩

namespace Tip

def put (t : Tip) (s : Stamp) : Tip :=
  { t with
    rev := s.rev
    log := t.log ++ [s]
    seqs := if 0 < s.seq then t.seqs.insert s.client s.seq else t.seqs }

def lastSeq (t : Tip) (client : String) : Nat := t.seqs[client]?.getD 0

/-- A tip that tells a history: the revs count the changes from one, the log is what came after its
    first rev, and the seqs are the greatest ones that each client has in the history. -/
structure Tells (t : Tip) (h : List Stamp) : Prop where
  rev : t.rev = h.length
  revs : ∀ i s, h[i]? = some s → s.rev = i + 1
  first : t.firstRev ≤ h.length
  log : t.log = h.drop t.firstRev
  last : ∀ client, t.lastSeq client = greatest h client
  rising : Rising h

theorem lastSeq_put (t : Tip) (s : Stamp) (client : String) :
    (t.put s).lastSeq client = if 0 < s.seq ∧ s.client = client then s.seq else t.lastSeq client := by
  unfold lastSeq put
  by_cases hs : 0 < s.seq
  · by_cases hc : s.client = client
    · simp [hs, hc]
    · simp [hs, hc, Std.TreeMap.getElem?_insert]
  · simp [hs]

theorem Tells.start (d : Document M C) (hrev : d.rev = 0) (hfirst : d.firstRev = 0)
    (hlog : d.log = []) (hseqs : d.seqs = ∅) : d.core.tip.Tells [] := by
  refine ⟨hrev, by simp, by simp [Core.tip, Document.core, hfirst], ?_, ?_, .nil⟩
  · simp [Core.tip, Document.core, hlog]
  · intro client
    simp [lastSeq, Core.tip, Document.core, hseqs, greatest, seqsOf, accepted]

variable {h : List Stamp}

theorem Tells.put {t : Tip} (ht : t.Tells h) {s : Stamp} (hrev : s.rev = t.rev + 1)
    (hs : s.seq = 0 ∨ t.lastSeq s.client < s.seq) : (t.put s).Tells (h ++ [s]) := by
  have hgreat : s.seq = 0 ∨ greatest h s.client < s.seq := by rwa [← ht.last]
  refine ⟨?_, ?_, ?_, ?_, ?_, ht.rising.append hgreat⟩
  · rw [List.length_append, ← ht.rev]
    exact hrev
  · intro i s' hi
    rcases Nat.lt_or_ge i h.length with hlt | hge
    · rw [List.getElem?_append_left hlt] at hi
      exact ht.revs i s' hi
    · -- the new change is the last one
      rw [List.getElem?_append_right hge, List.getElem?_singleton] at hi
      split at hi
      · obtain rfl := Option.some.inj hi
        have := ht.rev
        omega
      · simp at hi
  · rw [List.length_append]
    exact le_trans ht.first (by omega)
  · show t.log ++ [s] = (h ++ [s]).drop t.firstRev
    rw [List.drop_append_of_le_length ht.first, ht.log]
  · intro client
    rw [lastSeq_put, greatest_append h s client hgreat, ht.last]

theorem Tells.rebase {k : Core M C} (hk : k.tip.Tells h) (file : Bytes) (epoch : Nat) :
    (k.rebase file epoch).tip.Tells h := by
  refine ⟨hk.rev, hk.revs, hk.rev.le, ?_, hk.last, hk.rising⟩
  show [] = h.drop k.rev
  exact (List.drop_of_length_le hk.rev.ge).symm

theorem tip_put (k : Core M C) (c : Commit M C) : (k.put c).tip = k.tip.put c.entry.stamp := by
  simp only [Core.tip, Core.put, List.map_append]
  rfl

/-- Puts tell the history on. -/
theorem Tells.puts {k k' : Core M C} {cs : List (Commit M C)} (hrun : Run (Core.Put F) k cs k') (hk : k.tip.Tells h) :
    k'.tip.Tells (h ++ cs.map (·.entry.stamp)) ∧ k'.tip = (cs.map (·.entry.stamp)).foldl Tip.put k.tip := by
  induction hrun with
  | nil => exact ⟨by simpa using hk, rfl⟩
  | snoc _ hnext ih =>
    obtain ⟨hfits, rfl⟩ := hnext
    obtain ⟨htells, htip⟩ := ih
    rw [tip_put, List.map_append, List.map_singleton, List.foldl_append, ← htip, ← List.append_assoc]
    exact ⟨htells.put hfits.rev hfits.seq, rfl⟩

end Tip

/-! ### Replay keeps the tip -/

variable {d : Document M C}

theorem tip_replay (hW : W.KeepsStamps) {d' : Document M C} {c : Changed}
    (h : d.replayRecord F W (W.recordOf c) = .ok d') : d'.core.tip = d.core.tip.put c.stamp := by
  unfold Document.replayRecord at h
  split at h
  · simp at h
  rename_i changed hread
  have hstamp := hW c changed hread
  rw [← hstamp]
  unfold Document.replay at h
  split at h
  · simp at h
  split at h
  · simp at h
  obtain rfl := Except.ok.inj h
  simp only [Core.tip, Document.core, List.map_append]
  rfl

theorem tip_replays (hW : W.KeepsStamps) : ∀ (cs : List Changed) {d d' : Document M C},
    (cs.map W.recordOf).foldlM (Document.replayRecord F W) d = .ok d' →
    d'.core.tip = (cs.map (·.stamp)).foldl Tip.put d.core.tip
  | [], d, d', h => by
    obtain rfl := Except.ok.inj h
    rfl
  | c :: cs, d, d', h => by
    rw [List.map_cons, List.foldlM_cons] at h
    cases hd : d.replayRecord F W (W.recordOf c) with
    | error e =>
      rw [hd] at h
      simp [bind, Except.bind] at h
    | ok d₁ =>
      rw [hd] at h
      rw [List.map_cons, List.foldl_cons, ← tip_replay hW hd]
      exact tip_replays hW cs h

/-- The tip that a journal starts at. -/
def Journal.tip (j : Journal M) : Tip := ⟨j.firstRev, j.firstRev, [], j.seqs⟩

theorem tip_restore (hW : W.KeepsStamps) {j : Journal M} {cs : List Changed} {kept : Assets}
    (hrecords : j.records = cs.map W.recordOf) (h : Document.restore F W j.file j.restored j.records kept = .ok d) :
    d.core.tip = (cs.map (·.stamp)).foldl Tip.put j.tip := by
  unfold Document.restore at h
  cases hopen : Document.openFile F j.file j.restored.epoch kept with
  | error e =>
    rw [hopen] at h
    simp [bind, Except.bind] at h
  | ok d₀ =>
    rw [hopen, hrecords] at h
    have hlog : d₀.log = [] := by
      simp only [Document.openFile, bind, Except.bind] at hopen
      split at hopen
      · simp at hopen
      · obtain rfl := Except.ok.inj hopen
        rfl
    have := tip_replays hW cs h
    simpa only [Core.tip, Document.core, hlog, Journal.tip, Journal.restored, List.map_nil] using this

/-! ### The invariant of a life -/

/-- The document and its journal both tell the history. -/
structure Life.Valid (W : Wire) (l : Life M C) : Prop where
  tells : l.doc.core.tip.Tells l.history
  journal : ∃ cs : List Changed, l.journal.records = cs.map W.recordOf ∧
    l.doc.core.tip = (cs.map (·.stamp)).foldl Tip.put l.journal.tip

theorem Life.valid_start {file : Bytes} {epoch : Nat} {assets : Assets}
    (hopen : Document.openFile F file epoch assets = .ok d) : (Life.start d).Valid W := by
  simp only [Document.openFile, bind, Except.bind] at hopen
  split at hopen
  · simp at hopen
  · obtain rfl := Except.ok.inj hopen
    exact ⟨.start _ rfl rfl rfl rfl, [], rfl, rfl⟩

theorem Life.valid_input (hF : F.RefusesClean) {l : Life M C} (hl : l.Valid W) (i : Input) :
    (l.input F W i).Valid W := by
  obtain ⟨htells, cs, hrecords, htip⟩ := hl
  have hputs : (∀ rev, i ≠ .saved rev) → (∀ file epoch, i ≠ .rebased file epoch) →
      (Life.mk (l.doc.step F W i).1
        { l.journal with records := l.journal.records ++ appends (l.doc.step F W i).2 }
        (l.history ++ (commits (l.doc.acts F W i)).map (·.entry.stamp))).Valid W := by
    intro hsaved hrebased
    obtain ⟨happ, hrun⟩ := l.doc.step_puts (W := W) hF i hsaved hrebased
    obtain ⟨htells', htip'⟩ := htells.puts hrun
    refine ⟨htells', cs ++ (commits (l.doc.acts F W i)).map (changedOf F ·.entry), ?_, ?_⟩
    · show l.journal.records ++ _ = _
      rw [hrecords, happ, List.map_append, List.map_map]
      rfl
    · rw [htip', htip, List.map_append, List.foldl_append, List.map_map]
      rfl
  cases i with
  | rebased file epoch =>
    refine ⟨?_, [], rfl, rfl⟩
    rw [Life.input, Document.acts, commits, List.filterMap_cons_none rfl, List.filterMap_nil,
      List.map_nil, List.append_nil]
    exact htells.rebase file epoch
  | saved rev =>
    refine ⟨?_, cs, hrecords, htip⟩
    rw [Life.input, Document.acts, commits, List.filterMap_cons_none rfl, List.filterMap_nil,
      List.map_nil, List.append_nil]
    exact htells
  | connected | message | left | fileChanged | save | saveWaits | closing =>
    exact hputs (by simp) (by simp)

theorem Life.valid_step (hF : F.RefusesClean) (hW : W.KeepsStamps) {l l' : Life M C} {e : Event}
    (hl : l.Valid W) (hnext : Life.Next F W l e l') : l'.Valid W := by
  cases hnext with
  | input i => exact Life.valid_input hF hl i
  | restart hrestore =>
    -- the restored document has the tip of the one that was lost
    obtain ⟨htells, cs, hrecords, htip⟩ := hl
    have htip' := tip_restore hW hrecords hrestore
    refine ⟨?_, cs, hrecords, htip'⟩
    rw [htip', ← htip]
    exact htells

/-! ### Every reachable state -/

/-- Whether a message does not count: it is refused, or its pipe is ended, or it cannot be read, or it is
    a change that its client sent before. -/
def Uncounted (F : Format M C Q) (W : Wire) (d : Document M C) (pipe : Nat) (frame : Bytes) : Prop :=
  (∃ e ∈ (d.step F W (.message pipe frame)).2, e.refuses) ∨ decode W frame = none ∨
    ∃ seq base body seat client, decode W frame = some (.message (.change seq base body)) ∧
      d.seats[pipe]? = some seat ∧ seat.client = some client ∧ seq ≤ d.lastSeq client

theorem core_uncounted (hF : F.RefusesClean) {pipe : Nat} {frame : Bytes} (h : Uncounted F W d pipe frame) :
    (d.step F W (.message pipe frame)).1.core = d.core := by
  rcases d.message_cases (W := W) hF pipe frame with hm | ⟨_, _, _, _, _, hm⟩ |
    ⟨seq, base, body, hframe, hm⟩
  · exact hm.core
  · exact hm.core
  · -- a change that is taken is none of these
    exfalso
    rcases h with ⟨e, he, hrefuses⟩ | hnone | ⟨_, _, _, seat, client, hchange, hseat, hclient, hle⟩
    · rw [hm.quiet e he] at hrefuses
      simp at hrefuses
    · rw [hnone] at hframe
      simp at hframe
    · obtain ⟨seat', client', hseat', hclient', hlt⟩ := hm.unseen
      rw [hframe] at hchange
      obtain ⟨rfl, -, -⟩ : seq = _ ∧ _ ∧ _ := by simpa using hchange
      obtain rfl : seat = seat' := Option.some.inj (hseat.symm.trans hseat')
      obtain rfl : client = client' := Option.some.inj (hclient.symm.trans hclient')
      omega

/-- A view hears of a state only as the answer to its join. -/
theorem joined_answers (hF : F.RefusesClean) {i : Input} {p : Nat} {client name : String} {canEdit : Bool}
    {epoch rev seq : Nat} {peers : List Peer} {catchup : Catchup}
    (h : .joined client name canEdit epoch rev seq peers catchup ∈ news p (d.step F W i).2) :
    seq = d.lastSeq client := by
  obtain ⟨_, h⟩ | ⟨_, _, _, _, _, -, -, -, _, _, _, h⟩ := Document.news_cases hF h
  · cases h
  · cases h
    rfl

/-- In every state of every life the order's revs are contiguous, each client's changes are in the
    history once and with rising seqs, a join is answered with the greatest of them, and a message that
    does not count changes nothing. -/
theorem history_holds (hF : F.RefusesClean) (hW : W.KeepsStamps) {file : Bytes} {epoch : Nat}
    {assets : Assets} {d₀ : Document M C} (hopen : Document.openFile F file epoch assets = .ok d₀)
    {events : List Event} {l : Life M C} (hrun : Run (Life.Next F W) (.start d₀) events l) :
    (l.doc.rev = l.doc.firstRev + l.doc.log.length ∧
      ∀ i e, l.doc.log[i]? = some e → e.rev = l.doc.firstRev + i + 1) ∧
    (l.history.map (·.rev) = List.range' 1 l.doc.rev ∧
      l.doc.log.map (·.stamp) = l.history.drop l.doc.firstRev) ∧
    ((accepted l.history).map fun s => (s.client, s.seq)).Nodup ∧
    (∀ client, (seqsOf l.history client).Pairwise (· < ·)) ∧
    (∀ i p client name canEdit epoch rev seq peers catchup,
      .joined client name canEdit epoch rev seq peers catchup ∈ news p (l.doc.step F W i).2 →
      seq = greatest l.history client) ∧
    (∀ pipe frame, Uncounted F W l.doc pipe frame →
      let d := (l.doc.step F W (.message pipe frame)).1
      d.model = l.doc.model ∧ d.rev = l.doc.rev ∧ d.log = l.doc.log ∧ d.seqs = l.doc.seqs) := by
  have hvalid : l.Valid W :=
    hrun.invariant (fun hl hnext => Life.valid_step hF hW hl hnext) (Life.valid_start hopen)
  have ht := hvalid.tells
  have hlog : l.doc.log.map (·.stamp) = l.history.drop l.doc.firstRev := ht.log
  have hrev : l.doc.rev = l.history.length := ht.rev
  have hfirst : l.doc.firstRev ≤ l.history.length := ht.first
  have hlen : l.doc.log.length = l.history.length - l.doc.firstRev := by
    rw [← List.length_map (f := Ordered.stamp), hlog, List.length_drop]
  refine ⟨⟨by omega, ?_⟩, ⟨?_, hlog⟩, ht.rising.nodup, ht.rising.seqsOf, ?_, ?_⟩
  · intro i e he
    have hstamp : (l.doc.log.map (·.stamp))[i]? = some e.stamp := by simp [he]
    rw [hlog, List.getElem?_drop] at hstamp
    have := ht.revs _ _ hstamp
    exact this
  · refine List.ext_getElem (by simp [hrev]) fun i hi _ => ?_
    rw [List.length_map] at hi
    have := ht.revs i _ (List.getElem?_eq_getElem hi)
    simp only [List.getElem_map, List.getElem_range', this]
    omega
  · intro i p client name canEdit epoch rev seq peers catchup hmem
    rw [joined_answers hF hmem]
    exact ht.last client
  · intro pipe frame hun
    have hcore := core_uncounted hF hun
    exact ⟨congrArg Core.model hcore, congrArg Core.rev hcore, congrArg Core.log hcore,
      congrArg Core.seqs hcore⟩

theorem Tally.keepsStamps : wire.KeepsStamps := by
  intro c c' h
  rw [readRecord_recordOf] at h
  rw [← Except.ok.inj h]
  rfl

/-- A view joins, sends one change twice and has it in the history once. -/
theorem history_holds_tally :
    let l := ((((Life.start Tally.opened).input Tally.format Tally.wire
      (.connected 1 ⟨"ana", "ana", true⟩)).input Tally.format Tally.wire
      (.message 1 [0, 0, 0, 0])).input Tally.format Tally.wire
      (.message 1 [0, 1, 1, 0, 2])).input Tally.format Tally.wire (.message 1 [0, 1, 1, 0, 2])
    l.history.map (fun s => (s.client, s.seq)) = [("ana", 1)] ∧
      l.history.map (·.rev) = List.range' 1 l.doc.rev := by
  intro l
  have hrun : Run (Life.Next Tally.format Tally.wire) (.start Tally.opened) _ l :=
    (((Run.nil.snoc (.input _)).snoc (.input _)).snoc (.input _)).snoc (.input _)
  exact ⟨by decide, (history_holds Tally.refusesClean Tally.keepsStamps
    (Tally.opens [0] (by simp) 1 ⟨[]⟩) hrun).2.1.1⟩

end Kodosi.Documents
