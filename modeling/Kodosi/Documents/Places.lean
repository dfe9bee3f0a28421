import Kodosi.Documents.History

/-! Where people are in a live document: the place of a seat is the body that its view sent, moved across
    every change that was ordered after the rev it was sent at, whether the change came before the place or
    after it. -/

namespace Kodosi.Documents

open Lib

variable {M C Q : Type} {F : Format M C Q} {W : Wire}

/-! ### A life with its places -/

/-- A place moved across changes, one after the other. -/
def moved (F : Format M C Q) (body : Value) (entries : List (Ordered C)) : Value :=
  entries.foldl (fun body entry => F.mapPlace body entry.change) body

/-- A life with, for the proofs, every change of its order, and for each pipe the rev and the body of the last
    place that the document kept from it. A pipe that connects is nowhere yet. -/
structure Placed (M C : Type) where
  life : Life M C
  order : List (Ordered C)
  sent : Nat → Nat × Value

namespace Placed

def start (d : Document M C) : Placed M C := ⟨.start d, [], fun _ => (0, .null)⟩

/-- What the pipes have sent after one input. A place is kept from a pipe that joined, and when the log still
    holds the changes after its rev. -/
def told (W : Wire) (d : Document M C) (sent : Nat → Nat × Value) : Input → Nat → Nat × Value
  | .connected pipe _ => Function.update sent pipe (d.rev, .null)
  | .message pipe frame =>
    match decode W frame with
    | some (.message (.place rev body)) =>
      if d.hasJoined pipe = true ∧ (d.logSince rev).isSome then Function.update sent pipe (rev, body) else sent
    | _ => sent
  | _ => sent

def input (F : Format M C Q) (W : Wire) (p : Placed M C) (i : Input) : Placed M C :=
  ⟨p.life.input F W i, p.order ++ (commits (p.life.doc.acts F W i)).map (·.entry), told W p.life.doc p.sent i⟩

/-- A restart reads the changes since the first rev again from the journal. -/
inductive Next (F : Format M C Q) (W : Wire) (p : Placed M C) : Event → Placed M C → Prop
  | input (i : Input) : Next F W p (.input i) (p.input F W i)
  | restart {kept : Assets} {life : Life M C} (restarted : Life.Next F W p.life (.restart kept) life) :
      Next F W p (.restart kept) ⟨life, p.order.take life.doc.firstRev ++ life.doc.log, p.sent⟩

end Placed

/-! ### What one step does to the places -/

namespace Document

/-- Each place is the one it was, moved across these changes. -/
def SeatsMove (F : Format M C Q) (d d' : Document M C) (entries : List (Ordered C)) : Prop :=
  ∀ (pipe : Nat) (seat' : Seat), d'.seats[pipe]? = some seat' →
    ∃ seat : Seat, d.seats[pipe]? = some seat ∧ seat'.place = moved F seat.place entries

variable {d : Document M C}

theorem SeatsMove.same {d' : Document M C} (h : d'.seats = d.seats) : SeatsMove F d d' [] := by
  intro pipe seat' hseat
  rw [h] at hseat
  exact ⟨seat', hseat, rfl⟩

theorem SeatsMove.trans {d' d'' : Document M C} {es es' : List (Ordered C)} (h : SeatsMove F d d' es)
    (h' : SeatsMove F d' d'' es') : SeatsMove F d d'' (es ++ es') := by
  intro pipe seat'' hseat
  obtain ⟨seat', hseat', hplace'⟩ := h' pipe seat'' hseat
  obtain ⟨seat, hseat, hplace⟩ := h pipe seat' hseat'
  refine ⟨seat, hseat, ?_⟩
  rw [hplace', hplace, moved, moved, moved, List.foldl_append]

theorem seatsMove_ordered (d : Document M C) (change : C) (author client : String) (seq : Nat) :
    SeatsMove F d (d.ordered F W change author client seq).1 [⟨d.rev + 1, author, client, seq, change⟩] := by
  intro pipe seat' hseat
  simp only [ordered, Std.TreeMap.getElem?_map, Option.map_eq_some_iff] at hseat
  obtain ⟨seat, hseat, rfl⟩ := hseat
  exact ⟨seat, hseat, rfl⟩

theorem seatsMove_orderAll (writer : String) : ∀ (changes : List C) (d : Document M C),
    SeatsMove F d (orderAll F W writer changes d).1 ((outside F W writer changes d).map (·.entry))
  | [], d => .same rfl
  | c :: changes, d => by
    rw [outside, orderAll]
    rcases F.apply d.model c [] d.assets with ⟨r, model, assets⟩
    cases r with
    | error refused => exact seatsMove_orderAll writer changes { d with model, assets }
    | ok c' =>
      have hone := seatsMove_ordered (F := F) (W := W) { d with model, assets } c' writer s!"file:{writer}" 0
      exact hone.trans (seatsMove_orderAll writer changes _)

theorem seatsMove_unseat (d : Document M C) (pipes : List Nat) : SeatsMove F d (d.unseat pipes) [] := by
  have herase : ∀ (pipes : List Nat) (seats : Std.TreeMap Nat Seat) (pipe : Nat) (seat : Seat),
      (pipes.foldl (·.erase ·) seats)[pipe]? = some seat → seats[pipe]? = some seat := by
    intro pipes
    induction pipes with
    | nil => exact fun _ _ _ h => h
    | cons gone pipes ih =>
      intro seats pipe seat h
      have h := ih _ pipe seat h
      rw [Std.TreeMap.getElem?_erase] at h
      split at h
      · cases h
      · exact h
  exact fun pipe seat hseat => ⟨seat, herase pipes d.seats pipe seat hseat, rfl⟩

theorem seatsMove_leftPipe (d : Document M C) (pipe : Nat) : SeatsMove F d (d.leftPipe pipe).1 [] := by
  rw [leftPipe]
  split
  · exact .same rfl
  · split <;> exact seatsMove_unseat d _

theorem seatsMove_join (d : Document M C) (pipe contract : Nat) (client : String) (epoch rev : Nat) :
    SeatsMove F d (d.join F pipe contract client epoch rev).1 [] := by
  rw [join]
  by_cases hcontract : contract ≠ CONTRACT
  · rw [if_pos hcontract]
    exact .same rfl
  rw [if_neg hcontract]
  dsimp only
  split
  · exact seatsMove_unseat d _
  · rename_i seat hseat
    refine (seatsMove_unseat d (d.pipesOf client)).trans fun other seat' hseat' => ?_
    simp only [Std.TreeMap.getElem?_insert] at hseat'
    -- the seat of the pipe that joins keeps its place
    split at hseat'
    · rename_i hpipe
      obtain rfl : pipe = other := by simpa using hpipe
      obtain rfl := Option.some.inj hseat'
      exact ⟨seat, hseat, rfl⟩
    · exact ⟨seat', hseat', rfl⟩

theorem seatsMove_change (d : Document M C) (pipe seq base : Nat) (body : Value) :
    SeatsMove F d (d.change F W pipe seq base body).1 ((d.change F W pipe seq base body).1.log.drop d.log.length) := by
  have hquiet : ∀ {d' : Document M C}, d'.seats = d.seats → d'.log = d.log →
      SeatsMove F d d' (d'.log.drop d.log.length) := by
    intro d' hseats hlog
    rw [hlog, List.drop_length]
    exact .same hseats
  rw [change]
  cases d.seats[pipe]? with
  | none => exact hquiet rfl rfl
  | some seat =>
    dsimp only
    cases seat.client with
    | none => exact hquiet rfl rfl
    | some client =>
      dsimp only
      by_cases hread : seat.viewer.canEdit = false
      · rw [if_pos hread]
        exact hquiet rfl rfl
      rw [if_neg hread]
      by_cases hseen : seq ≤ d.lastSeq client
      · rw [if_pos hseen]
        exact hquiet rfl rfl
      rw [if_neg hseen]
      cases F.fromValue body with
      | error error => exact hquiet rfl rfl
      | ok change =>
        dsimp only
        by_cases hlate : d.rev < base
        · rw [if_pos hlate]
          exact hquiet rfl rfl
        rw [if_neg hlate]
        cases d.logSince base with
        | none => exact hquiet rfl rfl
        | some since =>
          dsimp only
          rcases F.apply d.model change since d.assets with ⟨r, model, assets⟩
          cases r with
          | ok change =>
            simp only [ordered, List.drop_left]
            exact seatsMove_ordered (F := F) (W := W) d _ _ _ _
          | error refused => cases refused <;> exact hquiet rfl rfl

theorem seatsMove_assetFrame (d : Document M C) (pipe : Nat) (hash : Hash) (bytes : Bytes) :
    SeatsMove F d (d.assetFrame F pipe hash bytes).1 [] := by
  rw [assetFrame]
  split_ifs
  · split <;> exact .same rfl
  · exact .same rfl
  · split <;> exact .same rfl

theorem log_join (d : Document M C) (pipe contract : Nat) (client : String) (epoch rev : Nat) :
    (d.join F pipe contract client epoch rev).1.log = d.log := by
  rw [join]
  split_ifs
  · rfl
  · dsimp only
    split <;> rfl

theorem log_assetFrame (d : Document M C) (pipe : Nat) (hash : Hash) (bytes : Bytes) :
    (d.assetFrame F pipe hash bytes).1.log = d.log := by
  rw [assetFrame]
  split_ifs
  · split <;> rfl
  · rfl
  · split <;> rfl

variable {pipe : Nat}

/-- A message that is no place of a pipe that joined. -/
theorem seatsMove_message {frame : Bytes}
    (hplace : ∀ rev body, decode W frame = some (.message (.place rev body)) → d.hasJoined pipe = false) :
    SeatsMove F d (d.message F W pipe frame).1 ((d.message F W pipe frame).1.log.drop d.log.length) := by
  have hquiet : ∀ {d' : Document M C}, SeatsMove F d d' [] → d'.log = d.log →
      SeatsMove F d d' (d'.log.drop d.log.length) := by
    intro d' hseats hlog
    rw [hlog, List.drop_length]
    exact hseats
  rw [message]
  split
  · exact hquiet (.same rfl) rfl
  · exact hquiet (seatsMove_assetFrame d _ _ _) (log_assetFrame d _ _ _)
  · rename_i m hframe
    split
    · exact hquiet (seatsMove_join d _ _ _ _ _) (log_join d _ _ _ _ _)
    · exact seatsMove_change d _ _ _ _
    · rename_i rev body hjoined
      rw [hplace rev body hframe] at hjoined
      cases hjoined
    · exact hquiet (.same rfl) rfl
    · exact hquiet (.same rfl) rfl
    · exact hquiet (.same rfl) rfl

theorem entries_acts_message (d : Document M C) (pipe : Nat) (frame : Bytes) :
    (commits (d.acts F W (.message pipe frame))).map (·.entry) =
      (d.message F W pipe frame).1.log.drop d.log.length := by
  generalize hlog : (d.message F W pipe frame).1.log.drop d.log.length = entries
  rw [acts, hlog, show (fun entry => Act.put ⟨entry, (d.message F W pipe frame).1.model⟩) =
    Act.put ∘ fun entry => ⟨entry, (d.message F W pipe frame).1.model⟩ from rfl, ← List.map_map, commits_put,
    List.map_map]
  exact List.map_id _

theorem seatsMove_fileChanged (d : Document M C) (file : Bytes) (writer : String) :
    SeatsMove F d (d.fileChanged F W file writer).1
      ((commits (d.acts F W (.fileChanged file writer))).map (·.entry)) := by
  rw [fileChanged, acts]
  cases F.read file d.assets with
  | error e => exact .same rfl
  | ok read =>
    obtain ⟨new, assets⟩ := read
    dsimp only
    cases { d with assets }.nearestChanges F new with
    | none => exact .same rfl
    | some changes =>
      dsimp only
      rw [commits_put]
      exact seatsMove_orderAll writer changes { d with assets }

/-- An input that neither connects a pipe nor brings the place of one. -/
theorem seatsMove_step {i : Input} (hconnected : ∀ pipe viewer, i ≠ .connected pipe viewer)
    (hplace : ∀ pipe frame rev body, i = .message pipe frame →
      decode W frame = some (.message (.place rev body)) → d.hasJoined pipe = false) :
    SeatsMove F d (d.step F W i).1 ((commits (d.acts F W i)).map (·.entry)) := by
  cases i with
  | connected pipe viewer => exact absurd rfl (hconnected pipe viewer)
  | message pipe frame =>
    rw [entries_acts_message]
    exact seatsMove_message fun rev body => hplace pipe frame rev body rfl
  | fileChanged file writer => exact seatsMove_fileChanged d file writer
  | left pipe => exact seatsMove_leftPipe d pipe
  | save file =>
    refine .same ?_
    rw [step, save]
    split_ifs
    · rfl
    · split
      · rfl
      · rw [saveWaits]
        split_ifs <;> rfl
  | saveWaits =>
    refine .same ?_
    rw [step, saveWaits]
    split_ifs <;> rfl
  | saved | rebased | closing => exact .same rfl

theorem joined_seat (h : d.hasJoined pipe = true) :
    ∃ seat : Seat, d.seats[pipe]? = some seat ∧ ∃ id, seat.client = some id := by
  rw [hasJoined, Option.any_eq_true] at h
  obtain ⟨seat, hseat, hclient⟩ := h
  exact ⟨seat, hseat, Option.isSome_iff_exists.mp hclient⟩

/-- The seat of a pipe that joined takes the place that it sent, moved across the changes since. -/
theorem place_seats {rev : Nat} {body : Value} {since : List (Ordered C)} (hjoined : d.hasJoined pipe = true)
    (hsince : d.logSince rev = some since) {other : Nat} {seat' : Seat}
    (h : (d.place F pipe rev body).1.seats[other]? = some seat') :
    other = pipe ∧ seat'.place = moved F body since ∨ other ≠ pipe ∧ d.seats[other]? = some seat' := by
  obtain ⟨seat, hseat, id, hclient⟩ := joined_seat hjoined
  rw [place, hsince] at h
  dsimp only at h
  rw [hseat] at h
  dsimp only at h
  rw [hclient] at h
  simp only [Std.TreeMap.getElem?_insert] at h
  split at h
  · rename_i hpipe
    obtain rfl := Option.some.inj h
    exact .inl ⟨(by simpa using hpipe : pipe = other).symm, rfl⟩
  · rename_i hpipe
    exact .inr ⟨fun heq => hpipe (by simp [heq]), h⟩

theorem place_log (d : Document M C) (pipe rev : Nat) (body : Value) : (d.place F pipe rev body).1.log = d.log := by
  rw [place]
  cases d.logSince rev with
  | none => rfl
  | some since =>
    dsimp only
    cases d.seats[pipe]? with
    | none => rfl
    | some seat =>
      dsimp only
      cases seat.client <;> rfl

end Document

/-! ### Every reachable state -/

/-- The document's log is the end of the order, and each seat's place is what its pipe sent, moved. -/
structure Placed.Holds (F : Format M C Q) (W : Wire) (p : Placed M C) : Prop where
  valid : p.life.Valid W
  stamps : p.order.map (·.stamp) = p.life.history
  log : p.life.doc.log = p.order.drop p.life.doc.firstRev
  seats : ∀ (pipe : Nat) (seat : Seat), p.life.doc.seats[pipe]? = some seat →
    (p.sent pipe).1 ≤ p.order.length ∧ seat.place = moved F (p.sent pipe).2 (p.order.drop (p.sent pipe).1)

namespace Placed

theorem puts_log {k k' : Core M C} {cs : List (Commit M C)} (hrun : Run (Core.Put F) k cs k') :
    k'.log = k.log ++ cs.map (·.entry) ∧ k'.firstRev = k.firstRev := by
  induction hrun with
  | nil => exact ⟨by simp, rfl⟩
  | snoc _ hnext ih =>
    obtain ⟨-, rfl⟩ := hnext
    obtain ⟨hlog, hfirst⟩ := ih
    refine ⟨?_, hfirst⟩
    rw [Core.put, hlog, List.map_append, List.append_assoc]
    rfl

variable {p : Placed M C}

theorem length_order (hvalid : p.life.Valid W) (hstamps : p.order.map (·.stamp) = p.life.history) :
    p.life.doc.rev = p.order.length ∧ p.life.doc.firstRev ≤ p.order.length := by
  have hlength := congrArg List.length hstamps
  rw [List.length_map] at hlength
  have hrev : p.life.doc.rev = p.life.history.length := hvalid.tells.rev
  have hfirst : p.life.doc.firstRev ≤ p.life.history.length := hvalid.tells.first
  omega

/-- The log after an input is still the end of the order. -/
theorem log_input (hF : F.RefusesClean) (hp : p.Holds F W) (i : Input) :
    (p.input F W i).life.doc.log = (p.input F W i).order.drop (p.input F W i).life.doc.firstRev := by
  obtain ⟨hrev, hfirst⟩ := length_order hp.valid hp.stamps
  have hputs : (∀ rev, i ≠ .saved rev) → (∀ file epoch, i ≠ .rebased file epoch) →
      (p.input F W i).life.doc.log = (p.input F W i).order.drop (p.input F W i).life.doc.firstRev := by
    intro hsaved hrebased
    obtain ⟨-, hrun⟩ := p.life.doc.step_puts (W := W) hF i hsaved hrebased
    obtain ⟨hlog, hsame⟩ := puts_log hrun
    have hlog : (p.input F W i).life.doc.log = p.life.doc.log ++ _ := hlog
    have hsame : (p.input F W i).life.doc.firstRev = p.life.doc.firstRev := hsame
    rw [hlog, hsame, hp.log, input, List.drop_append_of_le_length hfirst]
  cases i with
  | rebased file epoch =>
    refine (List.drop_of_length_le ?_).symm
    simp only [input, Life.input, Document.step, Document.rebased, Document.acts, commits, List.length_append]
    simp [hrev]
  | saved rev =>
    simp only [input, Life.input, Document.step, Document.saved, Document.acts, commits]
    simpa using hp.log
  | connected | message | left | fileChanged | save | saveWaits | closing => exact hputs (by simp) (by simp)

variable {pipe : Nat} {seat : Seat}

/-- What a pipe sent is moved on by the changes of an input that does not touch its seat. -/
theorem seats_moved (hp : p.Holds F W) {i : Input} {d' : Document M C}
    (hseats : p.life.doc.SeatsMove F d' ((commits (p.life.doc.acts F W i)).map (·.entry)))
    (h : d'.seats[pipe]? = some seat) :
    (p.sent pipe).1 ≤ (p.input F W i).order.length ∧
      seat.place = moved F (p.sent pipe).2 ((p.input F W i).order.drop (p.sent pipe).1) := by
  obtain ⟨old, hold, hplace⟩ := hseats pipe seat h
  obtain ⟨hle, holdPlace⟩ := hp.seats pipe old hold
  rw [input, List.length_append]
  refine ⟨hle.trans (Nat.le_add_right _ _), ?_⟩
  rw [hplace, holdPlace, List.drop_append_of_le_length hle, moved, moved, moved, List.foldl_append]

theorem logSince_drop (hp : p.Holds F W) {rev : Nat} {since : List (Ordered C)}
    (h : p.life.doc.logSince rev = some since) : rev ≤ p.order.length ∧ since = p.order.drop rev := by
  obtain ⟨-, hfirst⟩ := length_order hp.valid hp.stamps
  rw [Document.logSince] at h
  split_ifs at h with hle hlen
  obtain rfl := Option.some.inj h
  rw [hp.log, List.length_drop] at hlen
  rw [hp.log, List.drop_drop, Nat.add_sub_cancel' hle]
  exact ⟨by omega, rfl⟩

theorem seats_input (hp : p.Holds F W) (i : Input) (h : (p.input F W i).life.doc.seats[pipe]? = some seat) :
    ((p.input F W i).sent pipe).1 ≤ (p.input F W i).order.length ∧
      seat.place = moved F ((p.input F W i).sent pipe).2 ((p.input F W i).order.drop ((p.input F W i).sent pipe).1) := by
  have hother : (∀ pipe viewer, i ≠ .connected pipe viewer) → (∀ pipe frame rev body, i = .message pipe frame →
      decode W frame = some (.message (.place rev body)) → p.life.doc.hasJoined pipe = false) →
      told W p.life.doc p.sent i = p.sent →
      ((p.input F W i).sent pipe).1 ≤ (p.input F W i).order.length ∧
        seat.place = moved F ((p.input F W i).sent pipe).2 ((p.input F W i).order.drop ((p.input F W i).sent pipe).1) := by
    intro hconnected hplace htold
    have hsent : (p.input F W i).sent = p.sent := htold
    rw [hsent]
    exact seats_moved hp (Document.seatsMove_step hconnected hplace) h
  cases i with
  | connected q viewer =>
    obtain ⟨hrev, -⟩ := length_order hp.valid hp.stamps
    have horder : (p.input F W (.connected q viewer)).order = p.order := by
      simp [input, Document.acts, commits]
    have hseat : (p.life.doc.seats.insert q ⟨viewer, none, .null⟩)[pipe]? = some seat := h
    rw [Std.TreeMap.getElem?_insert] at hseat
    rw [horder]
    by_cases hq : pipe = q
    · subst hq
      rw [if_pos (by simp)] at hseat
      obtain rfl := Option.some.inj hseat
      have hsent : (p.input F W (.connected pipe viewer)).sent pipe = (p.life.doc.rev, .null) := Function.update_self ..
      rw [hsent, hrev, List.drop_length]
      exact ⟨le_rfl, rfl⟩
    · rw [if_neg (by simpa using fun heq => hq heq.symm)] at hseat
      have hsent : (p.input F W (.connected q viewer)).sent pipe = p.sent pipe := Function.update_of_ne hq ..
      rw [hsent]
      exact hp.seats pipe seat hseat
  | message q frame =>
    by_cases hplaced : ∃ rev body, decode W frame = some (.message (.place rev body)) ∧ p.life.doc.hasJoined q = true
    · obtain ⟨rev, body, hframe, hjoined⟩ := hplaced
      have hdoc : (p.input F W (.message q frame)).life.doc = (p.life.doc.place F q rev body).1 := by
        simp only [input, Life.input, Document.step, Document.message, hframe, hjoined]
      have horder : (p.input F W (.message q frame)).order = p.order := by
        rw [input, Document.entries_acts_message]
        simp only [Document.message, hframe, hjoined, Document.place_log, List.drop_length, List.append_nil]
      rw [hdoc] at h
      rw [horder]
      cases hsince : p.life.doc.logSince rev with
      | none =>
        -- a place from before the log is dropped
        have hsent : (p.input F W (.message q frame)).sent = p.sent := by
          simp [input, told, hframe, hsince]
        rw [Document.place, hsince] at h
        rw [hsent]
        exact hp.seats pipe seat h
      | some since =>
        obtain ⟨hle, rfl⟩ := logSince_drop hp hsince
        have hsent : (p.input F W (.message q frame)).sent = Function.update p.sent q (rev, body) := by
          simp [input, told, hframe, hsince, hjoined]
        rw [hsent]
        rcases Document.place_seats hjoined hsince h with ⟨rfl, hplace⟩ | ⟨hne, hseat⟩
        · rw [Function.update_self]
          exact ⟨hle, hplace⟩
        · rw [Function.update_of_ne hne]
          exact hp.seats pipe seat hseat
    · have hnot : ∀ rev body, decode W frame = some (.message (.place rev body)) →
          p.life.doc.hasJoined q = false := fun rev body hframe => by
        cases hjoined : p.life.doc.hasJoined q with
        | false => rfl
        | true => exact absurd ⟨rev, body, hframe, hjoined⟩ hplaced
      refine hother (by simp) (fun _ _ rev body heq hframe => ?_) ?_
      · obtain ⟨rfl, rfl⟩ := Input.message.inj heq
        exact hnot rev body hframe
      · rw [told]
        split
        · rename_i rev body hframe
          rw [if_neg (by simp [hnot rev body hframe])]
        · rfl
  | left | fileChanged | save | saved | saveWaits | rebased | closing => exact hother (by simp) (by simp) rfl

variable {assets : Assets}

theorem holds_start {file : Bytes} {epoch : Nat} {d : Document M C}
    (hopen : Document.openFile F file epoch assets = .ok d) : (start d).Holds F W := by
  have hvalid : (start d).life.Valid W := Life.valid_start hopen
  simp only [Document.openFile, bind, Except.bind] at hopen
  split at hopen
  · simp at hopen
  · obtain rfl := Except.ok.inj hopen
    exact ⟨hvalid, rfl, rfl, fun pipe seat hseat => by simp [start, Life.start] at hseat⟩

theorem holds_input (hF : F.RefusesClean) (hp : p.Holds F W) (i : Input) : (p.input F W i).Holds F W := by
  refine ⟨Life.valid_input hF hp.valid i, ?_, log_input hF hp i, fun pipe seat => seats_input hp i⟩
  rw [input, List.map_append, hp.stamps, List.map_map]
  rfl

/-- A document that is built again has no seats. -/
theorem restore_seats {original : Bytes} {restored : Restored} {records : List Bytes} {d : Document M C}
    (h : Document.restore F W original restored records assets = .ok d) : d.seats = ∅ := by
  have hreplay : ∀ {d d' : Document M C} {record : Bytes}, d.replayRecord F W record = .ok d' → d'.seats = d.seats := by
    intro d d' record h
    rw [Document.replayRecord] at h
    split at h
    · simp at h
    rw [Document.replay] at h
    split at h
    · simp at h
    split at h
    · simp at h
    · obtain rfl := Except.ok.inj h
      rfl
  have hreplays : ∀ (records : List Bytes) {d d' : Document M C},
      records.foldlM (Document.replayRecord F W) d = .ok d' → d'.seats = d.seats := by
    intro records
    induction records with
    | nil =>
      intro d d' h
      obtain rfl := Except.ok.inj h
      rfl
    | cons record records ih =>
      intro d d' h
      rw [List.foldlM_cons] at h
      cases hd : d.replayRecord F W record with
      | error e =>
        rw [hd] at h
        simp [bind, Except.bind] at h
      | ok d₁ =>
        rw [hd] at h
        exact (ih h).trans (hreplay hd)
  rw [Document.restore] at h
  cases hopen : Document.openFile F original restored.epoch assets with
  | error e =>
    rw [hopen] at h
    simp [bind, Except.bind] at h
  | ok d₀ =>
    rw [hopen] at h
    refine (hreplays records h).trans ?_
    simp only [Document.openFile, bind, Except.bind] at hopen
    split at hopen
    · simp at hopen
    · obtain rfl := Except.ok.inj hopen
      rfl

theorem holds_next (hF : F.RefusesClean) (hW : W.KeepsStamps) {p' : Placed M C} {e : Event} (hp : p.Holds F W)
    (hnext : Next F W p e p') : p'.Holds F W := by
  cases hnext with
  | input i => exact holds_input hF hp i
  | @restart kept life restarted =>
    have hvalid : life.Valid W := Life.valid_step hF hW hp.valid restarted
    cases restarted with
    | @restart _ d hrestore =>
      obtain ⟨-, hfirst⟩ := length_order hp.valid hp.stamps
      have htells := hvalid.tells
      have hlog : d.log.map (·.stamp) = p.life.history.drop d.firstRev := htells.log
      have hle : d.firstRev ≤ p.life.history.length := htells.first
      have hlength : d.firstRev ≤ p.order.length := by rwa [← hp.stamps, List.length_map] at hle
      refine ⟨hvalid, ?_, ?_, fun pipe seat hseat => ?_⟩
      · dsimp only
        rw [List.map_append, List.map_take, hp.stamps, hlog, List.take_append_drop]
      · dsimp only
        rw [List.drop_left' (by rw [List.length_take]; omega)]
      · rw [show ({ p.life with doc := d } : Life M C).doc.seats = ∅ from restore_seats hrestore] at hseat
        simp at hseat

/-- The changes after a rev, in an order whose revs count from one. -/
theorem since_eq : ∀ {order : List (Ordered C)} {k rev : Nat}, (∀ i e, order[i]? = some e → e.rev = k + i + 1) →
    k ≤ rev → order.filter (fun e => rev < e.rev) = order.drop (rev - k)
  | [], _, _, _, _ => by simp
  | e :: order, k, rev, hrevs, hle => by
    have hfirst := hrevs 0 e rfl
    have hrest : ∀ i e', order[i]? = some e' → e'.rev = k + 1 + i + 1 := fun i e' hi => by
      have := hrevs (i + 1) e' hi
      omega
    by_cases hlt : k < rev
    · rw [List.filter_cons, if_neg (by simp; omega), since_eq hrest hlt, show rev - k = rev - (k + 1) + 1 by omega,
        List.drop_succ_cons]
    · obtain rfl : k = rev := by omega
      rw [Nat.sub_self, List.drop_zero, List.filter_eq_self]
      intro e' he'
      obtain ⟨i, hi⟩ := List.mem_iff_getElem?.mp he'
      have := hrevs i e' hi
      simpa using by omega

/-- In every reachable state, the place of each seat is what its view sent at a rev, moved across every change
    ordered after that rev. -/
theorem place_follows (hF : F.RefusesClean) (hW : W.KeepsStamps) {file : Bytes} {epoch : Nat} {d₀ : Document M C}
    (hopen : Document.openFile F file epoch assets = .ok d₀) {events : List Event}
    (hrun : Run (Next F W) (start d₀) events p) (hseat : p.life.doc.seats[pipe]? = some seat) :
    seat.place = moved F (p.sent pipe).2 (p.order.filter fun e => (p.sent pipe).1 < e.rev) := by
  have hp : p.Holds F W := hrun.invariant (I := Holds F W) (fun h hnext => holds_next hF hW h hnext) (holds_start hopen)
  obtain ⟨hle, hplace⟩ := hp.seats pipe seat hseat
  have hrevs : ∀ i e, p.order[i]? = some e → e.rev = 0 + i + 1 := fun i e hi => by
    have hstamp : p.life.history[i]? = some e.stamp := by rw [← hp.stamps, List.getElem?_map, hi]; rfl
    have := hp.valid.tells.revs i e.stamp hstamp
    rw [Nat.zero_add]
    exact this
  rw [hplace, since_eq hrevs (Nat.zero_le _), Nat.sub_zero]

end Placed

/-! ### Places in the small format -/

namespace Tally

/-- The small format with places, which a change adds to. -/
def placing : Format Nat Nat Unit := { format with mapPlace := fun place n => nulls (size place + n) }

/-- The small wire with places. -/
def placeWire : Wire :=
  { wire with
    fromSlice := fun
      | [2, rev, n] => some (.place rev.toNat (nulls n.toNat))
      | bytes => wire.fromSlice bytes }

theorem placing_refusesClean : placing.RefusesClean := refusesClean

theorem placeWire_keepsStamps : placeWire.KeepsStamps := by
  intro c c' h
  simp only [placeWire] at h
  exact keepsStamps c c' h

theorem opens_placing : Document.openFile placing [0] 1 ⟨[]⟩ = .ok opened := opens [0] (by simp) 1 ⟨[]⟩

/-- A view sends its place at rev 0 after one change, and another change comes. -/
def placed : Placed Nat Nat :=
  ((((Placed.start opened).input placing placeWire (.connected 1 ⟨"ana", "ana", true⟩)).input placing placeWire
    (.message 1 [0, 0, 0, 0])).input placing placeWire (.message 1 [0, 1, 1, 0, 2])).input placing placeWire
    (.message 1 [0, 2, 0, 1]) |>.input placing placeWire (.message 1 [0, 1, 2, 1, 3])

theorem placed_run : Run (Placed.Next placing placeWire) (.start opened)
    [.input (.connected 1 ⟨"ana", "ana", true⟩), .input (.message 1 [0, 0, 0, 0]), .input (.message 1 [0, 1, 1, 0, 2]),
      .input (.message 1 [0, 2, 0, 1]), .input (.message 1 [0, 1, 2, 1, 3])] placed :=
  ((((Run.nil.snoc (.input _)).snoc (.input _)).snoc (.input _)).snoc (.input _)).snoc (.input _)

/-- One change came before the place and one after it. -/
example : (placed.life.doc.seats[1]?.map fun seat => size seat.place) = some 6 := by decide

end Tally

end Kodosi.Documents
