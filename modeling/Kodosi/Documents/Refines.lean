import Kodosi.Documents.Order

/-! Each step of a live document is a run of its order: it puts the changes that `acts` lists, one
    after the other, and what it appends and tells its views are those changes. Everything that the
    order's machine keeps is so kept by the document. -/

namespace Kodosi.Documents
open Kodosi.Lib

/-! ### What a list of effects says -/

/-- An effect that writes no record and gives no view a state or a change. -/
def Effect.plain : Effect → Bool
  | .append _ => false
  | .send _ (.message (.joined ..)) _ => false
  | .send _ (.message (.changed _)) _ => false
  | _ => true

/-- An effect that refuses a message, or ends the pipe that it came from. -/
def Effect.refuses : Effect → Bool
  | .send _ (.message (.refused ..)) _ => true
  | .drop _ => true
  | _ => false

/-- The records that effects append to the journal. -/
def appends (effects : List Effect) : List Bytes :=
  effects.filterMap fun
    | .append record => some record
    | _ => none

/-- The frames that effects send to one pipe. -/
def heard (pipe : Nat) (effects : List Effect) : List (Frame ToClient) :=
  effects.filterMap fun
    | .send pipes frame _ => if pipe ∈ pipes then some frame else none
    | _ => none

/-- The message of a frame that gives a view a state or a change. -/
def Frame.news : Frame ToClient → Option ToClient
  | .message (.joined id name canEdit epoch rev seq peers catchup) =>
    some (.joined id name canEdit epoch rev seq peers catchup)
  | .message (.changed changed) => some (.changed changed)
  | _ => none

/-- What effects tell one pipe of states and changes. -/
def news (pipe : Nat) (effects : List Effect) : List ToClient :=
  (heard pipe effects).filterMap Frame.news

theorem appends_append (xs ys : List Effect) : appends (xs ++ ys) = appends xs ++ appends ys := by
  simp [appends]

theorem news_append (p : Nat) (xs ys : List Effect) : news p (xs ++ ys) = news p xs ++ news p ys := by
  simp [news, heard]

theorem appends_plain {es : List Effect} (h : ∀ e ∈ es, e.plain) : appends es = [] := by
  rw [appends, List.filterMap_eq_nil_iff]
  intro e he
  have := h e he
  cases e <;> simp_all [Effect.plain]

theorem news_plain {es : List Effect} (p : Nat) (h : ∀ e ∈ es, e.plain) : news p es = [] := by
  rw [news, List.filterMap_eq_nil_iff]
  intro f hf
  obtain ⟨e, he, hef⟩ := List.mem_filterMap.mp hf
  have hplain := h e he
  cases e with
  | send pipes frame catchup =>
    simp only [Option.ite_none_right_eq_some, Option.some.injEq] at hef
    obtain ⟨-, rfl⟩ := hef
    cases frame with
    | asset => rfl
    | message m => cases m <;> simp_all [Effect.plain, Frame.news]
  | _ => simp at hef

namespace Document

variable {M C Q : Type} {F : Format M C Q} {W : Wire}

def core (d : Document M C) : Core M C :=
  ⟨d.model, d.original, d.epoch, d.firstRev, d.rev, d.log, d.seqs, d.savedRev⟩

/-- The commits that an outside write makes, change by change. -/
def outside (F : Format M C Q) (W : Wire) (writer : String) :
    List C → Document M C → List (Commit M C)
  | [], _ => []
  | c :: changes, d =>
    match F.apply d.model c [] d.assets with
    | (.ok c, model, assets) =>
      ⟨⟨d.rev + 1, writer, s!"file:{writer}", 0, c⟩, model⟩ ::
        outside F W writer changes
          ({ d with model, assets }.ordered F W c writer s!"file:{writer}" 0).1
    | (.error _, model, assets) => outside F W writer changes { d with model, assets }

/-- What a step does to the order. -/
def acts (F : Format M C Q) (W : Wire) (d : Document M C) : Input → List (Act M C)
  | .message pipe frame =>
    let d' := (d.message F W pipe frame).1
    (d'.log.drop d.log.length).map fun entry => .put ⟨entry, d'.model⟩
  | .fileChanged file writer =>
    match F.read file d.assets with
    | .error _ => []
    | .ok (new, assets) =>
      match { d with assets }.nearestChanges F new with
      | none => []
      | some changes => (outside F W writer changes { d with assets }).map .put
  | .saved rev => [.save rev]
  | .rebased file epoch => [.rebase file epoch]
  | _ => []

/-- The records of commits. -/
def recordsOf (F : Format M C Q) (W : Wire) (cs : List (Commit M C)) : List Bytes :=
  cs.map fun c => W.recordOf (changedOf F c.entry)

/-- Whether a pipe has a seat, and whether it joined. -/
def seatAt (d : Document M C) (p : Nat) : Option Bool := d.seats[p]?.map (·.client.isSome)

theorem hasJoined_eq (d : Document M C) (p : Nat) : d.hasJoined p = (d.seatAt p == some true) := by
  unfold hasJoined seatAt
  cases d.seats[p]? with
  | none => rfl
  | some seat => cases h : seat.client <;> simp [h]

theorem mem_joinedPipes (d : Document M C) (p : Nat) : p ∈ d.joinedPipes ↔ d.seatAt p = some true := by
  simp only [joinedPipes, seatAt, List.mem_map, List.mem_filter, Prod.exists,
    exists_and_right, exists_eq_right, Std.TreeMap.mem_toList_iff_getElem?_eq_some,
    Option.map_eq_some_iff]

/-! ### Steps that leave the order alone -/

/-- A step that leaves the order as it is, tells no view a state or a change, and gives no pipe a
    seat. -/
structure Calm (d : Document M C) (out : Document M C × List Effect) : Prop where
  core : out.1.core = d.core
  plain : ∀ e ∈ out.2, e.plain
  seats : ∀ p, out.1.seatAt p = d.seatAt p ∨ out.1.seatAt p = none

variable {d : Document M C}

theorem Calm.same {es : List Effect} (h : ∀ e ∈ es, e.plain) : Calm d (d, es) :=
  ⟨rfl, h, fun _ => .inl rfl⟩

theorem seatAt_unseat (d : Document M C) (p : Nat) : ∀ pipes,
    (d.unseat pipes).seatAt p = d.seatAt p ∨ (d.unseat pipes).seatAt p = none := by
  intro pipes
  induction pipes generalizing d with
  | nil => exact .inl rfl
  | cons q pipes ih =>
    have hq : ({ d with seats := d.seats.erase q }).seatAt p = d.seatAt p ∨
        ({ d with seats := d.seats.erase q }).seatAt p = none := by
      by_cases hpq : q = p
      · exact .inr (by simp [seatAt, hpq])
      · exact .inl (by simp [seatAt, Std.TreeMap.getElem?_erase, hpq])
    rcases ih { d with seats := d.seats.erase q } with h | h
    · rcases hq with hq | hq
      · exact .inl (h.trans hq)
      · exact .inr (h.trans hq)
    · exact .inr h

theorem calm_leftPipe (d : Document M C) (pipe : Nat) : Calm d (d.leftPipe pipe) := by
  unfold leftPipe
  split
  · exact .same (by simp)
  · dsimp only
    split
    · exact ⟨rfl, by simp, (seatAt_unseat d · [pipe])⟩
    · exact ⟨rfl, by simp [sendTo, Effect.plain], (seatAt_unseat d · [pipe])⟩

theorem calm_place (d : Document M C) (pipe rev : Nat) (body : Value) : Calm d (d.place F pipe rev body) := by
  unfold place
  split
  · exact .same (by simp)
  · dsimp only
    split
    · exact .same (by simp)
    · rename_i since _ seat hseat
      -- the seat keeps its client, so each pipe stands as it stood
      have hseats : ∀ p body, ({ d with
          seats := d.seats.insert pipe { seat with place := body } }).seatAt p = d.seatAt p := by
        intro p body
        by_cases hp : pipe = p
        · subst hp
          simp [seatAt, hseat]
        · simp [seatAt, Std.TreeMap.getElem?_insert, hp]
      split
      · exact ⟨rfl, by simp, fun p => .inl (hseats p _)⟩
      · exact ⟨rfl, by simp [sendTo, Effect.plain], fun p => .inl (hseats p _)⟩

theorem calm_assetFrame (d : Document M C) (pipe : Nat) (hash : Hash) (bytes : Bytes) :
    Calm d (d.assetFrame F pipe hash bytes) := by
  unfold assetFrame
  split
  · split
    · exact .same (by simp)
    · exact .same (by simp [Effect.plain])
  · split
    · exact .same (by simp [Effect.plain])
    · split
      · exact ⟨rfl, by simp [Effect.plain], fun _ => .inl rfl⟩
      · exact ⟨rfl, by simp [Effect.plain], fun _ => .inl rfl⟩

theorem calm_saveWaits (d : Document M C) : Calm d d.saveWaits := by
  unfold saveWaits
  split
  · exact .same (by simp)
  · exact ⟨rfl, by simp [sendTo, Effect.plain], fun _ => .inl rfl⟩

theorem calm_save (d : Document M C) (file : Bytes) : Calm d (d.save F file) := by
  unfold save
  split
  · exact .same (by simp)
  · split
    · exact .same (by simp [Effect.plain])
    · exact calm_saveWaits d

theorem calm_query (d : Document M C) (pipe id : Nat) (body : Value) : Calm d (d, d.query F pipe id body) := by
  unfold query
  split
  · exact .same (by simp [Effect.plain])
  · exact .same (by simp [sendTo, Effect.plain])

/-! ### A view joins -/

/-- What a pipe hears when it joins: the state of the order now, and how to get there from the epoch
    and the rev that the view remembers. -/
def Answers (F : Format M C Q) (d : Document M C) (client : String) (epoch rev : Nat)
    (m : ToClient) : Prop :=
  ∃ name canEdit peers, m = .joined client name canEdit d.epoch d.rev (d.lastSeq client) peers
    (d.catchup F epoch rev)

/-- A step that seats one pipe: only this pipe hears the answer. -/
structure Joins (F : Format M C Q) (d : Document M C) (pipe : Nat) (client : String)
    (epoch rev : Nat) (out : Document M C × List Effect) : Prop where
  core : out.1.core = d.core
  waited : d.seatAt pipe = some false
  seated : out.1.seatAt pipe = some true
  others : ∀ p, p ≠ pipe → out.1.seatAt p = d.seatAt p ∨ out.1.seatAt p = none
  effects : ∃ m before peer, Answers F d client epoch rev m ∧ (∀ e ∈ before, e.plain) ∧
    out.2 = before ++ [.send [pipe] (.message m) true, peer] ∧ peer.plain

theorem join_cases (d : Document M C) (pipe contract : Nat) (client : String) (epoch rev : Nat)
    (hpipe : d.hasJoined pipe = false) :
    Calm d (d.join F pipe contract client epoch rev) ∨
      Joins F d pipe client epoch rev (d.join F pipe contract client epoch rev) := by
  unfold join
  by_cases hc : contract ≠ CONTRACT
  · rw [if_pos hc]
    exact .inl (.same (by simp [sendTo, Effect.plain]))
  · rw [if_neg hc]
    dsimp only
    have hun := fun p => seatAt_unseat d p (d.pipesOf client)
    split
    · refine .inl ⟨rfl, ?_, hun⟩
      simp [Effect.plain]
    · rename_i seat hseat
      have hat : (d.unseat (d.pipesOf client)).seatAt pipe = some seat.client.isSome := by
        rw [seatAt, hseat]
        rfl
      have hwait : d.seatAt pipe = some false := by
        rw [hasJoined_eq] at hpipe
        rcases hun pipe with h | h
        · rw [hat] at h
          rw [← h] at hpipe ⊢
          simpa using hpipe
        · rw [hat] at h
          simp at h
      refine .inr ⟨rfl, hwait, by simp [seatAt], ?_, ?_⟩
      · intro p hp
        have : ∀ seat', ({ d.unseat (d.pipesOf client) with
            seats := (d.unseat (d.pipesOf client)).seats.insert pipe seat' }).seatAt p =
            (d.unseat (d.pipesOf client)).seatAt p := by
          intro seat'
          simp [seatAt, Std.TreeMap.getElem?_insert, Ne.symm hp]
        rw [this]
        exact hun p
      · exact ⟨_, _, _, ⟨_, _, _, rfl⟩, by simp [Effect.plain], rfl, rfl⟩

/-! ### Changes -/

/-- A step that puts changes in the order: the journal and each joined pipe get every one of them. -/
structure Puts (F : Format M C Q) (W : Wire) (d : Document M C) (cs : List (Commit M C))
    (out : Document M C × List Effect) : Prop where
  run : Run (Core.Put F) d.core cs out.1.core
  appends : appends out.2 = recordsOf F W cs
  news : ∀ p, news p out.2 =
    if d.seatAt p = some true then cs.map fun c => .changed (changedOf F c.entry) else []
  seats : ∀ p, out.1.seatAt p = d.seatAt p

theorem Puts.none (d : Document M C) : Puts F W d [] (d, []) :=
  ⟨.nil, rfl, fun p => by simp [Documents.news, heard], fun _ => rfl⟩

theorem Puts.trans {d₁ d₂ : Document M C} {cs cs' : List (Commit M C)} {es es' : List Effect}
    (h : Puts F W d cs (d₁, es)) (h' : Puts F W d₁ cs' (d₂, es')) :
    Puts F W d (cs ++ cs') (d₂, es ++ es') := by
  refine ⟨?_, ?_, ?_, ?_⟩
  · exact h.run.trans h'.run
  · rw [appends_append, h.appends, h'.appends, recordsOf, recordsOf, recordsOf, List.map_append]
  · intro p
    rw [news_append, h.news, h'.news, h.seats p, List.map_append]
    split <;> rfl
  · intro p
    rw [h'.seats p, h.seats p]

/-- What the effects of one ordered change tell a pipe. -/
theorem news_ordered (p : Nat) (record : Bytes) (pipes : List Nat) (changed : Changed)
    (isSealed : Bool) :
    news p ([.append record, sendTo pipes (.changed changed), .unsaved] ++
      if isSealed then [.sealed] else []) =
      if p ∈ pipes then [.changed changed] else [] := by
  by_cases hp : p ∈ pipes <;> cases isSealed <;>
    simp [Documents.news, heard, sendTo, hp, Frame.news]

/-- One change that the format took goes in the order. -/
theorem puts_ordered (d : Document M C) (change : C) (author client : String) (seq : Nat) (model : M)
    (assets : Assets) (seqs : Std.TreeMap String Nat)
    (happly : ∃ change' since a a', F.apply d.model change' since a = (.ok change, model, a'))
    (hseq : seq = 0 ∧ seqs = d.seqs ∨
      d.lastSeq client < seq ∧ seqs = d.seqs.insert client seq) :
    Puts F W d [⟨⟨d.rev + 1, author, client, seq, change⟩, model⟩]
      ({ d with model, assets, seqs }.ordered F W change author client seq) := by
  have hseqs : seqs = if 0 < seq then d.seqs.insert client seq else d.seqs := by
    rcases hseq with ⟨rfl, rfl⟩ | ⟨hlt, rfl⟩
    · simp
    · rw [if_pos (by omega)]
  have hseats : ∀ p, ({ d with model, assets, seqs }.ordered F W change author client seq).1.seatAt p
      = d.seatAt p := by
    intro p
    simp only [ordered, seatAt, Std.TreeMap.getElem?_map, Option.map_map]
    rfl
  refine ⟨Run.single_iff.mpr ⟨⟨happly, rfl, ?_⟩, ?_⟩, ?_, ?_, hseats⟩
  · rcases hseq with ⟨rfl, -⟩ | ⟨hlt, -⟩
    · exact .inl rfl
    · exact .inr hlt
  · simp only [Core.put, core, ordered, hseqs]
  · simp only [ordered]
    split <;> rfl
  · intro p
    have hmem : p ∈ (ordered F W { d with model, assets, seqs } change author client seq).1.joinedPipes
        ↔ d.seatAt p = some true := by
      rw [mem_joinedPipes, hseats]
    simp only [ordered] at hmem ⊢
    rw [news_ordered]
    simp only [hmem, List.map_cons, List.map_nil]

variable {out : Document M C × List Effect}

/-- A step that put nothing may have changed the assets before. -/
theorem Puts.assets {assets : Assets} {cs : List (Commit M C)} (h : Puts F W { d with assets } cs out) :
    Puts F W d cs out :=
  ⟨h.run, h.appends, h.news, h.seats⟩

theorem puts_orderAll (hF : F.RefusesClean) (writer : String) : ∀ (changes : List C)
    (d : Document M C),
    Puts F W d (outside F W writer changes d) (orderAll F W writer changes d)
  | [], d => .none d
  | c :: changes, d => by
    rw [outside, orderAll]
    rcases happly : F.apply d.model c [] d.assets with ⟨r, model, assets⟩
    cases r with
    | error refused =>
      -- a refused change leaves the model
      have hmodel : model = d.model := hF _ _ _ _ _ _ _ happly
      subst hmodel
      exact (puts_orderAll hF writer changes { d with assets }).assets
    | ok c' =>
      have hone := puts_ordered (W := W) d c' writer s!"file:{writer}" 0 model assets d.seqs
        ⟨c, [], d.assets, assets, happly⟩ (.inl ⟨rfl, rfl⟩)
      exact hone.trans (puts_orderAll hF writer changes _)

/-- A change of a client that the document takes: it is new for this client, and nobody is refused. -/
structure Takes (F : Format M C Q) (W : Wire) (d : Document M C) (pipe seq : Nat)
    (out : Document M C × List Effect) : Prop where
  puts : ∃ c, Puts F W d [c] out
  unseen : ∃ seat client, d.seats[pipe]? = some seat ∧ seat.client = some client ∧
    d.lastSeq client < seq
  quiet : ∀ e ∈ out.2, e.refuses = false

theorem ordered_refuses (d : Document M C) (change : C) (author client : String) (seq : Nat) :
    ∀ e ∈ (d.ordered F W change author client seq).2, e.refuses = false := by
  cases h : F.seals change <;> simp [ordered, h, sendTo, Effect.refuses]

theorem change_cases (hF : F.RefusesClean) (d : Document M C) (pipe seq base : Nat) (body : Value) :
    Calm d (d.change F W pipe seq base body) ∨ Takes F W d pipe seq (d.change F W pipe seq base body) := by
  have hrefuse : ∀ reason detail, ∀ e ∈ [refuse pipe seq reason detail], e.plain := by
    simp [refuse, sendTo, Effect.plain]
  unfold change
  split
  · exact .inl (.same (by simp))
  rename_i seat hseat
  split
  · exact .inl (.same (by simp))
  rename_i client hclient
  dsimp only
  split
  · exact .inl (.same (hrefuse _ _))
  split
  · exact .inl (.same (by simp))
  rename_i hseq
  split
  · exact .inl (.same (hrefuse _ _))
  rename_i change _
  split
  · exact .inl (.same (hrefuse _ _))
  split
  · exact .inl (.same (hrefuse _ _))
  rename_i since _
  rcases happly : F.apply d.model change since d.assets with ⟨r, model, assets⟩
  cases r with
  | ok c =>
    have hlt : d.lastSeq client < seq := by omega
    exact .inr ⟨⟨_, puts_ordered d c seat.viewer.name client seq model assets _
      ⟨_, _, _, _, happly⟩ (.inr ⟨hlt, rfl⟩)⟩, ⟨seat, client, hseat, hclient, hlt⟩,
      ordered_refuses _ _ _ _ _⟩
  | error refused =>
    have hmodel : model = d.model := hF _ _ _ _ _ _ _ happly
    subst hmodel
    cases refused with
    | behind detail => exact .inl ⟨rfl, hrefuse _ _, fun _ => .inl rfl⟩
    | invalid detail => exact .inl ⟨rfl, hrefuse _ _, fun _ => .inl rfl⟩

/-! ### Every step -/

/-- What a message does: nothing to the order, or it seats the pipe, or its change is taken. -/
theorem message_cases (hF : F.RefusesClean) (d : Document M C) (pipe : Nat) (frame : Bytes) :
    Calm d (d.message F W pipe frame) ∨
    (∃ contract client epoch rev,
      decode W frame = some (.message (.join contract client epoch rev)) ∧
      Joins F d pipe client epoch rev (d.message F W pipe frame)) ∨
    (∃ seq base body, decode W frame = some (.message (.change seq base body)) ∧
      Takes F W d pipe seq (d.message F W pipe frame)) := by
  have hdrop : Calm d (d, [Effect.drop pipe]) := .same (by simp [Effect.plain])
  unfold message
  split
  · exact .inl hdrop
  · exact .inl (calm_assetFrame ..)
  · rename_i m hm
    cases hj : d.hasJoined pipe <;> cases m <;> dsimp only
    case false.join contract client epoch rev =>
      rcases join_cases (F := F) d pipe contract client epoch rev hj with h | h
      · exact .inl h
      · exact .inr (.inl ⟨_, _, _, _, hm, h⟩)
    case true.change seq base body =>
      rcases change_cases (W := W) hF d pipe seq base body with h | h
      · exact .inl h
      · exact .inr (.inr ⟨_, _, _, hm, h⟩)
    case true.place => exact .inl (calm_place ..)
    case true.query => exact .inl (calm_query ..)
    case true.people => exact .inl (.same (by simp [people, sendTo, Effect.plain]))
    all_goals exact .inl hdrop

/-- What an outside write does: its changes go in the order. -/
theorem fileChanged_cases (hF : F.RefusesClean) (d : Document M C) (file : Bytes)
    (writer : String) :
    ∃ cs, d.acts F W (.fileChanged file writer) = cs.map .put ∧ Puts F W d cs (d.fileChanged F W file writer) := by
  simp only [acts, fileChanged]
  rcases F.read file d.assets with _ | ⟨new, assets⟩
  · exact ⟨[], rfl, .none d⟩
  · dsimp only
    generalize hn : nearestChanges F _ new = changes
    cases changes with
    | none => exact ⟨[], rfl, (Puts.none { d with assets }).assets⟩
    | some changes =>
      have h := (puts_orderAll (W := W) hF writer changes { d with assets }).assets
      exact ⟨_, rfl, h.run, h.appends, h.news, h.seats⟩

/-- Only the pipe that joins hears a state. -/
theorem news_joins {pipe : Nat} {client : String} {epoch rev : Nat} (h : Joins F d pipe client epoch rev out) :
    ∃ m, Answers F d client epoch rev m ∧ ∀ p, news p out.2 = if p = pipe then [m] else [] := by
  obtain ⟨m, before, peer, ⟨name, canEdit, peers, rfl⟩, hbefore, hes, hpeer⟩ := h.effects
  refine ⟨_, ⟨name, canEdit, peers, rfl⟩, fun p => ?_⟩
  have hpeer' : news p [peer] = [] := news_plain p (by simpa using hpeer)
  rw [hes, news_append, news_plain p hbefore, List.nil_append, ← List.singleton_append, news_append,
    hpeer', List.append_nil]
  by_cases hp : p = pipe <;> simp [Documents.news, heard, hp, Frame.news]

/-- What a step can do, with all that it does to the order. -/
inductive Steps (F : Format M C Q) (W : Wire) (d : Document M C) : Input → Prop
  /-- The order stays, and no view hears a state or a change. -/
  | calm {i} (acts : d.acts F W i = []) (calm : Calm d (d.step F W i)) : Steps F W d i
  /-- A pipe gets a seat. -/
  | connected {pipe viewer} : Steps F W d (.connected pipe viewer)
  /-- A pipe joins. -/
  | joins {pipe frame contract client epoch rev}
      (acts : d.acts F W (.message pipe frame) = [])
      (asks : decode W frame = some (.message (.join contract client epoch rev)))
      (joins : Joins F d pipe client epoch rev (d.step F W (.message pipe frame))) :
      Steps F W d (.message pipe frame)
  /-- Changes go in the order. -/
  | puts {i} (cs : List (Commit M C)) (acts : d.acts F W i = cs.map .put)
      (puts : Puts F W d cs (d.step F W i)) : Steps F W d i
  /-- The file holds the changes up to a rev. -/
  | saved {rev} : Steps F W d (.saved rev)
  /-- The journal starts again. -/
  | rebased {file epoch} : Steps F W d (.rebased file epoch)

theorem acts_message_calm {pipe : Nat} {frame : Bytes} (h : (d.message F W pipe frame).1.core = d.core) :
    d.acts F W (.message pipe frame) = [] := by
  have hlog : (d.message F W pipe frame).1.log = d.log := congrArg Core.log h
  simp [acts, hlog]

theorem step_cases (hF : F.RefusesClean) (d : Document M C) (i : Input) : Steps F W d i := by
  cases i with
  | connected pipe viewer => exact .connected
  | saved rev => exact .saved
  | rebased file epoch => exact .rebased
  | left pipe => exact .calm rfl (calm_leftPipe d pipe)
  | save file => exact .calm rfl (calm_save d file)
  | saveWaits => exact .calm rfl (calm_saveWaits d)
  | closing reason => exact .calm rfl (.same (by simp [sendTo, Effect.plain]))
  | fileChanged file writer =>
    obtain ⟨cs, hacts, hputs⟩ := fileChanged_cases (W := W) hF d file writer
    exact .puts cs hacts hputs
  | message pipe frame =>
    rcases message_cases (W := W) hF d pipe frame with h | ⟨_, _, _, _, hframe, h⟩ | ⟨_, _, _, _, h⟩
    · exact .calm (acts_message_calm h.core) h
    · exact .joins (acts_message_calm h.core) hframe h
    · obtain ⟨c, hc⟩ := h.puts
      obtain ⟨-, hcore⟩ := Run.single_iff.mp hc.run
      refine .puts [c] ?_ hc
      have hlog : (d.message F W pipe frame).1.log = d.log ++ [c.entry] := congrArg Core.log hcore
      have hmodel : (d.message F W pipe frame).1.model = c.model := congrArg Core.model hcore
      simp only [acts, hlog, hmodel, List.drop_left, List.map_cons, List.map_nil]

/-- Each step of a document is a run of its order. -/
theorem step_refines (hF : F.RefusesClean) (d : Document M C) (i : Input) :
    Run (Core.Next F) d.core (d.acts F W i) (d.step F W i).1.core := by
  cases step_cases (W := W) hF d i with
  | calm hacts h =>
    rw [hacts, h.core]
    exact .nil
  | connected => exact .nil
  | joins hacts _ h =>
    rw [hacts, h.core]
    exact .nil
  | puts cs hacts h =>
    rw [hacts]
    exact h.run.image id Act.put fun _ _ _ hput => hput
  | saved => exact Run.single_iff.mpr ⟨trivial, rfl⟩
  | rebased => exact Run.single_iff.mpr ⟨trivial, rfl⟩

theorem commits_put (cs : List (Commit M C)) : commits (cs.map .put) = cs := by
  induction cs with
  | nil => rfl
  | cons c cs ih => exact congrArg (c :: ·) ih

theorem appends_joins {pipe : Nat} {client : String} {epoch rev : Nat} (h : Joins F d pipe client epoch rev out) :
    appends out.2 = [] := by
  obtain ⟨m, before, peer, ⟨_, _, _, rfl⟩, hbefore, hes, hpeer⟩ := h.effects
  rw [hes, appends_append, appends_plain hbefore]
  cases peer <;> simp_all [Effect.plain, appends]

/-- A step that neither saves nor rebases puts changes in the order, and the journal gets one record
    for each of them. -/
theorem step_puts (hF : F.RefusesClean) (d : Document M C) (i : Input)
    (hsaved : ∀ rev, i ≠ .saved rev) (hrebased : ∀ file epoch, i ≠ .rebased file epoch) :
    appends (d.step F W i).2 = recordsOf F W (commits (d.acts F W i)) ∧
      Run (Core.Put F) d.core (commits (d.acts F W i)) (d.step F W i).1.core := by
  cases step_cases (W := W) hF d i with
  | calm hacts h =>
    rw [hacts]
    exact ⟨appends_plain h.plain, Run.nil_iff.mpr h.core⟩
  | connected => exact ⟨rfl, .nil⟩
  | joins hacts _ h =>
    rw [hacts]
    exact ⟨appends_joins h, Run.nil_iff.mpr h.core⟩
  | puts cs hacts h =>
    rw [hacts, commits_put]
    exact ⟨h.appends, h.run⟩
  | saved => exact absurd rfl (hsaved _)
  | rebased => exact absurd rfl (hrebased _ _)

/-- What a pipe hears of the order is a change, or the answer to its join. -/
theorem news_cases (hF : F.RefusesClean) {i : Input} {p : Nat} {m : ToClient} (hm : m ∈ news p (d.step F W i).2) :
    (∃ changed, m = .changed changed) ∨ ∃ frame contract client epoch rev, i = .message p frame ∧
      decode W frame = some (.message (.join contract client epoch rev)) ∧
      Joins F d p client epoch rev (d.step F W i) ∧ Answers F d client epoch rev m := by
  cases d.step_cases (W := W) hF i with
  | calm _ h => simp [news_plain p h.plain] at hm
  | connected => simp [step, Documents.news, heard] at hm
  | saved => simp [step, saved, Documents.news, heard, sendTo, Frame.news] at hm
  | rebased => simp [step, rebased, Documents.news, heard] at hm
  | puts cs _ h =>
    rw [h.news] at hm
    split at hm
    · obtain ⟨c, -, rfl⟩ := List.mem_map.mp hm
      exact .inl ⟨_, rfl⟩
    · cases hm
  | joins _ hasks h =>
    obtain ⟨m', hanswers, hnews⟩ := news_joins h
    rw [hnews] at hm
    split at hm
    · rename_i hp
      subst hp
      obtain rfl := List.mem_singleton.mp hm
      exact .inr ⟨_, _, _, _, _, rfl, hasks, h, hanswers⟩
    · cases hm

/-! ### Runs -/

/-- Unless a pipe joins, a step tells it the changes that it puts in the order, if the pipe has joined. -/
theorem news_step (hF : F.RefusesClean) (d : Document M C) (i : Input) {p : Nat}
    (hp : ∀ frame, i = .message p frame → d.seatAt p = some true) : news p (d.step F W i).2 =
      if d.seatAt p = some true then (commits (d.acts F W i)).map fun c => .changed (changedOf F c.entry) else [] := by
  cases step_cases (W := W) hF d i with
  | calm hacts h => simp [hacts, commits, news_plain p h.plain]
  | connected => simp [acts, commits, step, Documents.news, heard]
  | saved => simp [acts, commits, step, saved, Documents.news, heard, sendTo, Frame.news]
  | rebased => simp [acts, commits, step, rebased, Documents.news, heard]
  | puts cs hacts h => rw [hacts, commits_put, h.news]
  | @joins pipe frame _ _ _ _ hacts _ h =>
    obtain ⟨m, -, hnews⟩ := news_joins h
    rw [hnews, if_neg]
    · simp [hacts, commits]
    · rintro rfl
      simpa [h.waited] using hp frame rfl

/-- The document after these inputs, and all that it did. -/
def after (F : Format M C Q) (W : Wire) (d : Document M C) : List Input → Document M C × List Effect
  | [] => (d, [])
  | i :: inputs =>
    let rest := after F W (d.step F W i).1 inputs
    (rest.1, (d.step F W i).2 ++ rest.2)

/-- A pipe that has joined whenever an input comes. -/
def Stays (F : Format M C Q) (W : Wire) (p : Nat) (d : Document M C) : List Input → Prop
  | [] => True
  | i :: inputs => d.seatAt p = some true ∧ Stays F W p (d.step F W i).1 inputs

/-- Each run of a document is a run of its order, and the journal and every pipe that stays get the changes of this order,
    each of them once. -/
theorem run_refines (hF : F.RefusesClean) (d : Document M C) (inputs : List Input) :
    ∃ acts, Run (Core.Next F) d.core acts (d.after F W inputs).1.core ∧
      appends (d.after F W inputs).2 = recordsOf F W (commits acts) ∧ ∀ p, d.Stays F W p inputs →
        news p (d.after F W inputs).2 = (commits acts).map fun c => .changed (changedOf F c.entry) := by
  induction inputs generalizing d with
  | nil => exact ⟨[], .nil, rfl, fun _ _ => rfl⟩
  | cons i inputs ih =>
    obtain ⟨acts, hrun, happends, hnews⟩ := ih (d.step F W i).1
    have hfirst : appends (d.step F W i).2 = recordsOf F W (commits (d.acts F W i)) := by
      cases i with
      | saved | rebased => rfl
      | _ => exact (d.step_puts hF _ (by simp) (by simp)).1
    have hcommits : commits (d.acts F W i ++ acts) = commits (d.acts F W i) ++ commits acts := by simp [commits]
    refine ⟨_, (step_refines hF d i).trans hrun, ?_, fun p hp => ?_⟩
    · rw [after, appends_append, hfirst, happends, hcommits, recordsOf, recordsOf, recordsOf, List.map_append]
    · rw [after, news_append, news_step hF d i fun _ _ => hp.1, if_pos hp.1, hnews p hp.2, hcommits, List.map_append]

theorem run_refines_tally :
    let d : Document Nat Nat := ⟨1, ⟨[]⟩, [0], 1, 0, 0, [], ∅, ∅, 0, [0], false⟩
    ∃ acts, Run (Core.Next Tally.format) d.core acts (d.after Tally.format Tally.wire [.fileChanged [0, 0, 0] "ana"]).1.core :=
  (run_refines Tally.refusesClean _ _).imp fun _ h => h.1

end Document

end Kodosi.Documents
