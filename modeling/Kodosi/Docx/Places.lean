import Kodosi.Docx.Model
import Kodosi.Documents.Places
import Kodosi.Text.Selection

/-! Changes of a .docx file, and where a person's selection goes across them. -/

namespace Kodosi.Docx

open Lib Documents Text Derive

/-! ### Changes -/

/-- One batch of edits. A view sends steps. The CLI sends named ops, and the server turns them into steps, so a view
    never sees an op. -/
inductive Change (O : Type) where
  | steps (steps : List Value) (touched : List String) (keep sources : List (String × String))
  | ops (ops : List O) (track : Bool) (author : String)
  | merge (ops : List O) (keep sources : List (String × String))

/-- The named ops: the steps that they become in a document, and the blocks that they name. -/
structure Ops (O : Type) where
  toSteps : Node → List O → Bool → String → Except String (List Value)
  mergeSteps : Node → List O → Except String (List Value)
  targets : O → List String

variable {O V : Type} (T : Ops O)

/-- The top-level blocks that a range of a document touches. -/
def touchedBlocks (doc : Node) (lo hi : Nat) : Out (List String) :=
  match doc.resolve lo, doc.resolve hi with
  | .error .panic, _ | .ok _, .error .panic => panics
  | .error (.failed _), _ | .ok _, .error (.failed _) => .ok []
  | .ok first, .ok last => do
    let first ← first.index 0
    let last ← last.index 0
    pure ((List.range' first (last + 1 - first)).filterMap fun index => (doc.maybeChild index).bind (textAttr · "id"))

/-- The top-level blocks that a step touches in the document before it. -/
def stepBlocks (doc : Node) (step : Step) : Out (List String) :=
  step.range.elim (.ok []) fun (lo, hi) => touchedBlocks doc lo hi

/-- Runs steps on a copy, so a failed step changes nothing. -/
def runSteps (doc : Node) (touched : List String) : List Value → Out (Node × List String)
  | [] => .ok (doc, touched)
  | json :: steps => do
    let step ← Step.fromJson schema json
    let blocks ← stepBlocks doc step
    let doc ← step.apply schema doc
    runSteps doc (touched ++ blocks.filter (· ∉ touched)).dedup steps

def addSources (model : Model V) (sources : List (String × String)) : Model V :=
  let added := sources.filterMap fun (id, xml) =>
    (model.doc.content.reverse.find? fun block => textAttr block "id" = some id).map fun node => (id, Source.mk node xml)
  { model with sources := added ++ model.sources }

/-- Puts the steps in the model, or refuses them. -/
def take (model : Model V) (steps : List Value) (keep sources : List (String × String)) :
    Out (Except Refused (Change O) × Model V) :=
  match runSteps model.doc [] steps with
  | .error .panic => panics
  | .error (.failed message) => .ok (.error (.invalid message), model)
  | .ok (doc, touched) =>
    .ok (.ok (.steps steps touched keep sources), addSources { model with doc, raws := keep ++ model.raws } sources)

/-- The first block that ops name and that a change since touched. -/
def conflict (ops : List O) (ordered : Ordered (Change O)) : Option String :=
  match ordered.change with
  | .steps _ touched _ _ => (ops.flatMap T.targets).find? (· ∈ touched)
  | _ => none

def apply (model : Model V) (change : Change O) (since : List (Ordered (Change O))) :
    Out (Except Refused (Change O) × Model V) :=
  match change with
  | .steps steps _ keep sources =>
    if since.any fun ordered => ordered.change matches .steps .. then
      .ok (.error (.behind "The text moved. Move the steps and send them again."), model)
    else take model steps keep sources
  | .ops ops track author =>
    match since.findSome? fun ordered => (conflict T ops ordered).map fun block => (ordered.author, block) with
    | some (author, block) =>
      .ok (.error (.behind s!"{author} changed block {block} after you read it. Read again."), model)
    | none =>
      match T.toSteps model.doc ops track author with
      | .error message => .ok (.error (.invalid message), model)
      | .ok steps => take model steps [] []
  | .merge ops keep sources =>
    match T.mergeSteps model.doc ops with
    | .error message => .ok (.error (.invalid message), model)
    | .ok steps => take model steps keep sources

/-! ### Places -/

def position (place : Value) (key : String) : Option Nat := (Value.field key place).bind (readNat 64)

/-- An object with one of its fields set. -/
def put (key : String) (value : Value) : Value → Value
  | .object fields => .object (fields.map fun entry => if entry.1 = key then (key, value) else entry)
  | place => place

/-- The ends of a selection across steps, or nothing when one of them cannot be read. -/
def moveEnds : List Value → Nat × Nat → Out (Option (Nat × Nat))
  | [], ends => .ok (some ends)
  | json :: steps, (lo, hi) =>
    match Step.fromJson schema json with
    | .error .panic => panics
    | .error (.failed _) => .ok none
    | .ok step => do
      let lo ← step.move lo 1
      let hi ← step.move hi 1
      moveEnds steps (lo, hi)

/-- Moves a place across the steps of a change, as a selection moves. -/
def mapPlace (place : Value) : Change O → Out Value
  | .steps steps _ _ _ =>
    match position place "from", position place "to" with
    | some lo, some hi => do
      let ends ← moveEnds steps (lo, hi)
      pure (ends.elim place fun (lo, hi) => put "to" (writeNat (max hi lo)) (put "from" (writeNat lo) place))
    | _, _ => .ok place
  | _ => .ok place

/-! ### A selection across changes -/

/-- A change goes in the order of a document: the model took it, and these are its steps. -/
def Orders (model : Model V) (change : Change O) (model' : Model V) : Prop :=
  ∃ asked since, apply T model asked since = .ok (.ok change, model')

/-- Each step is what it says where it is applied, and does not run backwards. -/
def PlainSteps : Node → List Value → Prop
  | _, [] => True
  | doc, json :: steps => ∀ step out, Step.fromJson schema json = .ok step → step.apply schema doc = .ok out →
    (step.Forward ∧ step.Real doc ∧ Fragment.size out.content < 2 ^ 63) ∧ PlainSteps out steps

/-- The steps of a change are plain where it is put in. -/
def Change.Plain (model : Model V) : Change O → Prop
  | .steps list _ _ _ => PlainSteps model.doc list
  | _ => True

variable {T}

variable {model model' : Model V} {change : Change O}

theorem take_steps {steps : List Value} {keep sources : List (String × String)}
    (h : take model steps keep sources = .ok (.ok change, model')) :
    ∃ touched, change = .steps steps touched keep sources ∧ runSteps model.doc [] steps = .ok (model'.doc, touched) := by
  rw [take] at h
  split at h
  · simp [panics] at h
  · simp at h
  · rename_i doc touched hrun
    obtain ⟨rfl, rfl⟩ : Change.steps steps touched keep sources = change ∧ _ = model' := by simpa using h
    exact ⟨touched, rfl, hrun⟩

/-- What is ordered are steps, which ran on the document before. -/
theorem orders_steps (h : Orders T model change model') :
    ∃ steps touched keep sources, change = .steps steps touched keep sources ∧
      runSteps model.doc [] steps = .ok (model'.doc, touched) := by
  obtain ⟨asked, since, h⟩ := h
  have htake : ∀ {steps : List Value} {keep sources : List (String × String)},
      take model steps keep sources = .ok (.ok change, model') → ∃ steps touched keep sources,
        change = .steps steps touched keep sources ∧ runSteps model.doc [] steps = .ok (model'.doc, touched) := by
    intro steps keep sources h
    obtain ⟨touched, hchange, hrun⟩ := take_steps h
    exact ⟨steps, touched, keep, sources, hchange, hrun⟩
  cases asked with
  | steps steps touched keep sources =>
    rw [apply] at h
    split_ifs at h
    · simp at h
    · exact htake h
  | ops ops track author =>
    simp only [apply] at h
    split at h
    · simp at h
    · split at h
      · simp at h
      · exact htake h
  | merge ops keep sources =>
    simp only [apply] at h
    split at h
    · simp at h
    · exact htake h

/-- A document as the crate builds it, and as one that memory holds. -/
structure Held (doc : Node) : Prop where
  sound : Sound schema doc
  small : Fragment.size doc.content < 2 ^ 63

/-- The ends of a selection move within the document, step by step. -/
theorem ends_within : ∀ {steps : List Value} {doc out : Node} {touched touched' : List String} {lo hi : Nat},
    Held doc → PlainSteps doc steps → runSteps doc touched steps = .ok (out, touched') →
    lo ≤ Fragment.size doc.content → hi ≤ Fragment.size doc.content →
    Held out ∧ ∃ lo' hi', moveEnds steps (lo, hi) = .ok (some (lo', hi')) ∧ lo' ≤ Fragment.size out.content ∧
      hi' ≤ Fragment.size out.content
  | [], doc, out, touched, touched', lo, hi, hdoc, _, h, hlo, hhi => by
    obtain ⟨rfl, -⟩ := Prod.mk.inj (Except.ok.inj h)
    exact ⟨hdoc, lo, hi, rfl, hlo, hhi⟩
  | json :: steps, doc, out, touched, touched', lo, hi, hdoc, hplain, h, hlo, hhi => by
    obtain ⟨step, hstep, h⟩ := bind_ok h
    obtain ⟨blocks, -, h⟩ := bind_ok h
    obtain ⟨next, hnext, h⟩ := bind_ok h
    obtain ⟨⟨hforward, hreal, hsmall⟩, hrest⟩ := hplain step next hstep hnext
    obtain ⟨lo₁, hlo₁, hle⟩ := hdoc.sound.moves hstep hforward hreal hdoc.small hsmall hnext hlo 1
    obtain ⟨hi₁, hhi₁, hle'⟩ := hdoc.sound.moves hstep hforward hreal hdoc.small hsmall hnext hhi 1
    have hnext' : Held next := ⟨hdoc.sound.apply hstep hforward hreal hnext, hsmall⟩
    obtain ⟨hout, lo', hi', hmoved, hwithin⟩ := ends_within hnext' hrest h hle hle'
    refine ⟨hout, lo', hi', ?_, hwithin⟩
    rw [moveEnds, hstep]
    dsimp only
    rw [ok_bind hlo₁, ok_bind hhi₁]
    exact hmoved

theorem lookup_put {key other : String} {value : Value} : ∀ {fields : List (String × Value)},
    (fields.map fun entry => if entry.1 = key then (key, value) else entry).lookup other =
      if other = key then (fields.lookup key).map fun _ => value else fields.lookup other
  | [] => by split <;> rfl
  | (name, old) :: fields => by
    have ih := @lookup_put key other value fields
    by_cases hname : name = key
    · subst hname
      by_cases hother : other = name
      · simp [hother]
      · simp only [List.map_cons, if_pos, List.lookup_cons, beq_eq_false_iff_ne.mpr hother, ih, if_neg hother]
    · by_cases hother : other = key
      · subst hother
        simp only [List.map_cons, if_neg hname, List.lookup_cons, beq_eq_false_iff_ne.mpr (Ne.symm hname), ih, if_pos]
      · simp only [List.map_cons, if_neg hname, List.lookup_cons, ih, if_neg hother]

theorem position_put {place : Value} {key : String} {old n : Nat} (h : position place key = some old) (hn : n < 2 ^ 64) :
    position (put key (writeNat n) place) key = some n := by
  cases place with
  | object fields =>
    obtain ⟨value, hvalue, -⟩ := Option.bind_eq_some_iff.mp h
    have hlookup : fields.lookup key = some value := hvalue
    simp only [position, put, Value.field, lookup_put, if_pos, hlookup, Option.map_some, Option.bind_some]
    exact readNat_write hn
  | _ => simp [position, Value.field] at h

variable {place : Value}

theorem position_put_of_ne {key other : String} {value : Value} (h : other ≠ key) :
    position (put key value place) other = position place other := by
  cases place with
  | object fields => simp only [position, put, Value.field, lookup_put, if_neg h]
  | _ => rfl

/-- A place of a document, with the two ends of a selection within it. -/
structure Selects (doc : Node) (place : Value) (lo hi : Nat) : Prop where
  start : position place "from" = some lo
  stop : position place "to" = some hi
  lo_le : lo ≤ Fragment.size doc.content
  hi_le : hi ≤ Fragment.size doc.content

variable {lo hi : Nat}

/-- One change moves a selection to one of the new document, with its ends in order. -/
theorem mapPlace_selects (hdoc : Held model.doc) (hplain : change.Plain model) (h : Orders T model change model')
    (hplace : Selects model.doc place lo hi) :
    Held model'.doc ∧ ∃ place' lo' hi', mapPlace place change = .ok place' ∧ Selects model'.doc place' lo' hi' ∧
      lo' ≤ hi' := by
  obtain ⟨steps, touched, keep, sources, rfl, hrun⟩ := orders_steps h
  obtain ⟨hout, lo', hi', hmoved, hlo, hhi⟩ := ends_within hdoc hplain hrun hplace.lo_le hplace.hi_le
  have hsmall := hout.small
  refine ⟨hout, put "to" (writeNat (max hi' lo')) (put "from" (writeNat lo') place), lo', max hi' lo', ?_,
    ⟨?_, ?_, hlo, max_le hhi hlo⟩, le_max_right _ _⟩
  · rw [mapPlace, hplace.start, hplace.stop]
    dsimp only
    rw [ok_bind hmoved]
    rfl
  · rw [position_put_of_ne (by decide)]
    exact position_put hplace.start (by omega)
  · refine @position_put _ _ hi _ ?_ (by omega)
    rw [position_put_of_ne (by decide)]
    exact hplace.stop

/-- A selection of a document, moved across changes that applied one after the other, is one of the document after them,
    with its ends in order as soon as there is one change. -/
theorem selection_follows {changes : List (Change O)} (hdoc : Held model.doc) (hplace : Selects model.doc place lo hi)
    (hrun : Run (Guarded (fun model change => change.Plain model) (Orders T)) model changes model') :
    Held model'.doc ∧ ∃ place' lo' hi', changes.foldlM mapPlace place = .ok place' ∧ Selects model'.doc place' lo' hi' ∧
      (changes ≠ [] ∨ lo ≤ hi → lo' ≤ hi') := by
  induction hrun with
  | nil => exact ⟨hdoc, place, lo, hi, rfl, hplace, fun h => h.elim (fun h => absurd rfl h) id⟩
  | snoc _ hnext ih =>
    obtain ⟨hheld, place₁, lo₁, hi₁, hmoved, hselects, -⟩ := ih
    obtain ⟨hplain, horders⟩ := hnext
    obtain ⟨hout, place', lo', hi', hmap, hselects', hle⟩ := mapPlace_selects hheld hplain horders hselects
    refine ⟨hout, place', lo', hi', ?_, hselects', fun _ => hle⟩
    rw [List.foldlM_append, ok_bind hmoved, List.foldlM_cons, ok_bind hmap]
    rfl

/-! ### Places follow their document -/

/-- In every reachable state of a live document, the place of a seat is what its view sent at a rev, moved across every
    change ordered after it. In a .docx file, a selection that is moved across changes that applied is one of the new
    document, with its ends in order. -/
theorem places_follow {M C Q : Type} {F : Format M C Q} {W : Wire} (hF : F.RefusesClean) (hW : W.KeepsStamps) {file : Bytes}
    {epoch : Nat} {assets : Assets} {d₀ : Document M C} (hopen : Document.openFile F file epoch assets = .ok d₀)
    {events : List Documents.Event} {p : Placed M C} (hrun : Run (Placed.Next F W) (.start d₀) events p) :
    (∀ (pipe : Nat) (seat : Seat), p.life.doc.seats[pipe]? = some seat →
      seat.place = moved F (p.sent pipe).2 (p.order.filter fun e => (p.sent pipe).1 < e.rev)) ∧
    ∀ (T : Ops O) (model model' : Model V) (changes : List (Change O)) (place : Value) (lo hi : Nat),
      Held model.doc → Selects model.doc place lo hi →
      Run (Guarded (fun model change => change.Plain model) (Orders T)) model changes model' →
      ∃ place' lo' hi', changes.foldlM mapPlace place = .ok place' ∧ Selects model'.doc place' lo' hi' ∧
        (changes ≠ [] ∨ lo ≤ hi → lo' ≤ hi') :=
  ⟨fun _ _ hseat => Placed.place_follows hF hW hopen hrun hseat,
    fun _ _ _ _ _ _ _ hdoc hplace hrun => (selection_follows hdoc hplace hrun).2⟩

/-! ### Two paragraphs -/

def lineAttrs (id : String) : Attrs :=
  [("id", .string id), ("style", .null), ("align", .null), ("numId", .null), ("ilvl", .null), ("props", .null),
    ("pageBreak", .bool false)]

def line (id text : String) : Node :=
  .mk 1 (lineAttrs id) [.mk 6 [] [] [] (some (encodeUtf16 text)) true] [] none false

def twoParagraphs : Model Unit := ⟨.mk 0 [] [line "a" "one", line "b" "two"] [] none false, [], [], ()⟩

/-- The JSON of a step that replaces a range by a slice that has no content. -/
def emptying (lo hi openEnd : Nat) : Value :=
  .object [("stepType", .string "replace"), ("from", writeNat lo), ("to", writeNat hi),
    ("slice", .object [("openEnd", writeNat openEnd)])]

def placeAt (lo hi : Nat) : Value := .object [("from", writeNat lo), ("to", writeNat hi)]

def noOps : Ops Unit := ⟨fun _ _ _ _ => .ok [], fun _ _ => .ok [], fun _ => []⟩

theorem emptying_reads {lo hi openEnd : Nat} (hlo : lo < 2 ^ 64) (hhi : hi < 2 ^ 64) (hopen : openEnd < 2 ^ 64) :
    Step.fromJson schema (emptying lo hi openEnd) = .ok (.replace lo hi ⟨[], 0, openEnd⟩ false) := by
  simp [Step.fromJson, emptying, Value.at, Value.field, asStr, numberOf, List.lookup, readNat_write hlo,
    readNat_write hhi, readNat_write hopen, Lib.require, Slice.fromJson, openFromJson, Fragment.fromJson,
    Fragment.readWith, readBool]
  rfl

theorem placeAt_selects {doc : Node} (hlo : lo ≤ Fragment.size doc.content) (hhi : hi ≤ Fragment.size doc.content)
    (hsmall : Fragment.size doc.content < 2 ^ 63) :
    Selects doc (placeAt lo hi) lo hi :=
  ⟨readNat_write (by omega), readNat_write (by omega), hlo, hhi⟩

theorem twoParagraphs_held : Held twoParagraphs.doc := by
  have hline : ∀ id text : String, (line id text).Built schema ∧ (line id text).HoldsText schema := fun id text =>
    ⟨⟨⟨nofun, fun _ => show 1 ≠ schema.textNode ∧ schema.isLeaf 1 = false by decide, nofun⟩,
      ⟨⟨fun _ => ⟨rfl, rfl, rfl⟩, nofun, nofun⟩, trivial⟩, trivial⟩,
      ⟨⟨nofun, fun h => absurd h (show 1 ≠ schema.textNode by decide)⟩, ⟨⟨fun _ => rfl, fun _ => rfl⟩, trivial⟩, trivial⟩⟩
  exact ⟨⟨⟨(hline "a" "one").2, (hline "b" "two").2, trivial⟩,
    typed_of_built ⟨(hline "a" "one").1, (hline "b" "two").1, trivial⟩⟩, by decide⟩

/-- One step with a slice that has no content, run on two paragraphs. -/
theorem emptying_runs {lo hi openEnd size : Nat} {blocks : List String} (hlo : lo < 2 ^ 64) (hhi : hi < 2 ^ 64)
    (hopen : openEnd < 2 ^ 64) (hblocks : stepBlocks twoParagraphs.doc (.replace lo hi ⟨[], 0, openEnd⟩ false) = .ok blocks)
    (hsize : (Step.apply schema twoParagraphs.doc (.replace lo hi ⟨[], 0, openEnd⟩ false)).toOption.map
      (fun out => Fragment.size out.content) = some size) :
    ∃ out, Step.apply schema twoParagraphs.doc (.replace lo hi ⟨[], 0, openEnd⟩ false) = .ok out ∧
      Fragment.size out.content = size ∧
      Orders noOps twoParagraphs (.steps [emptying lo hi openEnd] blocks.dedup [] []) { twoParagraphs with doc := out } := by
  obtain ⟨out, hout, hsize⟩ := ok_of_toOption (f := fun out : Node => Fragment.size out.content) hsize
  refine ⟨out, hout, hsize, .steps [emptying lo hi openEnd] [] [] [], [], ?_⟩
  have hrun : runSteps twoParagraphs.doc [] [emptying lo hi openEnd] = .ok (out, blocks.dedup) := by
    rw [runSteps, ok_bind (emptying_reads hlo hhi hopen), ok_bind hblocks, ok_bind hout]
    simp [runSteps]
  rw [apply, take, hrun]
  rfl

/-- The first word is deleted, and the selection of the second one follows its document. -/
theorem places_follow_deletion : (∀ seat : Seat, Tally.placed.life.doc.seats[1]? = some seat →
      seat.place = moved Tally.placing (Tally.nulls 1) Tally.placed.order) ∧
    ∃ out place' lo' hi', [(.steps [emptying 1 4 0] ["a"] [] [] : Change Unit)].foldlM mapPlace (placeAt 6 9) = .ok place' ∧
      Selects out place' lo' hi' ∧ lo' ≤ hi' := by
  obtain ⟨out, hout, hsize, horders⟩ := @emptying_runs 1 4 0 7 ["a"] (by decide) (by decide) (by decide) (by decide +kernel)
    (by decide +kernel)
  have hplain : Change.Plain twoParagraphs (.steps [emptying 1 4 0] ["a"] [] [] : Change Unit) := by
    intro step next hstep hnext
    obtain rfl := Except.ok.inj (hstep.symm.trans (emptying_reads (by decide) (by decide) (by decide)))
    obtain rfl := Except.ok.inj (hnext.symm.trans hout)
    exact ⟨⟨show 1 ≤ 4 by decide, .inr ⟨rfl, le_rfl⟩, by omega⟩, trivial⟩
  have hplace : Selects twoParagraphs.doc (placeAt 6 9) 6 9 :=
    placeAt_selects (by decide) (by decide) (by decide)
  obtain ⟨hseats, hselection⟩ := places_follow (O := Unit) (V := Unit) Tally.placing_refusesClean Tally.placeWire_keepsStamps
    Tally.opens_placing Tally.placed_run
  obtain ⟨place', lo', hi', hmoved, hselects, hle⟩ := hselection noOps twoParagraphs
      { twoParagraphs with doc := out } [.steps [emptying 1 4 0] ["a"] [] []] (placeAt 6 9) 6 9 twoParagraphs_held hplace
      (Run.single_iff.mpr ⟨hplain, horders⟩)
  exact ⟨fun seat hseat => hseats 1 seat hseat, out, place', lo', hi', hmoved, hselects, hle (.inl (by simp))⟩

/-- A step that came with an empty slice that says it is open on the right takes a whole paragraph away, and a selection
    at the end moves past the new end. One that runs backwards is taken too, and moving a selection across it stops the
    document. -/
theorem selection_past :
    (∃ model' place' hi', Orders noOps twoParagraphs (.steps [emptying 0 2 1] ["a"] [] []) model' ∧
      Selects twoParagraphs.doc (placeAt 10 10) 10 10 ∧
      mapPlace (placeAt 10 10) (.steps [emptying 0 2 1] ["a"] [] [] : Change Unit) = .ok place' ∧
      position place' "to" = some hi' ∧ Fragment.size model'.doc.content < hi') ∧
    ∃ model', Orders noOps twoParagraphs (.steps [emptying 3 1 0] ["a"] [] []) model' ∧
      mapPlace (placeAt 10 10) (.steps [emptying 3 1 0] ["a"] [] [] : Change Unit) = panics := by
  have hplace : Selects twoParagraphs.doc (placeAt 10 10) 10 10 :=
    placeAt_selects (by decide) (by decide) (by decide)
  constructor
  · obtain ⟨out, hout, hsize, horders⟩ := @emptying_runs 0 2 1 5 ["a"] (by decide) (by decide) (by decide)
      (by decide +kernel) (by decide +kernel)
    refine ⟨_, put "to" (writeNat 8) (put "from" (writeNat 8) (placeAt 10 10)), 8, horders, hplace, ?_, ?_, by
      dsimp only
      omega⟩
    · have hmove : Step.move (.replace 0 2 ⟨[], 0, 1⟩ false) 10 1 = .ok 8 := by decide
      rw [mapPlace, hplace.start, hplace.stop]
      dsimp only
      rw [moveEnds, emptying_reads (by decide) (by decide) (by decide)]
      dsimp only
      rw [ok_bind hmove, ok_bind hmove]
      rfl
    · refine @position_put _ _ 10 _ ?_ (by decide)
      rw [position_put_of_ne (by decide)]
      exact hplace.stop
  · obtain ⟨out, hout, hsize, horders⟩ := @emptying_runs 3 1 0 12 ["a"] (by decide) (by decide) (by decide)
      (by decide +kernel) (by decide +kernel)
    refine ⟨_, horders, ?_⟩
    have hmove : Step.move (.replace 3 1 ⟨[], 0, 0⟩ false) 10 1 = panics := by decide
    rw [mapPlace, hplace.start, hplace.stop]
    dsimp only
    rw [moveEnds, emptying_reads (by decide) (by decide) (by decide)]
    dsimp only
    rw [hmove]
    rfl

end Kodosi.Docx
