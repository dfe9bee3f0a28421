import Kodosi.Docx.Places
import Kodosi.Text.Brings

/-! The blocks that a batch of steps touches: an op on one of them with an older base is refused. -/

namespace Kodosi.Docx

open Lib Documents Text Derive

variable {doc out old new : Node} {step : Step} {slice : Slice} {lo hi i j : Nat} {id : String} {touched touched' : List String}

/-! ### The blocks of a document -/

/-- The id of a block; text has none. -/
def blockName (node : Node) : Option String := if node.kind = schema.textNode then none else textAttr node "id"

theorem blockName_names : Names schema blockName where
  copy _ _ := rfl
  withMarks _ _ := rfl
  text _ h := if_pos h

/-- A document whose top level keeps to its rule, as the crate builds it. -/
structure Proper (doc : Node) : Prop where
  kind : doc.kind = topNode
  rule : schema.validContent topNode doc.content = true
  texts : Everywhere (Node.Texts schema) doc.content

theorem kinds_of_match {start result : MatchId} (hstart : start = 1 ∨ start = 2) : ∀ {kinds : List NodeId},
    schema.matchKinds start kinds = some result → ∀ kind ∈ kinds, kind = 1 ∨ kind = 2 ∨ kind = 5
  | [], _, _, hmem => absurd hmem List.not_mem_nil
  | first :: rest, h, kind, hmem => by
    obtain ⟨⟨found, next⟩, hfind, h⟩ := Option.bind_eq_some_iff.mp h
    have hname : found = first := by simpa using List.find?_some hfind
    have hentry := List.mem_of_find?_eq_some hfind
    have hnext : (schema.state start).next = [(1, 2), (2, 2), (5, 2)] := by
      rcases hstart with rfl | rfl <;> rfl
    rw [hnext] at hentry
    simp only [List.mem_cons, Prod.mk.injEq, List.not_mem_nil, or_false] at hentry
    obtain ⟨hfirst, hnext⟩ : (first = 1 ∨ first = 2 ∨ first = 5) ∧ next = 2 := by
      rw [hname] at hentry
      rcases hentry with ⟨h, hnext⟩ | ⟨h, hnext⟩ | ⟨h, hnext⟩
      · exact ⟨.inl h, hnext⟩
      · exact ⟨.inr (.inl h), hnext⟩
      · exact ⟨.inr (.inr h), hnext⟩
    rcases List.mem_cons.mp hmem with rfl | hmem
    · exact hfirst
    · exact kinds_of_match (.inr hnext) h kind hmem

variable {block : Node}

theorem Proper.kinds (h : Proper doc) (hblock : block ∈ doc.content) :
    block.kind = 1 ∨ block.kind = 2 ∨ block.kind = 5 := by
  have hrule := h.rule
  rw [Schema.validContent] at hrule
  split at hrule
  next result hmatch => exact kinds_of_match (.inl rfl) hmatch _ (List.mem_map_of_mem hblock)
  next => cases hrule

theorem Proper.blocks (h : Proper doc) : Blocks doc.content := fun block hblock => by
  by_contra htext
  have hkind : block.kind = schema.textNode := (everywhere_iff.mp h.texts block hblock).here (by simpa using htext)
  have := h.kinds hblock
  rw [hkind] at this
  exact absurd this (by decide)

theorem Proper.blockName (h : Proper doc) (hblock : block ∈ doc.content) : blockName block = textAttr block "id" := by
  have := h.kinds hblock
  refine if_neg fun hkind => ?_
  rw [hkind] at this
  exact absurd this (by decide)

theorem Proper.names (h : Proper doc) {nodes : List Node} (hsub : ∀ node ∈ nodes, node ∈ doc.content) :
    names Docx.blockName nodes = nodes.filterMap (textAttr · "id") :=
  List.filterMap_congr fun node hnode => h.blockName (hsub node hnode)

theorem Proper.apply {json : Value} (h : Proper doc) (hstep : Step.fromJson schema json = .ok step)
    (hout : step.apply schema doc = .ok out) : Proper out := by
  have hslice : ∀ slice ∈ step.slice, Everywhere (Node.Texts schema) slice.content := fun slice hslice =>
    texts_of_built (stepFromJson_built hstep slice hslice)
  have htexts := apply_lasts texts_lasting texts_bare h.texts hslice hout
  obtain ⟨lo, hi, added, -, hreplace⟩ | ⟨-, hsame, hkind⟩ := apply_puts hout
  · have hrule := h.rule
    rw [← h.kind] at hrule
    obtain ⟨hrule, hkind⟩ := replace_rule hrule hreplace
    exact ⟨hkind.trans h.kind, h.kind ▸ hrule, htexts⟩
  · exact ⟨hkind.trans h.kind, hsame ▸ h.rule, htexts⟩

/-! ### What a step brings -/

/-- The ids that a slice brings to the top level of a document where it goes in. -/
def broughtAt (doc : Node) (lo : Nat) (slice : Slice) : List String :=
  match doc.resolve lo with
  | .ok fro => slice.brings blockName fro
  | .error _ => []

/-- The ids of blocks that a step brings to the top level of a document: with its slice, or as a new id of a block. -/
def bringsIds (doc : Node) : Step → List String
  | .replace lo _ slice _ => broughtAt doc lo slice
  | .replaceAround lo _ gapFrom gapTo slice insert _ =>
    match doc.slice gapFrom gapTo with
    | .error _ => []
    | .ok gap =>
      match slice.insertAt schema insert gap.content with
      | .ok (some inserted) => broughtAt doc lo inserted
      | _ => []
  | .attr pos name value =>
    match doc.resolve pos with
    | .ok fro => if fro.depth = 0 ∧ name = "id" then (asStr value).toList else []
    | .error _ => []
  | _ => []

/-- A step that does not end in a block before the one where it starts, and brings no id of a block that was there and that
    no step touched. -/
structure Careful (doc : Node) (touched : List String) (step : Step) : Prop where
  forward : ∀ range ∈ step.range, ∀ fro to_ i j, doc.resolve range.1 = .ok fro → doc.resolve range.2 = .ok to_ →
    fro.index 0 = .ok i → to_.index 0 = .ok j → i ≤ j
  fresh : ∀ id ∈ bringsIds doc step, id ∈ touched ∨ ∀ block ∈ doc.content, textAttr block "id" ≠ some id

/-- Each step of a batch is careful where it is applied. -/
def CarefulSteps : Node → List String → List Value → Prop
  | _, _, [] => True
  | doc, touched, json :: steps => ∀ step blocks out, Step.fromJson schema json = .ok step →
    stepBlocks doc step = .ok blocks → step.apply schema doc = .ok out →
    Careful doc (touched ++ blocks) step ∧ CarefulSteps out (touched ++ blocks.filter (· ∉ touched)).dedup steps

/-! ### One step -/

theorem mem_touchedBlocks {names : List String} {fro to_ : ResolvedPos} (hfro : doc.resolve lo = .ok fro)
    (hto : doc.resolve hi = .ok to_) (hi' : fro.index 0 = .ok i) (hj : to_.index 0 = .ok j)
    (h : touchedBlocks doc lo hi = .ok names) : names = (touching i j doc.content).filterMap (textAttr · "id") := by
  rw [touchedBlocks, hfro, hto] at h
  dsimp only at h
  rw [ok_bind hi', ok_bind hj] at h
  obtain rfl := Except.ok.inj h
  have hrange : ∀ n i : Nat, (List.range' i n).filterMap (fun index => (doc.maybeChild index).bind (textAttr · "id")) =
      ((doc.content.drop i).take n).filterMap (textAttr · "id") := by
    intro n
    induction n with
    | zero => exact fun i => rfl
    | succ n ih =>
      intro i
      rw [List.range'_succ, List.filterMap_cons, ih]
      by_cases hlt : i < doc.content.length
      · rw [List.drop_eq_getElem_cons hlt, List.take_succ_cons, List.filterMap_cons, Node.maybeChild,
          List.getElem?_eq_getElem hlt]
        rfl
      · rw [List.drop_eq_nil_of_le (by omega), List.drop_eq_nil_of_le (by omega), Node.maybeChild,
          List.getElem?_eq_none (by omega)]
        simp
  exact hrange _ _

/-! ### Attributes of a new node -/

theorem computeAttrs_lookup {given : Option Value} {name : String} {value : Value} : ∀ {rules : List Attribute} {attrs : Attrs},
    Schema.computeAttrs rules given = .ok attrs → attrs.lookup name = some value →
    ∃ rule ∈ rules, rule.name = name ∧ (given.bind (Value.field name)).or rule.default = some value
  | [], _, h, hvalue => by
    obtain rfl := Except.ok.inj h
    cases hvalue
  | rule :: rules, _, h, hvalue => by
    rw [Schema.computeAttrs, List.mapM_cons] at h
    obtain ⟨entry, hentry, h⟩ := bind_ok h
    obtain ⟨rest, hrest, h⟩ := bind_ok h
    obtain rfl := Except.ok.inj h
    obtain ⟨own, hown, hentry⟩ := bind_ok hentry
    obtain rfl := Except.ok.inj hentry
    rw [List.lookup_cons] at hvalue
    by_cases hname : name = rule.name
    · subst hname
      rw [beq_self_eq_true] at hvalue
      obtain rfl := Option.some.inj hvalue
      exact ⟨rule, List.mem_cons_self .., rfl, require_ok.mp hown⟩
    · rw [beq_eq_false_iff_ne.mpr hname] at hvalue
      obtain ⟨found, hfound, hrule⟩ := computeAttrs_lookup hrest hvalue
      exact ⟨found, List.mem_cons_of_mem _ hfound, hrule⟩

/-- A block that is given no id has none. -/
theorem id_default (kind : NodeId) : ∀ rule ∈ (schema.node kind).attrs, rule.name = "id" → rule.default = some .null := by
  have hall : ∀ type ∈ schema.nodes, ∀ rule ∈ type.attrs, rule.name = "id" → rule.default = some .null := by decide
  rw [Schema.node, List.getD_eq_getElem?_getD]
  cases htype : schema.nodes[kind]? with
  | none => exact nofun
  | some type => exact hall type (List.mem_of_getElem? htype)

theorem given_id {kind : NodeId} {given : Value} {attrs : Attrs} (h : schema.nodeAttrs kind (some given) = .ok attrs)
    (hid : (attrs.lookup "id").bind asStr = some id) : (Value.field "id" given).bind asStr = some id := by
  obtain ⟨value, hvalue, hstr⟩ := Option.bind_eq_some_iff.mp hid
  obtain ⟨rule, hrule, hname, hgiven⟩ := computeAttrs_lookup h hvalue
  rw [id_default kind rule hrule hname, Option.bind_some] at hgiven
  cases hfield : Value.field "id" given with
  | none =>
    rw [hfield] at hgiven
    obtain rfl := Option.some.inj hgiven
    cases hstr
  | some found =>
    rw [hfield] at hgiven
    obtain rfl := Option.some.inj hgiven
    exact hstr

variable {node : Node}

theorem mem_names_single :
    id ∈ names blockName [node] ↔ node.kind ≠ schema.textNode ∧ textAttr node "id" = some id := by
  rw [names, List.mem_filterMap]
  simp only [List.mem_singleton, exists_eq_left, blockName]
  split <;> simp_all

theorem new_names {updated : Node} {marks : List Mark}
    (h : Node.new schema node.kind (some (.object node.attrs)) [] marks = .ok updated) :
    ∀ id ∈ names blockName [updated], id ∈ names blockName [node] := by
  intro id hid
  obtain ⟨attrs, hattrs, h⟩ := bind_ok h
  obtain rfl := Except.ok.inj h
  obtain ⟨hkind, hid⟩ := mem_names_single.mp hid
  exact mem_names_single.mpr ⟨hkind, given_id hattrs hid⟩

theorem lookup_setField (attrs : Attrs) (name other : String) (value : Value) :
    Value.field other (setField attrs name value) = if other = name then some value else attrs.lookup other := by
  have hfiltered : (attrs.filter fun entry => entry.1 ≠ name).lookup other =
      if other = name then none else attrs.lookup other := by
    induction attrs with
    | nil => split <;> rfl
    | cons entry rest ih =>
      obtain ⟨key, kept⟩ := entry
      by_cases hkey : key = name
      · subst hkey
        rw [List.filter_cons_of_neg (by simp), ih, List.lookup_cons]
        by_cases hother : other = key
        · simp [hother]
        · simp [hother, beq_eq_false_iff_ne.mpr hother]
      · rw [List.filter_cons_of_pos (by simpa using hkey), List.lookup_cons, List.lookup_cons, ih]
        by_cases hother : other = key
        · subst hother
          simp [hkey]
        · rw [beq_eq_false_iff_ne.mpr hother]
  rw [setField, Value.field, List.lookup_append, hfiltered]
  by_cases hother : other = name
  · simp [hother, List.lookup]
  · rw [if_neg hother, if_neg hother, List.lookup_cons, beq_eq_false_iff_ne.mpr hother]
    simp [List.lookup]

theorem attr_names {updated : Node} {name : String} {value : Value}
    (h : node.withAttrs schema (setField node.attrs name value) = .ok updated) :
    ∀ id ∈ names blockName [updated], name = "id" ∧ asStr value = some id ∨ id ∈ names blockName [node] := by
  intro id hid
  obtain ⟨attrs, hattrs, h⟩ := bind_ok h
  obtain rfl := Except.ok.inj h
  obtain ⟨hkind, hid⟩ := mem_names_single.mp hid
  have hgiven := given_id hattrs hid
  rw [lookup_setField] at hgiven
  by_cases hname : "id" = name
  · rw [if_pos hname, Option.bind_some] at hgiven
    exact .inl ⟨hname.symm, hgiven⟩
  · rw [if_neg hname] at hgiven
    exact .inr (mem_names_single.mpr ⟨hkind, hgiven⟩)

/-! ### What a step leaves -/

theorem mem_of_touching {nodes : List Node} (h : block ∈ touching i j nodes) : block ∈ nodes :=
  List.mem_of_mem_drop (List.mem_of_mem_take h)

/-- A position has a block of its document. -/
theorem index_exists {r : ResolvedPos} {pos : Nat} (h : doc.resolve pos = .ok r) : ∃ i, r.index 0 = .ok i := by
  obtain ⟨i, o, hlevel⟩ := (resolve_stand h).level
  exact ⟨i, index_of_level hlevel⟩

variable {blocks : List String}

/-- A step leaves every block whose id is none of those that it touches or brings. -/
theorem step_keeps {json : Value} (h : Proper doc) (hstep : Step.fromJson schema json = .ok step)
    (hblocks : stepBlocks doc step = .ok blocks) (hout : step.apply schema doc = .ok out)
    (hforward : ∀ range ∈ step.range, ∀ fro to_ i j, doc.resolve range.1 = .ok fro → doc.resolve range.2 = .ok to_ →
      fro.index 0 = .ok i → to_.index 0 = .ok j → i ≤ j) (hid : id ∉ blocks) (hbrings : id ∉ bringsIds doc step) :
    holding blockName id out.content = holding blockName id doc.content := by
  have hslice : ∀ slice ∈ step.slice, Everywhere (Node.Texts schema) slice.content := fun slice hslice =>
    texts_of_built (stepFromJson_built hstep slice hslice)
  obtain ⟨lo, hi, added, hputs, hreplace⟩ | ⟨-, hsame, -⟩ := apply_puts hout
  case inr => rw [hsame]
  have hadded := puts_lasts texts_lasting texts_bare h.texts hslice hputs
  obtain ⟨fro, to_, hfro, hto, -⟩ := replace_ok hreplace
  obtain ⟨i, hi'⟩ := index_exists hfro
  obtain ⟨j, hj⟩ := index_exists hto
  have outside : ∀ {lo hi : Nat} {fro to_ : ResolvedPos} {i j : Nat}, doc.resolve lo = .ok fro → doc.resolve hi = .ok to_ →
      fro.index 0 = .ok i → to_.index 0 = .ok j → step.range = some (lo, hi) →
      id ∉ names blockName (touching i j doc.content) ∧ i ≤ j := by
    intro lo hi fro to_ i j hfro hto hi' hj hrange
    rw [stepBlocks, hrange] at hblocks
    rw [h.names fun node => mem_of_touching, ← mem_touchedBlocks hfro hto hi' hj hblocks]
    exact ⟨hid, hforward (lo, hi) hrange fro to_ i j hfro hto hi' hj⟩
  have ranged : step.range = some (lo, hi) → id ∉ added.brings blockName fro →
      holding blockName id out.content = holding blockName id doc.content := fun hrange hnone => by
    obtain ⟨hnot, hij⟩ := outside hfro hto hi' hj hrange
    exact ranged_keeps blockName_names h.texts h.blocks hadded hreplace hfro hto hi' hj hij hnot hnone
  have remarked : ∀ {change : Node → Node → Node} {parent : Node} {old : Slice}, step.range = some (lo, hi) → Remarks change →
      doc.slice lo hi = .ok old → added = ⟨mapFragment schema old.content change parent, old.openStart, old.openEnd⟩ →
      holding blockName id out.content = holding blockName id doc.content := by
    rintro change parent old hrange hchange hold rfl
    obtain ⟨hnot, hij⟩ := outside hfro hto hi' hj hrange
    exact ranged hrange fun hmem => hnot
      (remarked_brings blockName_names hchange parent h.texts h.blocks hold hfro hto hi' hj hij hmem)
  have kept : ∀ {node : Node}, doc.content[i]? = some node → id ∉ names blockName (touching i i doc.content) →
      id ∉ names blockName [node] := fun {node} hget hnot hmem => by
    obtain ⟨hlt, hget⟩ := List.getElem?_eq_some_iff.mp hget
    refine hnot ?_
    rwa [touching, Nat.add_sub_cancel_left, List.drop_eq_getElem_cons hlt, List.take_succ_cons, List.take_zero, hget]
  cases hputs with
  | replace =>
    refine ranged rfl fun hmem => hbrings ?_
    rw [bringsIds, broughtAt, hfro]
    exact hmem
  | around hgap hinserted =>
    refine ranged rfl fun hmem => hbrings ?_
    rw [bringsIds, hgap]
    dsimp only
    rw [hinserted]
    dsimp only
    rw [broughtAt, hfro]
    exact hmem
  | addMark parent hold => exact remarked rfl (markInline_remarks _) hold rfl
  | removeMark hold => exact remarked rfl (fun node _ => ⟨_, rfl⟩) hold rfl
  | addNodeMark hnode hupdated | removeNodeMark hnode hupdated =>
    obtain ⟨hnot, -⟩ := outside hfro hfro hi' hi' rfl
    exact placed_keeps blockName_names h.texts h.blocks hadded hnode hreplace hfro hi' hnot fun _ hget hmem =>
      kept hget hnot (new_names hupdated id hmem)
  | @attr pos name value node updated hnode hupdated =>
    obtain ⟨hnot, -⟩ := outside hfro hfro hi' hi' rfl
    refine placed_keeps blockName_names h.texts h.blocks hadded hnode hreplace hfro hi' hnot fun hdepth hget hmem => ?_
    rcases attr_names hupdated id hmem with ⟨hname, hvalue⟩ | hmem
    · refine hbrings ?_
      rw [bringsIds, hfro]
      dsimp only
      rw [if_pos ⟨hdepth, hname⟩, hvalue]
      exact List.mem_singleton_self id
    · exact kept hget hnot hmem

/-! ### A batch of steps -/

theorem mem_touched : id ∈ (touched ++ blocks.filter (· ∉ touched)).dedup ↔ id ∈ touched ∨ id ∈ blocks := by
  rw [List.mem_dedup, List.mem_append, List.mem_filter, decide_eq_true_eq]
  tauto

theorem runSteps_touched : ∀ {steps : List Value} {doc : Node} {touched : List String},
    runSteps doc touched steps = .ok (out, touched') → id ∈ touched → id ∈ touched'
  | [], doc, touched, h, hid => by
    obtain ⟨-, rfl⟩ := Prod.mk.inj (Except.ok.inj h)
    exact hid
  | json :: steps, doc, touched, h, hid => by
    obtain ⟨step, -, h⟩ := bind_ok h
    obtain ⟨blocks, -, h⟩ := bind_ok h
    obtain ⟨next, -, h⟩ := bind_ok h
    exact runSteps_touched h (mem_touched.mpr (.inl hid))

/-- The blocks of an id that a batch does not touch are those that there were before it. -/
theorem runSteps_keeps : ∀ {steps : List Value} {doc : Node} {touched : List String}, Proper doc →
    CarefulSteps doc touched steps → runSteps doc touched steps = .ok (out, touched') → id ∉ touched' →
    holding blockName id doc.content ≠ [] → Proper out ∧ holding blockName id out.content = holding blockName id doc.content
  | [], doc, touched, hdoc, _, h, hid, _ => by
    obtain ⟨rfl, rfl⟩ := Prod.mk.inj (Except.ok.inj h)
    exact ⟨hdoc, rfl⟩
  | json :: steps, doc, touched, hdoc, hcareful, h, hid, hthere => by
    obtain ⟨step, hstep, h⟩ := bind_ok h
    obtain ⟨blocks, hblocks, h⟩ := bind_ok h
    obtain ⟨next, hnext, h⟩ := bind_ok h
    obtain ⟨hone, hrest⟩ := hcareful step blocks next hstep hblocks hnext
    have hnot : id ∉ touched ∧ id ∉ blocks := by
      rw [← not_or]
      exact fun hmem => hid (runSteps_touched h (mem_touched.mpr hmem))
    have hbrings : id ∉ bringsIds doc step := fun hmem => by
      rcases hone.fresh id hmem with htouched | hgone
      · exact (List.mem_append.mp htouched).elim hnot.1 hnot.2
      · refine hthere (List.filter_eq_nil_iff.mpr fun block hblock => ?_)
        rw [hdoc.blockName hblock]
        simpa using hgone block hblock
    have hkept := step_keeps hdoc hstep hblocks hnext hone.forward hnot.2 hbrings
    obtain ⟨hout, hrestKept⟩ := runSteps_keeps (hdoc.apply hstep hnext) hrest h hid (by rwa [hkept])
    exact ⟨hout, hrestKept.trans hkept⟩

/-- An op that names a block which a change since its base touched is refused. -/
theorem apply_behind {O V : Type} {T : Ops O} {model : Model V} {ops : List O} {track : Bool} {author : String}
    {since : List (Ordered (Change O))} {ordered : Ordered (Change O)} {steps : List Value}
    {keep sources : List (String × String)} (hsince : ordered ∈ since)
    (hchange : ordered.change = .steps steps touched keep sources) (htarget : id ∈ ops.flatMap T.targets) (hid : id ∈ touched) :
    ∃ message, apply T model (.ops ops track author) since = .ok (.error (.behind message), model) := by
  have hmeets : (conflict T ops ordered).isSome = true := by
    rw [conflict, hchange]
    exact List.find?_isSome.mpr ⟨id, htarget, by simpa using hid⟩
  have hfound : (since.findSome? fun ordered =>
      (conflict T ops ordered).map fun block => (ordered.author, block)).isSome = true := by
    rw [List.findSome?_isSome_iff]
    exact ⟨ordered, hsince, by rw [Option.isSome_map, hmeets]⟩
  obtain ⟨⟨other, block⟩, hfound⟩ := Option.isSome_iff_exists.mp hfound
  refine ⟨s!"{other} changed block {block} after you read it. Read again.", ?_⟩
  rw [apply, hfound]

/-! ### Touched blocks -/

/-- Two elements that give the same are one, where nothing is given twice. -/
theorem eq_of_nodup {α β : Type} {f : α → Option β} {items : List α} {a b : α} {x : β} (h : (items.filterMap f).Nodup)
    (ha : a ∈ items) (hb : b ∈ items) (hax : f a = some x) (hbx : f b = some x) : a = b := by
  induction items with
  | nil => cases ha
  | cons item rest ih =>
    have hgiven : ∀ {other : α}, other ∈ rest → f other = some x → x ∈ rest.filterMap f := fun hmem hx =>
      List.mem_filterMap.mpr ⟨_, hmem, hx⟩
    rcases List.mem_cons.mp ha with rfl | hrest
    · rcases List.mem_cons.mp hb with rfl | hb
      · rfl
      · rw [List.filterMap_cons, hax, List.nodup_cons] at h
        exact absurd (hgiven hb hbx) h.1
    · rcases List.mem_cons.mp hb with rfl | hb
      · rw [List.filterMap_cons, hbx, List.nodup_cons] at h
        exact absurd (hgiven hrest hax) h.1
      · have hnodup : (rest.filterMap f).Nodup := by
          rw [List.filterMap_cons] at h
          split at h
          · exact h
          · exact (List.nodup_cons.mp h).2
        exact ih hnodup hrest hb

/-- Where no step of a batch ends before the block in which it starts, and none brings the id of a block that is still
    untouched: each block of a document with distinct ids that is there before the batch and after it, but not the same, is in
    the list of touched blocks, and an op that names it with a base before the batch is refused. -/
theorem touched_sound {O V : Type} {steps : List Value} (hvalid : doc.valid schema = true) (hbuilt : doc.Built schema)
    (hkind : doc.kind = topNode) (hids : (doc.content.filterMap (textAttr · "id")).Nodup) (hcareful : CarefulSteps doc [] steps)
    (hrun : runSteps doc [] steps = .ok (out, touched)) (hold : old ∈ doc.content) (hnew : new ∈ out.content)
    (holdId : textAttr old "id" = some id) (hnewId : textAttr new "id" = some id) (hne : old ≠ new) :
    id ∈ touched ∧ ∀ (T : Ops O) (model : Model V) (ops : List O) (track : Bool) (author : String)
      (since : List (Ordered (Change O))) (ordered : Ordered (Change O)) (keep sources : List (String × String)),
      ordered ∈ since → ordered.change = .steps steps touched keep sources → id ∈ ops.flatMap T.targets →
      ∃ message, apply T model (.ops ops track author) since = .ok (.error (.behind message), model) := by
  have hdoc : Proper doc := by
    obtain ⟨hrule, -⟩ := valid_iff.mp hvalid
    exact ⟨hkind, hkind ▸ hrule, texts_of_built hbuilt.content⟩
  have htouched : id ∈ touched := by
    by_contra hid
    have hthere : old ∈ holding blockName id doc.content :=
      List.mem_filter.mpr ⟨hold, by rw [hdoc.blockName hold, holdId]; simp⟩
    obtain ⟨hout, hkept⟩ := runSteps_keeps hdoc hcareful hrun hid (List.ne_nil_of_mem hthere)
    have hlast : new ∈ holding blockName id out.content :=
      List.mem_filter.mpr ⟨hnew, by rw [hout.blockName hnew, hnewId]; simp⟩
    rw [hkept] at hlast
    exact hne (eq_of_nodup hids hold (List.mem_filter.mp hlast).1 holdId hnewId)
  exact ⟨htouched, fun _ _ _ _ _ _ _ _ _ hsince hchange htarget => apply_behind hsince hchange htarget htouched⟩

/-- Two paragraphs keep to the schema. -/
theorem twoParagraphs_built : twoParagraphs.doc.Built schema := by
  have hline : ∀ id text : String, (line id text).Built schema := fun id text =>
    ⟨⟨nofun, fun _ => show 1 ≠ schema.textNode ∧ schema.isLeaf 1 = false by decide, nofun⟩,
      ⟨⟨fun _ => ⟨rfl, rfl, rfl⟩, nofun, nofun⟩, trivial⟩, trivial⟩
  exact ⟨⟨nofun, fun _ => show 0 ≠ schema.textNode ∧ schema.isLeaf 0 = false by decide, nofun⟩, hline "a" "one", hline "b" "two",
    trivial⟩

/-- The first word is deleted: its block is touched. -/
theorem touched_sound_deletion : "a" ∈ ["a"] ∧ ∀ (T : Ops Unit) (model : Model Unit) (ops : List Unit) (track : Bool)
    (author : String) (since : List (Ordered (Change Unit))) (ordered : Ordered (Change Unit))
    (keep sources : List (String × String)), ordered ∈ since → ordered.change = .steps [emptying 1 4 0] ["a"] keep sources →
    "a" ∈ ops.flatMap T.targets →
    ∃ message, apply T model (.ops ops track author) since = .ok (.error (.behind message), model) := by
  have happly : Step.apply schema twoParagraphs.doc (.replace 1 4 ⟨[], 0, 0⟩ false) =
      .ok (.mk 0 [] [.mk 1 (lineAttrs "a") [] [] none false, line "b" "two"] [] none false) := by decide +kernel
  have hblocks : stepBlocks twoParagraphs.doc (.replace 1 4 ⟨[], 0, 0⟩ false) = .ok ["a"] := by decide +kernel
  have hbrings : bringsIds twoParagraphs.doc (.replace 1 4 ⟨[], 0, 0⟩ false) = [] := by decide +kernel
  have hindex : ∀ pos < 5, ∃ r, twoParagraphs.doc.resolve pos = .ok r ∧ r.index 0 = .ok 0 := by
    have hall : ∀ pos < 5, ((twoParagraphs.doc.resolve pos).toOption.map fun r => r.index 0) = some (.ok 0) := by decide +kernel
    exact fun pos hpos => ok_of_toOption (hall pos hpos)
  have hreads := @emptying_reads 1 4 0 (by decide) (by decide) (by decide)
  have hcareful : CarefulSteps twoParagraphs.doc [] [emptying 1 4 0] := by
    intro step blocks out hstep _ _
    obtain rfl := Except.ok.inj (hreads.symm.trans hstep)
    refine ⟨⟨?_, ?_⟩, trivial⟩
    · intro range hrange fro to_ i j hfro hto hi hj
      obtain rfl := Option.some.inj hrange
      obtain ⟨r, hr, hzero⟩ := hindex 1 (by decide)
      obtain rfl := Except.ok.inj (hr.symm.trans hfro)
      obtain rfl := Except.ok.inj (hzero.symm.trans hi)
      exact Nat.zero_le j
    · rw [hbrings]
      exact nofun
  have hrun : runSteps twoParagraphs.doc [] [emptying 1 4 0] =
      .ok (.mk 0 [] [.mk 1 (lineAttrs "a") [] [] none false, line "b" "two"] [] none false, ["a"]) := by
    rw [runSteps, ok_bind hreads, ok_bind hblocks, ok_bind happly]
    rfl
  exact touched_sound (by decide) twoParagraphs_built rfl (by decide) hcareful hrun (List.mem_cons_self ..)
    (List.mem_cons_self ..) (by decide) (by decide) (by decide)

/-- Ops that only name a block. -/
def naming : Ops String := ⟨fun _ _ _ _ => .ok [], fun _ _ => .ok [], fun id => [id]⟩

/-- A step from the second of two paragraphs back to the first one is accepted. It rewrites the second one and touches none,
    so an op on it with the base before that step is not refused. -/
theorem backward_untouched : ∃ out new, (twoParagraphs.doc.content.filterMap (textAttr · "id")).Nodup ∧
    runSteps twoParagraphs.doc [] [emptying 7 3 0] = .ok (out, []) ∧ line "b" "two" ∈ twoParagraphs.doc.content ∧
    out.content.find? (fun block => decide (textAttr block "id" = some "b")) = some new ∧ new ≠ line "b" "two" ∧
    ∀ (model : Model Unit) (author : String) (ordered : Ordered (Change String)),
      ordered.change = .steps [emptying 7 3 0] [] [] [] →
      apply naming model (.ops ["b"] false author) [ordered] = take model [] [] [] := by
  have hbackward : Step.apply schema twoParagraphs.doc (.replace 7 3 ⟨[], 0, 0⟩ false) =
      .ok (.mk 0 [] [line "a" "one", line "b" "te", line "b" "two"] [] none false) := by decide +kernel
  have hblocks : stepBlocks twoParagraphs.doc (.replace 7 3 ⟨[], 0, 0⟩ false) = .ok [] := by decide +kernel
  refine ⟨.mk 0 [] [line "a" "one", line "b" "te", line "b" "two"] [] none false, line "b" "te", by decide, ?_,
    .tail _ (.head _), by decide, by decide, ?_⟩
  · rw [runSteps, ok_bind (emptying_reads (by decide) (by decide) (by decide)), ok_bind hblocks, ok_bind hbackward]
    rfl
  · intro model author ordered hchange
    have hnone : conflict naming ["b"] ordered = none := by
      rw [conflict, hchange]
      rfl
    rw [apply, List.findSome?_cons, hnone]
    rfl

end Kodosi.Docx
