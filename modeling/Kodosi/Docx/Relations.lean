import Kodosi.Docx.Kept
import Kodosi.Lib.Run

/-! The relationship ids that saves put in a file, one for each link and picture that is new in its model. -/

namespace Kodosi.Docx

open Documents Text Lib

variable {W : Writer} {node : Node} {nodes : List Node} {text : String} {out out' : Output}

/-! ### What is new -/

/-- A link that a save gives a relationship: one that holds none. -/
def newLinks (wrappers : Wrappers) : Nat :=
  if wrappers.link.any fun mark => (markText mark "relation").isNone then 1 else 0

/-- A picture that a save gives a relationship: one without XML of its own. -/
def newPictures (node : Node) : Nat :=
  if node.units = none ∧ nodeName node = "image" ∧ textAttr node "raw" = none then 1 else 0

def newInGroup : List Node → Nat
  | [] => 0
  | node :: nodes => ((node :: nodes).map newPictures).sum + newLinks (Wrappers.of node)

mutual

/-- The links and pictures of a block that are new; a block that is as it came has none. -/
def newInBlock (W : Writer) : Node → Nat
  | .mk kind attrs content marks text leaf =>
    let node := Node.mk kind attrs content marks text leaf
    if (W.sourceOf node).isSome then 0
    else if nodeName node = "paragraph" then ((Writer.grouped content).map newInGroup).sum
    else if nodeName node = "table" then newInRows W content
    else 0

def newInRows (W : Writer) : List Node → Nat
  | [] => 0
  | .mk _ _ content _ _ _ :: rest => newInCells W content + newInRows W rest

def newInCells (W : Writer) : List Node → Nat
  | [] => 0
  | .mk _ _ content _ _ _ :: rest => newInBlocks W content + newInCells W rest

def newInBlocks (W : Writer) : List Node → Nat
  | [] => 0
  | node :: rest => newInBlock W node + newInBlocks W rest

end

/-! ### Calls that add relationships -/

/-- The name of a new relationship. -/
def relationName (n : Nat) : String := s!"rIdDoc{n}"

theorem relationName_inj {m n : Nat} (h : relationName m = relationName n) : m = n := by
  have hchars := congrArg String.toList h
  simp only [relationName, String.toList_append, toString] at hchars
  have hrest := List.append_cancel_left hchars
  refine Nat.repr_inj.mp (String.toList_injective ?_)
  simpa using hrest

/-- The ids of the new links and pictures. -/
def Output.ids (out : Output) : List String := out.links.map (·.1) ++ out.images.map (·.1)

/-- A call that succeeds adds so many relationships, with the next names. -/
def Adds {α : Type} (n : Nat) (x : Writing α) : Prop :=
  ∀ out a out', x out = .ok (a, out') → out'.nextRelation = out.nextRelation + n ∧
    out'.ids.Perm (out.ids ++ (List.range' out.nextRelation n).map relationName)

section

variable {α β : Type} {m n : Nat}

theorem adds_pure (a : α) : Adds 0 (pure a : Writing α) := by
  intro out b out' h
  obtain ⟨-, rfl⟩ := Prod.mk.inj (Except.ok.inj h)
  exact ⟨rfl, by simp⟩

theorem adds_lift (x : Out α) : Adds 0 (liftM x : Writing α) := by
  intro out b out' h
  obtain ⟨-, rfl⟩ := pass_lift h
  exact ⟨rfl, by simp⟩

/-- A call and then another add what both add. -/
theorem adds_bind {x : Writing α} {f : α → Writing β} (hx : Adds m x) (hf : ∀ a, Adds n (f a)) :
    Adds (m + n) (x >>= f) := by
  intro out b out' h
  obtain ⟨a, mid, hfirst, hsecond⟩ := pass_bind h
  obtain ⟨hnext, hids⟩ := hx out a mid hfirst
  obtain ⟨hnext', hids'⟩ := hf a mid b out' hsecond
  refine ⟨by omega, ?_⟩
  rw [hnext] at hids'
  rw [← List.range'_append_1, List.map_append, ← List.append_assoc]
  exact hids'.trans (hids.append_right _)

theorem adds_then {x : Writing α} {f : α → Writing β} (hx : Adds m x) (hf : ∀ a, Adds 0 (f a)) : Adds m (x >>= f) :=
  adds_bind hx hf

end

/-! ### The writer -/

theorem adds_linkOpen (mark : Mark) :
    Adds (if (markText mark "relation").isNone then 1 else 0) (Writer.linkOpen mark) := by
  unfold Writer.linkOpen
  cases markText mark "relation" with
  | some relation => exact adds_pure _
  | none =>
    intro out a out' h
    obtain ⟨id, mid, hid, h⟩ := pass_bind h
    obtain ⟨rfl, rfl⟩ := Prod.mk.inj (Except.ok.inj hid)
    obtain ⟨⟨⟩, last, hset, h⟩ := pass_bind h
    obtain ⟨-, rfl⟩ := Prod.mk.inj (Except.ok.inj hset)
    obtain ⟨-, rfl⟩ := Prod.mk.inj (Except.ok.inj h)
    refine ⟨rfl, ?_⟩
    simp only [Output.ids, List.map_append, List.map_cons, List.map_nil, List.append_assoc]
    exact List.Perm.append_left _ List.perm_append_comm

theorem adds_newImage : Adds 1 (W.newImage node) := by
  intro out a out' h
  obtain ⟨⟨hash, extension⟩, mid, hpicture, hrest⟩ := pass_bind h
  obtain ⟨-, rfl⟩ := pass_lift hpicture
  obtain ⟨id, named, hid, hrest⟩ := pass_bind hrest
  obtain ⟨rfl, rfl⟩ := Prod.mk.inj (Except.ok.inj hid)
  obtain ⟨now, same, hget, hrest⟩ := pass_bind hrest
  obtain ⟨rfl, rfl⟩ := Prod.mk.inj (Except.ok.inj hget)
  obtain ⟨⟨⟩, last, hset, hrest⟩ := pass_bind hrest
  obtain ⟨-, rfl⟩ := Prod.mk.inj (Except.ok.inj hset)
  obtain ⟨-, rfl⟩ := Prod.mk.inj (Except.ok.inj hrest)
  exact ⟨rfl, by simp [Output.ids, relationName]⟩

theorem adds_inline (deleted : Bool) (node : Node) : Adds (newPictures node) (W.inline node deleted) := by
  unfold Writer.inline
  cases hunits : node.units with
  | some units =>
    rw [newPictures, if_neg (by simp [hunits])]
    exact adds_lift _
  | none =>
    dsimp only
    by_cases himage : nodeName node = "image"
    · rw [if_neg (by simp [himage]), if_neg (by simp [himage]), if_neg (by simp [himage]), if_pos himage]
      cases hraw : textAttr node "raw" with
      | none =>
        rw [newPictures, if_pos ⟨hunits, himage, hraw⟩]
        exact adds_newImage
      | some name =>
        rw [newPictures, if_neg (by simp [hraw])]
        exact adds_lift _
    · rw [newPictures, if_neg fun h => himage h.2.1, if_neg himage]
      split_ifs
      · exact adds_lift _
      · exact adds_lift _
      · exact adds_lift _
      · exact adds_lift _

theorem adds_inlines (deleted : Bool) (nodes : List Node) :
    Adds (nodes.map newPictures).sum (W.inlines deleted nodes) := by
  induction nodes with
  | nil => exact adds_pure _
  | cons node rest ih =>
    rw [List.map_cons, List.sum_cons]
    exact adds_bind (adds_inline deleted node) fun _ => adds_then ih fun _ => adds_pure _

theorem adds_changeOpen (tag : String) (mark : Mark) : Adds 0 (Writer.changeOpen tag mark) := by
  intro out a out' h
  obtain ⟨-, rfl⟩ := Prod.mk.inj (Except.ok.inj h)
  exact ⟨rfl, by simp [Output.ids]⟩

theorem adds_wrapped {n : Nat} (mark : Option Mark) (opening : Mark → Writing String) (tag runs : String)
    (h : ∀ m ∈ mark, Adds n (opening m)) :
    Adds (if mark.isSome then n else 0) (Writer.wrapped mark opening tag runs) := by
  unfold Writer.wrapped
  cases mark with
  | none => exact adds_pure _
  | some mark =>
    rw [if_pos Option.isSome_some]
    exact adds_then (h mark rfl) fun _ => adds_pure _

theorem adds_wrappedRuns (nodes : List Node) (wrappers : Wrappers) :
    Adds ((nodes.map newPictures).sum + newLinks wrappers) (W.wrappedRuns nodes wrappers) := by
  have hopen : ∀ (mark : Option Mark) (tag runs : String),
      Adds 0 (Writer.wrapped mark (Writer.changeOpen tag) tag runs) := fun mark tag runs => by
    simpa using adds_wrapped mark (Writer.changeOpen tag) tag runs fun _ _ => adds_changeOpen tag _
  refine adds_bind (adds_inlines _ nodes) fun runs => adds_then ?_ fun _ => adds_then (hopen _ _ _) fun _ =>
    hopen _ _ _
  unfold newLinks
  cases hlink : wrappers.link with
  | none => exact adds_pure _
  | some mark =>
    have hwrapped := adds_wrapped (some mark) Writer.linkOpen "hyperlink" runs
      (n := if (markText mark "relation").isNone then 1 else 0) (by
        rintro _ ⟨⟩
        exact adds_linkOpen mark)
    simpa using hwrapped

theorem adds_groups (groups : List (List Node)) : Adds (groups.map newInGroup).sum (W.groups groups) := by
  induction groups with
  | nil => exact adds_pure _
  | cons group rest ih =>
    rw [List.map_cons, List.sum_cons]
    cases group with
    | nil =>
      rw [newInGroup, Nat.zero_add]
      exact ih
    | cons node nodes =>
      exact adds_bind (adds_wrappedRuns (node :: nodes) _) fun _ => adds_then ih fun _ => adds_pure _

theorem adds_paragraph (node : Node) : Adds ((Writer.grouped node.content).map newInGroup).sum (W.paragraph node) := by
  have hparagraph : Adds (0 + ((Writer.grouped node.content).map newInGroup).sum) (W.paragraph node) :=
    adds_bind (adds_lift _) fun _ => adds_then (adds_groups _) fun _ => adds_pure _
  rwa [Nat.zero_add] at hparagraph

mutual

theorem adds_block (W : Writer) (node : Node) : Adds (newInBlock W node) (W.block node) := by
  cases node with
  | mk kind attrs content marks text leaf =>
    unfold newInBlock Writer.block
    dsimp only
    cases hsource : W.sourceOf (.mk kind attrs content marks text leaf) with
    | some xml => exact adds_pure _
    | none =>
      rw [Option.isSome_none, if_neg (by simp)]
      dsimp only
      by_cases hparagraph : nodeName (.mk kind attrs content marks text leaf) = "paragraph"
      · rw [if_pos hparagraph, if_pos hparagraph]
        exact adds_paragraph _
      · rw [if_neg hparagraph, if_neg hparagraph]
        by_cases htable : nodeName (.mk kind attrs content marks text leaf) = "table"
        · rw [if_pos htable, if_pos htable]
          have hrows := adds_bind (adds_lift ((textAttr (.mk kind attrs content marks text leaf) "props").elim
              (.ok "<w:tblPr/>") (W.raw) : Out String))
            fun props => adds_then (adds_rows W content) fun rows =>
              adds_pure s!"<w:tbl>{props}{rows}</w:tbl>"
          rwa [Nat.zero_add] at hrows
        · rw [if_neg htable, if_neg htable]
          split_ifs
          · exact adds_lift _
          · exact adds_lift _

theorem adds_rows (W : Writer) (nodes : List Node) : Adds (newInRows W nodes) (W.rows nodes) := by
  cases nodes with
  | nil => exact adds_pure _
  | cons node rest =>
    cases node with
    | mk kind attrs content marks text leaf =>
      unfold newInRows Writer.rows
      have hrow := adds_bind (adds_lift (W.rawAttr (.mk kind attrs content marks text leaf) "props"))
        fun props => adds_bind (adds_cells W content) fun cells => adds_then (adds_rows W rest) fun rest =>
          adds_pure s!"<w:tr>{props}{cells}</w:tr>{rest}"
      rwa [Nat.zero_add] at hrow

theorem adds_cells (W : Writer) (nodes : List Node) : Adds (newInCells W nodes) (W.cells nodes) := by
  cases nodes with
  | nil => exact adds_pure _
  | cons node rest =>
    cases node with
    | mk kind attrs content marks text leaf =>
      unfold newInCells Writer.cells
      have hcell := adds_bind (adds_lift (W.rawAttr (.mk kind attrs content marks text leaf) "props"))
        fun props => adds_bind (adds_blocks W content) fun inner => adds_then (adds_cells W rest) fun rest =>
          adds_pure s!"<w:tc>{props}{inner}</w:tc>{rest}"
      rwa [Nat.zero_add] at hcell

theorem adds_blocks (W : Writer) (nodes : List Node) : Adds (newInBlocks W nodes) (W.blocks nodes) := by
  cases nodes with
  | nil => exact adds_pure _
  | cons node rest =>
    unfold newInBlocks Writer.blocks
    exact adds_bind (adds_block W node) fun _ => adds_then (adds_blocks W rest) fun _ => adds_pure _

end

/-! ### One save -/

variable {V : Type} {T : Tools V} {model : Model V} {file file' : Bytes} {assets : Assets}
  {main : MainPart}

/-- The relationships of the new links and pictures. -/
def Output.added (out : Output) : List (String × Relation) :=
  out.links.map (fun link => (link.1, ⟨HYPERLINK_KIND, link.2, true⟩)) ++
    out.images.map fun image => (image.1, ⟨IMAGE_KIND, joinPart "word" (pictureTarget image), false⟩)

/-- Their XML. -/
def Output.relations (out : Output) : String :=
  String.join (out.links.map linkRelation) ++ String.join (out.images.map imageRelation)

/-- What a save makes of a model: the main part it starts from, the text of the blocks, and what is new. -/
def attempt (T : Tools V) (model : Model V) (file : Bytes) (assets : Assets) :
    Except String (MainPart × String × Output) := do
  let main ← mainOf T file
  let (text, out) ← (((writerOf T model main assets).blocks model.doc.content).run .begin).mapError Fault.text
  pure (main, text, out)

/-- The relationships in a file. -/
def relationsOf (T : Tools V) (file : Bytes) : List (String × Relation) :=
  match openPackage T file with
  | .error _ => []
  | .ok package => (package.text RELATIONS_PART).elim [] (relationsIn T.parse "word")

/-- The relationships that a save puts in a file: none, where the text of the main part stays. -/
def putBy (T : Tools V) (model : Model V) (file : Bytes) (assets : Assets) : List String :=
  match attempt T model file assets with
  | .error _ => []
  | .ok (main, text, out) => if newXml main text = main.xml then [] else out.ids

/-- The links and pictures of a model that are new to the file that it is saved over. -/
def newIn (T : Tools V) (model : Model V) (main : MainPart) (assets : Assets) : Nat :=
  newInBlocks (writerOf T model main assets) model.doc.content

/-- None of the next names stands in a file. -/
def Free (T : Tools V) (file : Bytes) (n : Nat) : Prop :=
  ∀ k, 1 ≤ k → k ≤ n → relationName k ∉ (relationsOf T file).map (·.1)

theorem attempt_ok (h : attempt T model file assets = .ok (main, text, out)) :
    mainOf T file = .ok main ∧ (writerOf T model main assets).blocks model.doc.content .begin = .ok (text, out) := by
  obtain ⟨main', hmain, h⟩ := bind_ok h
  obtain ⟨⟨text', out'⟩, hblocks, h⟩ := bind_ok h
  cases h
  exact ⟨hmain, mapError_ok.mp hblocks⟩

theorem mem_names {id : String} {n : Nat} :
    id ∈ (List.range' 1 n).map relationName ↔ ∃ k, 1 ≤ k ∧ k ≤ n ∧ relationName k = id := by
  simp only [List.mem_map, List.mem_range'_1]
  refine exists_congr fun k => ?_
  rw [and_assoc]
  exact and_congr_right fun _ => and_congr_left fun _ => by omega

/-- The ids of a save are the next names, each one once. -/
theorem ids_perm (h : attempt T model file assets = .ok (main, text, out)) :
    out.ids.Perm ((List.range' 1 (newIn T model main assets)).map relationName) := by
  simpa [Output.ids, Output.begin, newIn] using (adds_blocks _ _ _ _ _ (attempt_ok h).2).2

theorem ids_nodup (h : attempt T model file assets = .ok (main, text, out)) : out.ids.Nodup :=
  (ids_perm h).nodup_iff.mpr ((List.nodup_range').map fun _ _ => relationName_inj)

theorem mem_ids {id : String} (h : attempt T model file assets = .ok (main, text, out)) :
    id ∈ out.ids ↔ ∃ k, 1 ≤ k ∧ k ≤ newIn T model main assets ∧ relationName k = id := by
  rw [(ids_perm h).mem_iff, mem_names]

/-- The ids that a save puts in a file are distinct and new exactly when it puts none or finds none of the
    next names there. -/
theorem put_distinct (h : attempt T model file assets = .ok (main, text, out)) :
    (putBy T model file assets).Nodup ∧
        (∀ id ∈ putBy T model file assets, id ∉ (relationsOf T file).map (·.1)) ↔
      newXml main text = main.xml ∨ Free T file (newIn T model main assets) := by
  unfold putBy
  rw [h]
  dsimp only
  by_cases hsame : newXml main text = main.xml
  · simp [hsame]
  · rw [if_neg hsame, or_iff_right hsame]
    refine ⟨fun ⟨_, hnew⟩ k hlo hhi => hnew _ ((mem_ids h).mpr ⟨k, hlo, hhi, rfl⟩), fun hfree =>
      ⟨ids_nodup h, fun id hid => ?_⟩⟩
    obtain ⟨k, hlo, hhi, rfl⟩ := (mem_ids h).mp hid
    exact hfree k hlo hhi

/-! ### Edits and saves -/

/-- A document while it is edited and saved: the file on disk, what the last save found in its
    relationships and put there, and what the new links and pictures of its model go by. -/
structure Session (V : Type) where
  model : Model V
  assets : Assets
  file : Bytes
  found : List String
  put : List String
  given : List (String × Relation)

inductive Event (V : Type) where
  | edit (model : Model V) (assets : Assets)
  | save

namespace Session

/-- The relationships of what is new in the model. -/
def gives (T : Tools V) (s : Session V) : List (String × Relation) :=
  match attempt T s.model s.file s.assets with
  | .error _ => []
  | .ok (_, _, out) => out.added

/-- Edits leave any model. A save writes over the file of the save before, or fails. -/
def step (T : Tools V) (s : Session V) : Event V → Session V
  | .edit model assets => { s with model := model, assets := assets }
  | .save =>
    match write T s.model s.file s.assets with
    | .error _ => s
    | .ok file =>
      { s with
        file := file
        found := (relationsOf T s.file).map (·.1)
        put := putBy T s.model s.file s.assets
        given := s.gives T }

/-- The ids of the last save were distinct and new, and each new link and picture that it saved goes to its
    own target: its id stands once among the relationships of the file. -/
structure KeptApart (T : Tools V) (s : Session V) : Prop where
  distinct : s.put.Nodup
  new : ∀ id ∈ s.put, id ∉ s.found
  own : ∀ package, openPackage T s.file = .ok package → ∀ entry ∈ s.given,
    (relationsOf T s.file).filter (fun other => other.1 = entry.1) = [entry]

/-- When a save keeps relationships apart: it changes the text of the main part and finds none of the names
    that it puts there, or it leaves the text, and the new links and pictures are those of the last save. -/
def Clear (T : Tools V) (s : Session V) : Prop :=
  ∀ main text out, attempt T s.model s.file s.assets = .ok (main, text, out) →
    if newXml main text = main.xml then ∀ entry ∈ out.added, entry ∈ s.given
    else Free T s.file (newIn T s.model main s.assets)

/-- What the parser promises for the relationships of a save: it reads those that were there, and the new
    ones behind them. -/
def ReadsAdded (T : Tools V) (s : Session V) : Prop :=
  ∀ main text out package relations updated, attempt T s.model s.file s.assets = .ok (main, text, out) →
    openPackage T s.file = .ok package → package.text RELATIONS_PART = some relations →
    beforeClosing relations out.relations = some updated →
    relationsIn T.parse "word" updated = relationsIn T.parse "word" relations ++ out.added

end Session

/-! ### The relationships of a written file -/

theorem lookup_insertPart_self {parts : Parts} {name : String} {bytes : Bytes} :
    (insertPart parts name bytes).lookup name = some (some bytes) := by
  have hless : (parts.takeWhile fun part => decide (part.1 < name)).lookup name = none := by
    rw [List.lookup_eq_none_iff]
    intro part hpart
    have hless : part.1 < name := by simpa using List.mem_takeWhile_imp hpart
    simpa using ne_of_gt hless
  rw [insertPart, List.lookup_append, hless, Option.none_or, List.lookup_cons_self]

/-- A save with something new puts its XML in the relationships of the file. -/
theorem finishParts_relations {package : Package} {parts parts' : Parts}
    (hnew : ¬(out.links = [] ∧ out.images = [])) (h : finishParts package assets out parts = .ok parts') :
    ∃ relations updated, package.text RELATIONS_PART = some relations ∧
      beforeClosing relations out.relations = some updated ∧
      parts'.lookup RELATIONS_PART = some (some (utf8 updated)) := by
  unfold finishParts at h
  rw [if_neg hnew] at h
  obtain ⟨relations, hrelations, h⟩ := bind_ok h
  obtain ⟨pictured, -, h⟩ := bind_ok h
  obtain ⟨updated, hupdated, h⟩ := bind_ok h
  refine ⟨relations, updated, require_ok.mp hrelations, require_ok.mp hupdated, ?_⟩
  dsimp only at h
  split_ifs at h
  · obtain rfl := Except.ok.inj h
    exact lookup_insertPart_self
  · obtain ⟨types, -, h⟩ := bind_ok h
    obtain ⟨known, -, h⟩ := bind_ok h
    obtain rfl := Except.ok.inj h
    rw [lookup_insertPart (by decide), lookup_insertPart_self]

theorem filter_own {items : List (String × Relation)} {entry : String × Relation}
    (h : (items.map (·.1)).Nodup) (hentry : entry ∈ items) :
    items.filter (fun other => other.1 = entry.1) = [entry] := by
  induction items with
  | nil => cases hentry
  | cons first rest ih =>
    rw [List.map_cons, List.nodup_cons] at h
    rcases List.mem_cons.mp hentry with rfl | hentry
    · rw [List.filter_cons_of_pos (by simp), List.filter_eq_nil_iff.mpr]
      intro other hother hsame
      exact h.1 (List.mem_map.mpr ⟨other, hother, of_decide_eq_true hsame⟩)
    · rw [List.filter_cons_of_neg, ih h.2 hentry]
      intro hsame
      exact h.1 (List.mem_map.mpr ⟨entry, hentry, (of_decide_eq_true hsame).symm⟩)

theorem added_ids (out : Output) : out.added.map (·.1) = out.ids := by
  simp [Output.added, Output.ids, Function.comp_def]

theorem attempt_of_write {s : Session V} (h : write T s.model s.file s.assets = .ok file) :
    ∃ main text out, attempt T s.model s.file s.assets = .ok (main, text, out) := by
  obtain ⟨package, hpackage, h⟩ := bind_ok (mapError_ok.mp h)
  obtain ⟨main, hmain, h⟩ := bind_ok h
  obtain ⟨⟨text, out⟩, hblocks, -⟩ := bind_ok h
  refine ⟨main, text, out, ?_⟩
  rw [attempt, mainOf, ok_bind hpackage, ok_bind hmain, ok_bind hblocks]
  rfl

/-- What a save that changes the text makes of the relationships: the new ones stand behind the old. -/
theorem relations_saved {s : Session V} {package : Package} (hzip : T.zip.Reads) (hreads : s.ReadsAdded T)
    (hattempt : attempt T s.model s.file s.assets = .ok (main, text, out)) (hnew : out.added ≠ [])
    (hchanged : newXml main text ≠ main.xml) (h : write T s.model s.file s.assets = .ok file)
    (hopen : openPackage T file = .ok package) : relationsOf T file = relationsOf T s.file ++ out.added := by
  obtain ⟨hmain, hblocks⟩ := attempt_ok hattempt
  obtain ⟨old, hold, h⟩ := bind_ok (mapError_ok.mp h)
  obtain ⟨main', hmain', h⟩ := bind_ok h
  obtain rfl : main' = main := by
    rw [mainOf, ok_bind hold, hmain'] at hmain
    exact Except.ok.inj hmain
  obtain ⟨⟨text', out'⟩, hblocks', h⟩ := bind_ok h
  obtain ⟨rfl, rfl⟩ := Prod.mk.inj (Except.ok.inj ((mapError_ok.mp hblocks').symm.trans hblocks))
  dsimp only at h
  rw [if_neg hchanged] at h
  obtain ⟨parts, hparts, h⟩ := bind_ok h
  obtain ⟨entries, hentries, h⟩ := bind_ok (mapError_ok.mp h)
  have hsome : ¬(out'.links = [] ∧ out'.images = []) := fun hnone => hnew (by simp [Output.added, hnone])
  obtain ⟨relations, updated, htext, hupdated, hlookup⟩ := finishParts_relations hsome (mapError_ok.mp hparts)
  obtain ⟨hfile, -⟩ := openPackage_ok hold
  obtain rfl := Except.ok.inj (hfile.symm.trans (mapError_ok.mp hentries))
  obtain ⟨hpackage, hsizes⟩ := openPackage_ok hopen
  have hwritten := hzip _ _ (mapError_ok.mp h)
  have hhas : (old.entries.find? fun entry => entry.name = RELATIONS_PART).isSome := by
    have htext' := htext
    rw [Package.text, Package.bytes] at htext'
    cases hfind : old.entries.find? fun entry => decide (entry.name = RELATIONS_PART) with
    | none => simp [hfind] at htext'
    | some entry => rfl
  have hfind := find_rewritten (Z := T.zip) hlookup hhas
  rw [← Except.ok.inj (hpackage.symm.trans hwritten)] at hfind
  have hshort := hsizes _ (List.mem_of_find?_eq_some hfind)
  have htext' : package.text RELATIONS_PART = some updated := by
    rw [Package.text, Package.bytes, hfind]
    simp only [deflated, Option.bind_some, Option.map_some]
    rw [List.take_of_length_le hshort, ofUtf8_utf8]
  have hread := hreads _ _ _ _ _ _ hattempt hold htext hupdated
  rw [relationsOf, hopen, relationsOf, hold]
  simp only [htext, htext', Option.elim_some, hread]

namespace Session

variable {s t : Session V} {events : List (Event V)}

theorem apart_save (hzip : T.zip.Reads) (hclear : s.Clear T) (hreads : s.ReadsAdded T) (h : s.KeptApart T) :
    (s.step T .save).KeptApart T := by
  unfold step
  cases hwrite : write T s.model s.file s.assets with
  | error e => exact h
  | ok file =>
    obtain ⟨main, text, out, hattempt⟩ := attempt_of_write hwrite
    obtain ⟨hmain, hblocks⟩ := attempt_ok hattempt
    have hclear := hclear _ _ _ hattempt
    have hput := (put_distinct hattempt).mpr (by
      by_cases hsame : newXml main text = main.xml
      · exact .inl hsame
      · rw [if_neg hsame] at hclear
        exact .inr hclear)
    refine ⟨hput.1, hput.2, fun package hopen entry hentry => ?_⟩
    have hgives : s.gives T = out.added := by rw [gives, hattempt]
    dsimp only at hopen hentry ⊢
    rw [hgives] at hentry
    by_cases hsame : newXml main text = main.xml
    · obtain ⟨text', out', hblocks', hfile, -⟩ := write_text hzip hmain hwrite
      obtain ⟨rfl, -⟩ := Prod.mk.inj (Except.ok.inj (hblocks'.symm.trans hblocks))
      obtain rfl := hfile hsame
      rw [if_pos hsame] at hclear
      exact h.own package hopen entry (hclear entry hentry)
    · rw [if_neg hsame] at hclear
      rw [relations_saved hzip hreads hattempt (List.ne_nil_of_mem hentry) hsame hwrite hopen,
        List.filter_append, filter_own (by rw [added_ids]; exact ids_nodup hattempt) hentry]
      have hid : entry.1 ∈ out.ids := by
        rw [← added_ids]
        exact List.mem_map_of_mem hentry
      obtain ⟨k, hlo, hhi, hk⟩ := (mem_ids hattempt).mp hid
      rw [List.filter_eq_nil_iff.mpr, List.nil_append]
      intro other hother hsame
      refine hclear k hlo hhi (List.mem_map.mpr ⟨other, hother, ?_⟩)
      rw [hk]
      exact of_decide_eq_true hsame

end Session

/-! ### A link that is saved twice -/

def CLOSING : String := "</w:body></w:document>"

def LINKED : String :=
  "<w:p><w:hyperlink xmlns:r=\"http://schemas.openxmlformats.org/officeDocument/2006/relationships\" r:id=\"rIdDoc1\"><w:r><w:t xml:space=\"preserve\">"

def linkedPart (words : String) : String :=
  OPENING ++ LINKED ++ words ++ "</w:t></w:r></w:hyperlink></w:p>" ++ CLOSING

/-- The relationships part with the link in it so many times. -/
def relsPart (n : Nat) : String :=
  "<Relationships>" ++ String.join (List.replicate n (linkRelation ("rIdDoc1", "home"))) ++
    "</Relationships>"

def stored (name text : String) : Entry :=
  ⟨name, (utf8 text).length, (utf8 text).length, some (utf8 text)⟩

/-- The packages before a save and behind it. -/
def linkEntries : Nat → List Entry
  | 0 => [stored MAIN_PART (OPENING ++ EMPTY ++ CLOSING), stored RELATIONS_PART (relsPart 0)]
  | _ => [stored MAIN_PART (linkedPart "a"), stored RELATIONS_PART (relsPart 1)]

/-- An archive of these packages: a file names one by its length. -/
def linkZip : Zip where
  entries file := .ok (linkEntries file.length)
  packed := List.length
  finish entries := if entries = linkEntries 1 then .ok [0] else .error "There is another package"

theorem linkZip_reads : linkZip.Reads := by
  intro entries file h
  simp only [linkZip] at h
  split_ifs at h with hone
  obtain rfl := Except.ok.inj h
  exact congrArg Except.ok hone.symm

def linkElement : Xml :=
  .element 0 0 ⟨"Relationship", some PACKAGE_RELATIONSHIPS, [⟨"Id", none, "rIdDoc1"⟩,
    ⟨"Type", none, HYPERLINK_KIND⟩, ⟨"Target", none, "home"⟩, ⟨"TargetMode", none, "External"⟩]⟩ []

def relsParsed (n : Nat) : Parsed :=
  ⟨.element 0 (relsPart n).toList.length ⟨"Relationships", some PACKAGE_RELATIONSHIPS, []⟩
    (List.replicate n linkElement), [(none, PACKAGE_RELATIONSHIPS)]⟩

/-- The parser on the relationships, and on main parts that hold one paragraph. -/
def linkParse (xml : String) : Except String Parsed :=
  if xml = relsPart 0 then .ok (relsParsed 0)
  else if xml = relsPart 1 then .ok (relsParsed 1)
  else
    let first := OPENING.toList.length
    let last := xml.toList.length - CLOSING.toList.length
    .ok ⟨.element 0 (last + 22) (wordTag "document") [.element (first - 8) (last + 9) (wordTag "body")
      [.element first last (wordTag "p") []]], [(some "w", MAIN)]⟩

def linkTools : Tools Unit where
  zip := linkZip
  parse := linkParse
  sha256 _ := ⟨List.replicate 32 0, List.length_replicate⟩
  pixels _ := .null
  length _ := ""
  view _ _ := ()

/-- A model whose text is a link to home that is new. -/
def withLink (model : Model Unit) (words : String) : Model Unit :=
  { model with
    doc := .mk 0 [] [.mk 1 emptyNode.attrs [.mk 6 [] [] [⟨6, [("href", .string "home"), ("relation", .null)]⟩]
      (some (encodeUtf16 words)) true] [] none false] [] none false }

def opened (model : Model Unit) (assets : Assets) : Session Unit := ⟨model, assets, [], [], [], []⟩

/-- Whether a save over a file would change the text and add one link to home. -/
def addsHome (model : Model Unit) (file : Bytes) (assets : Assets) : Bool :=
  match attempt linkTools model file assets with
  | .error _ => false
  | .ok (main, text, out) =>
    decide (newXml main text ≠ main.xml) && decide (out.links = [("rIdDoc1", "home")]) &&
      out.images.isEmpty

theorem addsHome_ok {model : Model Unit} (h : addsHome model file assets = true)
    (hattempt : attempt linkTools model file assets = .ok (main, text, out)) :
    newXml main text ≠ main.xml ∧ out.links = [("rIdDoc1", "home")] ∧ out.images = [] := by
  unfold addsHome at h
  rw [hattempt] at h
  simpa [and_assoc] using h

theorem putBy_home {model : Model Unit} (h : addsHome model file assets = true) :
    putBy linkTools model file assets = ["rIdDoc1"] := by
  unfold putBy
  cases hattempt : attempt linkTools model file assets with
  | error e => simp [addsHome, hattempt] at h
  | ok tried =>
    obtain ⟨main, text, out⟩ := tried
    obtain ⟨hchanged, hlinks, himages⟩ := addsHome_ok h hattempt
    simp [hchanged, Output.ids, hlinks, himages]

/-- The main part that the parser makes of a text. -/
def linkMain (xml : String) : MainPart :=
  let first := OPENING.toList.length
  let last := xml.toList.length - CLOSING.toList.length
  let body : Xml := .element (first - 8) (last + 9) (wordTag "body") [.element first last (wordTag "p") []]
  ⟨xml, ⟨.element 0 (last + 22) (wordTag "document") [body], [(some "w", MAIN)]⟩, body⟩

theorem mainOf_link {xml : String} {others : List Entry} (hopen : (openPackage linkTools file).toOption.isSome)
    (hfile : linkEntries file.length = stored MAIN_PART xml :: others) (hnone : xml ≠ relsPart 0)
    (hone : xml ≠ relsPart 1) : mainOf linkTools file = .ok (linkMain xml) := by
  obtain ⟨package, hpackage⟩ : ∃ package, openPackage linkTools file = .ok package := by
    cases hcase : openPackage linkTools file with
    | error e => simp [hcase, Except.toOption] at hopen
    | ok package => exact ⟨package, rfl⟩
  obtain ⟨hentries, hsizes⟩ := openPackage_ok hpackage
  have hfound : package.entries.find? (fun entry => entry.name = MAIN_PART) = some (stored MAIN_PART xml) := by
    rw [← Except.ok.inj hentries, hfile]
    exact List.find?_cons_of_pos (by simp [stored])
  have htext : package.text MAIN_PART = some xml := by
    have hshort := hsizes _ (List.mem_of_find?_eq_some hfound)
    rw [Package.text, Package.bytes, hfound]
    simp only [stored, Option.bind_some, Option.map_some]
    rw [List.take_of_length_le hshort, ofUtf8_utf8]
  have hparse : linkTools.parse xml = .ok (linkMain xml).parsed := by
    simp only [linkTools, linkParse, if_neg hnone, if_neg hone]
    rfl
  rw [mainOf, ok_bind hpackage, mainPart, htext]
  exact ok_bind hparse

/-- The text that a link to home is written as. -/
def linkText (words : String) : String := LINKED ++ words ++ "</w:t></w:r></w:hyperlink></w:p>"

/-- The second text of the link does not start with the first one. -/
theorem second_link : ¬(linkText "ab").toList <+: (linkText "a" ++ CLOSING).toList := by
  rw [linkText, linkText]
  generalize LINKED = opening
  simp only [String.toList_append, List.append_assoc, List.prefix_append_right_inj]
  simp

/-- What the blocks of a model with a link to home are written as, whatever the text of the main part is. -/
theorem blocks_link : ∃ model kept, read linkTools [] ⟨[]⟩ = .ok (model, kept) ∧
    ∀ words ∈ ["a", "ab"], ∀ xml, ∃ out : Output,
      (((writerOf linkTools (withLink model words) (linkMain xml) kept).blocks
        (withLink model words).doc.content).run .begin).mapError Fault.text = .ok (linkText words, out) ∧
      out.links = [("rIdDoc1", "home")] ∧ out.images = [] := by
  have hrun : (read linkTools [] ⟨[]⟩).toOption.map (fun read => ["a", "ab"].all fun words =>
      ((((writerOf linkTools (withLink read.1 words) (linkMain "") read.2).blocks
        (withLink read.1 words).doc.content).run .begin).mapError Fault.text).toOption.any fun written =>
        written.1 = linkText words && written.2.links = [("rIdDoc1", "home")] && written.2.images.isEmpty) =
      some true := by
    decide +kernel
  obtain ⟨⟨model, kept⟩, hread, hwritten⟩ := ok_of_except hrun
  refine ⟨model, kept, hread, fun words hwords xml => ?_⟩
  obtain ⟨⟨text, out⟩, hblocks, hout⟩ := (Option.any_eq_true _ _).mp (List.all_eq_true.mp hwritten words hwords)
  obtain ⟨⟨rfl, hlinks⟩, himages⟩ : (text = linkText words ∧ out.links = [("rIdDoc1", "home")]) ∧
      out.images.isEmpty := by simpa using hout
  obtain ⟨_, hblocks, rfl⟩ := ok_of_except (f := id) (by rw [hblocks]; rfl)
  exact ⟨out, hblocks, hlinks, List.isEmpty_iff.mp himages⟩

/-- A new text that is the old one starts with its blocks behind the front. -/
theorem newXml_front {front rest : String} (hxml : main.xml = front ++ rest)
    (hstart : blocksStart main.body = front.toList.length) (hsame : newXml main text = main.xml) :
    text.toList <+: rest.toList := by
  have hchars := congrArg String.toList hsame
  rw [newXml, hstart, slice, List.drop_zero, String.toList_append, String.toList_append, String.toList_ofList, hxml,
    String.toList_append, List.take_left, List.append_assoc, List.append_cancel_left_eq] at hchars
  exact ⟨_, hchars⟩

theorem addsHome_link {model : Model Unit} {kept : Assets} {rest : String}
    (hmain : mainOf linkTools file = .ok (linkMain (OPENING ++ rest)))
    (hblocks : (((writerOf linkTools model (linkMain (OPENING ++ rest)) kept).blocks model.doc.content).run
      .begin).mapError Fault.text = .ok (text, out)) (hlinks : out.links = [("rIdDoc1", "home")])
    (himages : out.images = []) (hother : ¬text.toList <+: rest.toList) : addsHome model file kept = true := by
  have hchanged : newXml (linkMain (OPENING ++ rest)) text ≠ (linkMain (OPENING ++ rest)).xml :=
    fun hsame => hother (newXml_front rfl rfl hsame)
  have hattempt : attempt linkTools model file kept = .ok (linkMain (OPENING ++ rest), text, out) := by
    rw [attempt, ok_bind hmain, ok_bind hblocks]
    rfl
  unfold addsHome
  rw [hattempt]
  simp only [hlinks, himages]
  simpa using hchanged

/-- The file is read, saved with a new link, and would be saved again with another text. -/
theorem linked : ∃ model kept, read linkTools [] ⟨[]⟩ = .ok (model, kept) ∧
    addsHome (withLink model "a") [] kept = true ∧ write linkTools (withLink model "a") [] kept = .ok [0] ∧
    addsHome (withLink model "ab") [0] kept = true := by
  obtain ⟨model, kept, hread, hblocks⟩ := blocks_link
  have hwritten : (read linkTools [] ⟨[]⟩).toOption.map (fun read =>
      (write linkTools (withLink read.1 "a") [] read.2).toOption) = some (some [0]) := by
    decide +kernel
  obtain ⟨⟨model', kept'⟩, hread', hwrite⟩ := ok_of_except hwritten
  obtain ⟨rfl, rfl⟩ := Prod.mk.inj (Except.ok.inj (hread.symm.trans hread'))
  have hfile : write linkTools (withLink model "a") [] kept = .ok [0] := by
    dsimp only at hwrite
    generalize write linkTools (withLink model "a") [] kept = written at hwrite
    cases written with
    | error e => cases hwrite
    | ok file => exact congrArg Except.ok (Option.some.inj hwrite)
  have hbefore : mainOf linkTools [] = .ok (linkMain (OPENING ++ EMPTY ++ CLOSING)) :=
    mainOf_link (by decide +kernel) rfl (by decide +kernel) (by decide +kernel)
  have hbehind : mainOf linkTools [0] = .ok (linkMain (linkedPart "a")) :=
    mainOf_link (by decide +kernel) rfl (by decide +kernel) (by decide +kernel)
  have hpart : linkedPart "a" = OPENING ++ (linkText "a" ++ CLOSING) := by
    simp only [linkedPart, linkText, String.append_assoc]
  rw [String.append_assoc] at hbefore
  rw [hpart] at hbehind
  obtain ⟨out, hfirst, hlinks, himages⟩ := hblocks "a" (by decide) (OPENING ++ (EMPTY ++ CLOSING))
  obtain ⟨out', hsecond, hlinks', himages'⟩ := hblocks "ab" (by decide) (OPENING ++ (linkText "a" ++ CLOSING))
  exact ⟨model, kept, hread, addsHome_link hbefore hfirst hlinks himages (by decide +kernel), hfile,
    addsHome_link hbehind hsecond hlinks' himages' second_link⟩

namespace Session

theorem step_saved {T : Tools V} {s : Session V} {file : Bytes} (hwrite : write T s.model s.file s.assets = .ok file) :
    s.step T .save = ⟨s.model, s.assets, file, (relationsOf T s.file).map (·.1),
      putBy T s.model s.file s.assets, s.gives T⟩ := by
  unfold step
  rw [hwrite]

end Session

end Kodosi.Docx
