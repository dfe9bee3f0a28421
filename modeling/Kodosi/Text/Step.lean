import Kodosi.Documents.Derive
import Kodosi.Text.Replace

/-! The steps of a text: how they are read from JSON, applied to a document, and how they move
    positions. -/

namespace Kodosi.Text

open Documents Lib Derive

def MOST_DEPTH : Nat := 128

/-! ### Reading -/

/-- A field of an object, or null. -/
def Value.at (name : String) (json : Value) : Value := (Value.field name json).getD .null

def asStr : Value → Option String
  | .string s => some s
  | _ => none

/-- The UTF-16 units of a character. -/
def utf16 (c : Char) : List UInt16 :=
  if c.toNat < 0x10000 then [c.toNat.toUInt16]
  else
    [(0xD800 + (c.toNat - 0x10000) / 0x400).toUInt16, (0xDC00 + (c.toNat - 0x10000) % 0x400).toUInt16]

def encodeUtf16 (s : String) : List UInt16 := s.toList.flatMap utf16

def Mark.fromJson (S : Schema) (json : Value) : Out Mark := do
  let name := (asStr (Value.at "type" json)).getD ""
  let kind ← Lib.require (.failed s!"There is no mark type {name} in this schema") (S.markId name)
  Mark.new S kind (Value.field "attrs" json)

def marksFromJson (S : Schema) : Option Value → Out (List Mark)
  | none | some .null => .ok []
  | some (.array marks) => marks.mapM (Mark.fromJson S)
  | some _ => failed "Invalid mark data for Node.fromJSON"

/-- The children at one depth, each read by `node`. -/
def Fragment.readWith (node : Value → Out Node) : Option Value → Out Fragment
  | none | some .null => .ok []
  | some (.array nodes) => do
    let nodes ← nodes.mapM node
    pure (Fragment.fromArray nodes)
  | some _ => failed "Invalid input for Fragment.fromJSON"

/-- A node that so many levels of depth are left for. -/
def Node.fromJsonAt (S : Schema) : Nat → Value → Out Node
  | 0, _ => failed "The document is nested too deep"
  | left + 1, json => do
    let marks ← marksFromJson S (Value.field "marks" json)
    let name := (asStr (Value.at "type" json)).getD ""
    if name = "text" then do
      let text ← Lib.require (.failed "Invalid text node in JSON") (asStr (Value.at "text" json))
      Node.text S (encodeUtf16 text) marks
    else do
      let kind ← Lib.require (.failed s!"Unknown node type: {name}") (S.nodeId name)
      let content ← Fragment.readWith (Node.fromJsonAt S left) (Value.field "content" json)
      Node.new S kind (Value.field "attrs" json) content marks

def Node.fromJson (S : Schema) (json : Value) : Out Node := Node.fromJsonAt S (MOST_DEPTH + 1) json

def Fragment.fromJson (S : Schema) (json : Option Value) : Out Fragment :=
  Fragment.readWith (Node.fromJsonAt S (MOST_DEPTH + 1)) json

/-- An open depth of a slice. -/
def openFromJson (json : Value) (name : String) : Out Nat :=
  (Value.field name json).elim (.ok 0) fun value =>
    Lib.require (.failed "Invalid input for Slice.fromJSON") (readNat 64 value)

def Slice.fromJson (S : Schema) : Option Value → Out Slice
  | none | some .null => .ok Slice.empty
  | some json => do
    let content ← Fragment.fromJson S (Value.field "content" json)
    let openStart ← openFromJson json "openStart"
    let openEnd ← openFromJson json "openEnd"
    pure ⟨content, openStart, openEnd⟩

/-- One atomic change of a document. -/
inductive Step where
  | replace (lo hi : Nat) (slice : Slice) (structure_ : Bool)
  | replaceAround (lo hi gapFrom gapTo : Nat) (slice : Slice) (insert : Nat) (structure_ : Bool)
  | addMark (lo hi : Nat) (mark : Mark)
  | removeMark (lo hi : Nat) (mark : Mark)
  | addNodeMark (pos : Nat) (mark : Mark)
  | removeNodeMark (pos : Nat) (mark : Mark)
  | attr (pos : Nat) (name : String) (value : Value)
  | docAttr (name : String) (value : Value)

def numberOf (json : Value) (name : String) : Out Nat :=
  Lib.require (.failed s!"Invalid {name} in a step") (readNat 64 (Value.at name json))

def textOf (json : Value) (name : String) : Out String :=
  Lib.require (.failed s!"Invalid {name} in a step") (asStr (Value.at name json))

def Step.fromJson (S : Schema) (json : Value) : Out Step := do
  let mark := Mark.fromJson S (Value.at "mark" json)
  let slice := Slice.fromJson S (Value.field "slice" json)
  let structure_ := (readBool (Value.at "structure" json)).getD false
  match (asStr (Value.at "stepType" json)).getD "" with
  | "replace" => do
    let lo ← numberOf json "from"
    let hi ← numberOf json "to"
    let slice ← slice
    pure (.replace lo hi slice structure_)
  | "replaceAround" => do
    let lo ← numberOf json "from"
    let hi ← numberOf json "to"
    let gapFrom ← numberOf json "gapFrom"
    let gapTo ← numberOf json "gapTo"
    let slice ← slice
    let insert ← numberOf json "insert"
    pure (.replaceAround lo hi gapFrom gapTo slice insert structure_)
  | "addMark" => do
    let lo ← numberOf json "from"
    let hi ← numberOf json "to"
    let mark ← mark
    pure (.addMark lo hi mark)
  | "removeMark" => do
    let lo ← numberOf json "from"
    let hi ← numberOf json "to"
    let mark ← mark
    pure (.removeMark lo hi mark)
  | "addNodeMark" => do
    let pos ← numberOf json "pos"
    let mark ← mark
    pure (.addNodeMark pos mark)
  | "removeNodeMark" => do
    let pos ← numberOf json "pos"
    let mark ← mark
    pure (.removeNodeMark pos mark)
  | "attr" => do
    let pos ← numberOf json "pos"
    let name ← textOf json "attr"
    pure (.attr pos name (Value.at "value" json))
  | "docAttr" => do
    let name ← textOf json "attr"
    pure (.docAttr name (Value.at "value" json))
  | other => failed s!"No step type {other} defined"

/-! ### Applying -/

/-- A slice's open depth as a signed number. -/
def asSigned (value : Nat) : Int := if value < 2 ^ 63 then value else 2 ^ 63 - 2

/-- One more than a signed number of 64 bits. -/
def addOne (value : Int) : Out Int := if value + 1 < 2 ^ 63 then .ok (value + 1) else panics

/-- Whether the children of the parent, where both sides are closed, keep the insertion out. -/
def keptOut (S : Schema) (insert : Fragment) (openStart openEnd : Int) (parent : Option Node)
    (i : Nat) : Out Bool :=
  match parent with
  | none => .ok false
  | some parent =>
    if openStart ≤ 0 ∧ openEnd ≤ 0 then (S.canReplace parent i i insert).map not else .ok false

def insertInto (S : Schema) (content : Fragment) (distance : Nat) (insert : Fragment)
    (openStart openEnd : Int) (parent : Option Node) : Out (Option Fragment) := do
  let (index, offset) ← Fragment.findIndex content distance
  let child := content[index]?
  if offset = distance ∨ child.any Node.isText then do
    let kept ← keptOut S insert openStart openEnd parent index
    if kept then pure none
    else do
      let before ← Fragment.cut content 0 distance
      let after ← Fragment.cutEnd content distance
      pure (some (Fragment.append (Fragment.append before insert) after))
  else
    match child with
    | none => failed "No node at the position"
    | some child =>
      if _h : offset < distance then do
        let inner ← insertInto S child.content (distance - offset - 1) insert
          (if index = 0 then openStart - 1 else 0)
          (if index + 1 = content.length then openEnd - 1 else 0) (some child)
        match inner with
        | none => pure none
        | some inner => (Fragment.replaceChild content index (child.copy inner)).map some
      else panics
termination_by distance
decreasing_by omega

def Slice.insertAt (S : Schema) (slice : Slice) (position : Nat) (fragment : Fragment) :
    Out (Option Slice) := do
  let distance ← add64 position slice.openStart
  let openStart ← addOne (asSigned slice.openStart)
  let openEnd ← addOne (asSigned slice.openEnd)
  let content ← insertInto S slice.content distance fragment openStart openEnd none
  pure (content.map fun content => ⟨content, slice.openStart, slice.openEnd⟩)

mutual

/-- A child with its content mapped, and itself when it is inline. -/
def mapNode (S : Schema) (change : Node → Node → Node) (parent : Node) : Node → Node
  | .mk kind attrs content marks text leaf =>
    let child := Node.mk kind attrs content marks text leaf
    let mapped :=
      if 0 < Fragment.size content then
        child.copy (Fragment.fromArray (mapNodes S change child content))
      else child
    if S.isInline kind then change mapped parent else mapped

def mapNodes (S : Schema) (change : Node → Node → Node) (parent : Node) : List Node → List Node
  | [] => []
  | child :: rest => mapNode S change parent child :: mapNodes S change parent rest

end

def mapFragment (S : Schema) (fragment : Fragment) (change : Node → Node → Node) (parent : Node) :
    Fragment :=
  Fragment.fromArray (mapNodes S change parent fragment)

/-- What `addMark` does with an inline node. -/
def markInline (S : Schema) (mark : Mark) (node parent : Node) : Node :=
  if !S.isAtom node.kind || !S.allowsMarkType parent.kind mark.kind then node
  else node.withMarks (mark.addToSet S node.marks)

def addMark (S : Schema) (doc : Node) (lo hi : Nat) (mark : Mark) : Out Node := do
  let old ← doc.slice lo hi
  let start ← doc.resolve lo
  let depth ← start.sharedDepth hi
  let parent ← start.node depth
  let content := mapFragment S old.content (markInline S mark) parent
  doc.replace S lo hi ⟨content, old.openStart, old.openEnd⟩

def removeMark (S : Schema) (doc : Node) (lo hi : Nat) (mark : Mark) : Out Node := do
  let old ← doc.slice lo hi
  let content := mapFragment S old.content
    (fun node _ => node.withMarks (mark.removeFromSet node.marks)) doc
  doc.replace S lo hi ⟨content, old.openStart, old.openEnd⟩

/-- The attributes with one of them set. -/
def setField (attrs : Attrs) (name : String) (value : Value) : Value :=
  .object ((attrs.filter fun entry => entry.1 ≠ name) ++ [(name, value)])

/-- Puts a changed node, without its content, in the place of the node at a position. -/
def putNode (S : Schema) (doc : Node) (pos : Nat) (node updated : Node) : Out Node := do
  let next ← add64 pos 1
  doc.replace S pos next ⟨[updated], 0, if node.isLeaf then 0 else 1⟩

def setAttr (S : Schema) (doc : Node) (pos : Nat) (name : String) (value : Value) : Out Node := do
  let node ← doc.nodeAt pos
  match node with
  | none => failed "No node at attribute step's position"
  | some node => do
    let updated ← node.withAttrs S (setField node.attrs name value)
    putNode S doc pos node updated

def updateNode (S : Schema) (doc : Node) (pos : Nat) (node : Node) (marks : List Mark) : Out Node := do
  let updated ← Node.new S node.kind (some (.object node.attrs)) [] marks
  putNode S doc pos node updated

def markNode (S : Schema) (doc : Node) (pos : Nat) (marks : List Mark → List Mark) : Out Node := do
  let node ← doc.nodeAt pos
  match node with
  | none => failed "No node at mark step's position"
  | some node => updateNode S doc pos node (marks node.marks)

/-- The upward loop of `contentBetween`: what is left of the distance, and the depth reached. -/
def climb (start : ResolvedPos) : Nat → Nat → Out (Nat × Nat)
  | distance, 0 => .ok (distance, 0)
  | distance, depth + 1 =>
    if distance = 0 then .ok (0, depth + 1)
    else do
      let after ← start.indexAfter (depth + 1)
      let node ← start.node (depth + 1)
      if after = node.childCount then climb start (distance - 1) depth
      else pure (distance, depth + 1)

/-- The downward loop of `contentBetween`: whether it meets content. -/
def meetsContent : Nat → Option Node → Bool
  | 0, _ => false
  | _ + 1, none => true
  | distance + 1, some node =>
    if node.isLeaf then true else meetsContent distance (node.maybeChild 0)

def contentBetween (doc : Node) (lo hi : Nat) : Out Bool := do
  let start ← doc.resolve lo
  if hi < lo then failed "The step ends before it starts"
  else do
    let (distance, depth) ← climb start (hi - lo) start.depth
    if 0 < distance then do
      let node ← start.node depth
      let after ← start.indexAfter depth
      pure (meetsContent distance (node.maybeChild after))
    else pure false

namespace Step

def apply (S : Schema) (doc : Node) : Step → Out Node
  | replace lo hi slice structure_ => do
    let between ← (if structure_ then contentBetween doc lo hi else .ok false : Out Bool)
    if between then failed "Structure replace would overwrite content"
    else doc.replace S lo hi slice
  | replaceAround lo hi gapFrom gapTo slice insert structure_ => do
    let before ← (if structure_ then contentBetween doc lo gapFrom else .ok false : Out Bool)
    let between ←
      (if structure_ && !before then contentBetween doc gapTo hi else .ok before : Out Bool)
    if between then failed "Structure gap-replace would overwrite content"
    else do
      let gap ← doc.slice gapFrom gapTo
      if gap.openStart ≠ 0 ∨ gap.openEnd ≠ 0 then failed "Gap is not a flat range"
      else do
        let inserted ← slice.insertAt S insert gap.content
        match inserted with
        | none => failed "Content does not fit in gap"
        | some inserted => doc.replace S lo hi inserted
  | addMark lo hi mark => Text.addMark S doc lo hi mark
  | removeMark lo hi mark => Text.removeMark S doc lo hi mark
  | addNodeMark pos mark => markNode S doc pos (mark.addToSet S)
  | removeNodeMark pos mark => markNode S doc pos mark.removeFromSet
  | attr pos name value => setAttr S doc pos name value
  | docAttr name value => doc.withDocAttrs S (setField doc.attrs name value)

/-- The ranges of a step: for each one its start, its old size and its new size. -/
def map : Step → Out (List Nat)
  | replace lo hi slice _ => do
    let old ← sub64 hi lo
    let size ← slice.size
    pure [lo, old, size]
  | replaceAround lo hi gapFrom gapTo slice insert _ => do
    let left ← sub64 gapFrom lo
    let right ← sub64 hi gapTo
    let size ← slice.size
    pure [lo, left, insert, gapTo, right, size - insert]
  | _ => .ok []

end Step

end Kodosi.Text
