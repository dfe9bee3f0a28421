import Kodosi.Text.Schema

/-! The tree of a text: nodes, the marks on them, and the lists of children that edits cut and join.
    Sizes count UTF-16 units. -/

namespace Kodosi.Text

open Documents Lib

/-- A piece of information on a node, such as bold or a link. -/
structure Mark where
  kind : MarkId
  attrs : Attrs
  deriving DecidableEq

namespace Mark

def new (S : Schema) (kind : MarkId) (attrs : Option Value) : Out Mark := do
  let attrs ← S.markAttrs kind attrs
  pure ⟨kind, attrs⟩

/-- The loop of `addToSet`: the marks passed, those to come, the copy begun so far, and whether the
    mark stands in it. -/
def placeInSet (S : Schema) (mark : Mark) (set : List Mark) :
    List Mark → List Mark → Option (List Mark) → Bool → List Mark
  | _, [], copy, placed => if placed then copy.getD set else copy.getD set ++ [mark]
  | passed, other :: rest, copy, placed =>
    if mark = other then set
    else if S.excludes mark.kind other.kind then
      placeInSet S mark set (passed ++ [other]) rest (some (copy.getD passed)) placed
    else if S.excludes other.kind mark.kind then set
    else if !placed && other.kind > mark.kind then
      placeInSet S mark set (passed ++ [other]) rest (some (copy.getD passed ++ [mark, other])) true
    else placeInSet S mark set (passed ++ [other]) rest (copy.map (· ++ [other])) placed

/-- Places a mark in a set, by its rank, and removes what it excludes. -/
def addToSet (S : Schema) (mark : Mark) (set : List Mark) : List Mark :=
  placeInSet S mark set [] set none false

def removeFromSet (mark : Mark) (set : List Mark) : List Mark := set.erase mark

/-- Marks stand by their rank. -/
def sorted (marks : List Mark) : List Mark := marks.insertionSort fun a b => a.kind ≤ b.kind

end Mark

/-- One node of a tree. A node with text is a piece of text. -/
inductive Node where
  | mk (kind : NodeId) (attrs : Attrs) (content : List Node) (marks : List Mark)
      (text : Option (List UInt16)) (leaf : Bool)

/-- A node's children. -/
abbrev Fragment := List Node

mutual

def Node.nodeSize : Node → Nat
  | .mk _ _ content _ text leaf =>
    match text with
    | some units => units.length
    | none => if leaf then 1 else 2 + Fragment.size content

def Fragment.size : List Node → Nat
  | [] => 0
  | node :: rest => node.nodeSize + Fragment.size rest

end

namespace Node

def kind : Node → NodeId
  | .mk kind _ _ _ _ _ => kind

def attrs : Node → Attrs
  | .mk _ attrs _ _ _ _ => attrs

def content : Node → Fragment
  | .mk _ _ content _ _ _ => content

def marks : Node → List Mark
  | .mk _ _ _ marks _ _ => marks

/-- The text of a text node, in UTF-16 units. -/
def units : Node → Option (List UInt16)
  | .mk _ _ _ _ text _ => text

def isLeaf : Node → Bool
  | .mk _ _ _ _ _ leaf => leaf

def isText (node : Node) : Bool := node.units.isSome

def childCount (node : Node) : Nat := node.content.length

def maybeChild (node : Node) (i : Nat) : Option Node := node.content[i]?

def child (node : Node) (i : Nat) : Out Node :=
  Lib.require (.failed s!"Index {i} out of range") node.content[i]?

def new (S : Schema) (kind : NodeId) (attrs : Option Value) (content : Fragment) (marks : List Mark) :
    Out Node := do
  let attrs ← S.nodeAttrs kind attrs
  pure (.mk kind attrs content (Mark.sorted marks) none (S.isLeaf kind))

def text (S : Schema) (units : List UInt16) (marks : List Mark) : Out Node :=
  if units = [] then failed "Empty text nodes are not allowed"
  else .ok (.mk S.textNode [] [] (Mark.sorted marks) (some units) true)

def sameMarkup (node other : Node) : Bool :=
  node.kind = other.kind && node.attrs = other.attrs && node.marks = other.marks

def copy (node : Node) (content : Fragment) : Node :=
  .mk node.kind node.attrs content node.marks node.units node.isLeaf

def withMarks (node : Node) (marks : List Mark) : Node :=
  .mk node.kind node.attrs node.content marks node.units node.isLeaf

def withAttrs (S : Schema) (node : Node) (attrs : Value) : Out Node := do
  let attrs ← S.nodeAttrs node.kind (some attrs)
  pure (.mk node.kind attrs [] node.marks none node.isLeaf)

def withDocAttrs (S : Schema) (node : Node) (attrs : Value) : Out Node := do
  let attrs ← S.nodeAttrs node.kind (some attrs)
  pure (.mk node.kind attrs node.content node.marks none node.isLeaf)

def withUnits (node : Node) (text : List UInt16) : Node :=
  .mk node.kind node.attrs [] node.marks (some text) true

def joinedText (node other : Node) : Node :=
  node.withUnits (node.units.getD [] ++ other.units.getD [])

end Node

/-! ### Cutting -/

/-- A part of a text node's units. -/
def cutUnits (node : Node) (text : List UInt16) (lo hi : Nat) : Out Node :=
  if lo = 0 ∧ hi = text.length then .ok node
  else if lo ≤ hi ∧ hi ≤ text.length then .ok (node.withUnits ((text.take hi).drop lo))
  else failed "Cut outside of text"

/-- The two short ways of cutting children; `inside` is the loop over them. -/
def cutWith (inside : Out Fragment) (content : Fragment) (lo hi : Nat) : Out Fragment :=
  if lo = 0 ∧ hi = Fragment.size content then .ok content
  else if lo < hi then inside
  else .ok []

mutual

def Node.cut : Node → Nat → Nat → Out Node
  | .mk kind attrs content marks text leaf, lo, hi =>
    match text with
    | some units => cutUnits (.mk kind attrs content marks text leaf) units lo hi
    | none =>
      if lo = 0 ∧ hi = Fragment.size content then .ok (.mk kind attrs content marks text leaf)
      else do
        let content ← cutWith (cutFrom content 0 lo hi) content lo hi
        pure (.mk kind attrs content marks text leaf)

/-- The loop of `Fragment.cut`, from the child that starts at `position` on. -/
def cutFrom : List Node → Nat → Nat → Nat → Out Fragment
  | [], position, _, hi =>
    if position < hi then failed "Cut outside of the fragment" else .ok []
  | child :: rest, position, lo, hi =>
    if hi ≤ position then .ok []
    else if lo < position + child.nodeSize then do
      let kept ←
        (if position < lo ∨ hi < position + child.nodeSize then
          match child.units with
          | some text => child.cut (lo - position) (min text.length (hi - position))
          | none =>
            child.cut (lo - (position + 1))
              (min (Fragment.size child.content) (hi - (position + 1)))
        else .ok child : Out Node)
      let rest ← cutFrom rest (position + child.nodeSize) lo hi
      pure (kept :: rest)
    else cutFrom rest (position + child.nodeSize) lo hi

end

namespace Fragment

/-- The loop body of `fromArray`: text joins the text before it that has the same marks. -/
def pushJoined (joined : List Node) (node : Node) : List Node :=
  match joined.getLast? with
  | some last =>
    if node.isText && last.sameMarkup node then joined.dropLast ++ [last.joinedText node]
    else joined ++ [node]
  | none => [node]

/-- Builds a fragment, and joins adjacent text with the same marks. -/
def fromArray (nodes : List Node) : Fragment := nodes.foldl pushJoined []

def append (content other : Fragment) : Fragment :=
  if size other = 0 then content
  else if size content = 0 then other
  else
    match content.getLast?, other with
    | some last, first :: rest =>
      if last.isText && last.sameMarkup first then
        content.dropLast ++ last.joinedText first :: rest
      else content ++ other
    | _, _ => content ++ other

def cut (content : Fragment) (lo hi : Nat) : Out Fragment :=
  cutWith (cutFrom content 0 lo hi) content lo hi

def cutEnd (content : Fragment) (lo : Nat) : Out Fragment := cut content lo (size content)

def replaceChild (content : Fragment) (i : Nat) (node : Node) : Out Fragment :=
  if i < content.length then .ok (content.set i node)
  else failed s!"Index {i} out of range"

/-- The loop of `findIndex`, from the child with this index, which starts at `current`. -/
def findFrom (position : Nat) : List Node → Nat → Nat → Out (Nat × Nat)
  | [], _, _ => failed s!"Position {position} outside of fragment"
  | child :: rest, i, current =>
    if position ≤ current + child.nodeSize then
      if current + child.nodeSize = position then .ok (i + 1, current + child.nodeSize)
      else .ok (i, current)
    else findFrom position rest (i + 1) (current + child.nodeSize)

/-- The index of the child at a position, and the offset where that child starts. -/
def findIndex (content : Fragment) (position : Nat) : Out (Nat × Nat) :=
  if position = 0 then .ok (0, position)
  else if position = size content then .ok (content.length, position)
  else if size content < position then failed s!"Position {position} outside of fragment"
  else findFrom position content 0 0

end Fragment

namespace Schema

variable (S : Schema)

def matchFragment (start : MatchId) (content : Fragment) : Option MatchId :=
  S.matchKinds start (content.map Node.kind)

def matchChildren (start : MatchId) (children : List Node) : Option MatchId :=
  S.matchKinds start (children.map Node.kind)

/-- Whether every mark of these children may stand in a node of this type. -/
def allowsMarks (kind : NodeId) (content : Fragment) : Bool :=
  content.all fun child => child.marks.all fun mark => S.allowsMarkType kind mark.kind

def validContent (kind : NodeId) (content : Fragment) : Bool :=
  match S.matchFragment (S.node kind).contentMatch content with
  | some result => (S.state result).validEnd && S.allowsMarks kind content
  | none => false

/-- Whether `content` can replace the children from `lo` to `hi` of a node. -/
def canReplace (parent : Node) (lo hi : Nat) (content : Fragment) : Out Bool :=
  if parent.childCount < lo ∨ parent.childCount < hi then panics
  else
    .ok <|
      match S.matchChildren (S.node parent.kind).contentMatch (parent.content.take lo) with
      | none => false
      | some before =>
        match S.matchChildren before content with
        | none => false
        | some after =>
          match S.matchChildren after (parent.content.drop hi) with
          | none => false
          | some stop => (S.state stop).validEnd && S.allowsMarks parent.kind content

end Schema

end Kodosi.Text
