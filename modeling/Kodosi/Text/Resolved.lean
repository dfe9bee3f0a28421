import Kodosi.Text.Node

/-! Positions with the path of nodes down to them, and the slices cut out between two positions. -/

namespace Kodosi.Text

open Lib

structure Level where
  node : Node
  index : Nat
  offset : Nat

/-- A position with the path of nodes down to it. -/
structure ResolvedPos where
  pos : Nat
  path : List Level
  parentOffset : Nat

/-- A piece cut out of a larger document, with the depth up to which nodes on both sides are open. -/
structure Slice where
  content : Fragment
  openStart : Nat
  openEnd : Nat

/-- The loop of `resolve`, at a node whose content starts at `start`. -/
def resolveFrom (node : Node) (start parentOffset : Nat) (path : List Level) :
    Out (List Level × Nat) := do
  let (index, offset) ← Fragment.findIndex node.content parentOffset
  if parentOffset < offset then panics
  else
    let path := path ++ [⟨node, index, start + offset⟩]
    if _h : parentOffset - offset = 0 then pure (path, parentOffset)
    else do
      let child ← node.child index
      if child.isText then pure (path, parentOffset)
      else resolveFrom child (start + offset + 1) (parentOffset - offset - 1) path
termination_by parentOffset
decreasing_by omega

def Node.resolve (doc : Node) (pos : Nat) : Out ResolvedPos :=
  if Fragment.size doc.content < pos then failed s!"Position {pos} out of range"
  else do
    let (path, parentOffset) ← resolveFrom doc 0 pos []
    pure ⟨pos, path, parentOffset⟩

namespace ResolvedPos

variable (r : ResolvedPos)

def depth : Nat := r.path.length - 1

def level (depth : Nat) : Out Level := Lib.index r.path depth

def node (depth : Nat) : Out Node := (r.level depth).map Level.node

def index (depth : Nat) : Out Nat := (r.level depth).map Level.index

def parent : Out Node := r.node r.depth

def textOffset : Out Nat := do
  let last ← r.level (r.path.length - 1)
  sub64 r.pos last.offset

def indexAfter (depth : Nat) : Out Nat := do
  let i ← r.index depth
  if depth ≠ r.depth then pure (i + 1)
  else do
    let offset ← r.textOffset
    pure (if offset ≠ 0 then i + 1 else i)

def start : Nat → Out Nat
  | 0 => .ok 0
  | depth + 1 => (r.level depth).map fun level => level.offset + 1

def stop (depth : Nat) : Out Nat := do
  let start ← r.start depth
  let node ← r.node depth
  pure (start + Fragment.size node.content)

def nodeAfter : Out (Option Node) := do
  let parent ← r.parent
  let i ← r.index r.depth
  if i = parent.childCount then pure none
  else do
    let offset ← r.textOffset
    let child ← parent.child i
    if offset = 0 then pure (some child)
    else (child.cut offset child.nodeSize).map some

def nodeBefore : Out (Option Node) := do
  let i ← r.index r.depth
  let offset ← r.textOffset
  let parent ← r.parent
  if offset ≠ 0 then do
    let child ← parent.child i
    (child.cut 0 offset).map some
  else if i = 0 then pure none
  else (parent.child (i - 1)).map some

/-- The search of `sharedDepth`, from a level upwards. -/
def sharedFrom (pos : Nat) : Nat → Out Nat
  | 0 => .ok 0
  | depth + 1 => do
    let start ← r.start (depth + 1)
    let stop ← r.stop (depth + 1)
    if start ≤ pos ∧ pos ≤ stop then pure (depth + 1) else sharedFrom pos depth

/-- The deepest level whose node holds both this position and `pos`. -/
def sharedDepth (pos : Nat) : Out Nat := r.sharedFrom pos r.depth

end ResolvedPos

namespace Slice

def empty : Slice := ⟨[], 0, 0⟩

/-- The size this slice adds when it goes in a document. -/
def size (slice : Slice) : Out Nat := do
  let sides ← add64 slice.openStart slice.openEnd
  pure (Fragment.size slice.content - sides)

end Slice

def Node.slice (doc : Node) (lo hi : Nat) : Out Slice :=
  if lo = hi then .ok Slice.empty
  else do
    let start ← doc.resolve lo
    let stop ← doc.resolve hi
    let depth ← start.sharedDepth hi
    let nodeStart ← start.start depth
    let node ← start.node depth
    let lo ← sub64 start.pos nodeStart
    let hi ← sub64 stop.pos nodeStart
    let content ← Fragment.cut node.content lo hi
    let openStart ← sub64 start.depth depth
    let openEnd ← sub64 stop.depth depth
    pure ⟨content, openStart, openEnd⟩

/-- The node that starts at a position. -/
def Node.nodeAt (node : Node) (position : Nat) : Out (Option Node) := do
  let (index, offset) ← Fragment.findIndex node.content position
  match node.maybeChild index with
  | none => pure none
  | some child =>
    if offset = position ∨ child.isText then pure (some child)
    else if _h : offset < position then child.nodeAt (position - (offset + 1))
    else panics
termination_by position
decreasing_by omega

end Kodosi.Text
