import Kodosi.Text.Resolved

/-! Replacing a range of a document by a slice: the two sides are joined along their paths, level by
    level. -/

namespace Kodosi.Text

open Lib

variable (S : Schema)

def checkJoin (main sub : Node) : Out Unit :=
  if S.compatibleContent sub.kind main.kind then .ok ()
  else failed s!"Cannot join {S.nodeName sub.kind} onto {S.nodeName main.kind}"

def joinable (before after : ResolvedPos) (depth : Nat) : Out Node := do
  let node ← before.node depth
  let sub ← after.node depth
  checkJoin S node sub
  pure node

def addNode (child : Node) (target : List Node) : List Node :=
  match target.getLast? with
  | some last =>
    if child.isText && child.sameMarkup last then target.dropLast ++ [last.joinedText child]
    else target ++ [child]
  | none => [child]

def addOption (child : Option Node) (target : List Node) : List Node :=
  child.elim target fun child => addNode child target

/-- Where a range begins: the first child that it takes whole, and the part of a text before it. -/
def rangeStart (start : Option ResolvedPos) (depth : Nat) (target : List Node) :
    Out (Nat × List Node) :=
  match start with
  | none => .ok (0, target)
  | some start => do
    let i ← start.index depth
    if depth < start.depth then pure (i + 1, target)
    else do
      let offset ← start.textOffset
      if offset ≠ 0 then do
        let after ← start.nodeAfter
        pure (i + 1, addOption after target)
      else pure (i, target)

/-- The part of a text where a range ends. -/
def rangeEnd (stop : Option ResolvedPos) (depth : Nat) (target : List Node) : Out (List Node) :=
  match stop with
  | none => .ok target
  | some stop =>
    if stop.depth = depth then do
      let offset ← stop.textOffset
      if offset ≠ 0 then do
        let before ← stop.nodeBefore
        pure (addOption before target)
      else pure target
    else .ok target

def endIndex (stop : Option ResolvedPos) (node : Node) (depth : Nat) : Out Nat :=
  stop.elim (.ok node.childCount) fun stop => stop.index depth

def addRange (start stop : Option ResolvedPos) (depth : Nat) (target : List Node) :
    Out (List Node) :=
  match stop.or start with
  | none => .ok target
  | some any => do
    let node ← any.node depth
    let last ← endIndex stop node depth
    let (first, target) ← rangeStart start depth target
    let target ← (List.range' first (last - first)).foldlM (fun target i => do
      let child ← node.child i
      pure (addNode child target)) target
    rangeEnd stop depth target

def close (node : Node) (content : Fragment) : Out Node :=
  if S.validContent node.kind content then .ok (node.copy content)
  else failed s!"Invalid content for node {S.nodeName node.kind}"

def replaceTwoWay (fro to_ : ResolvedPos) (depth : Nat) : Out Fragment := do
  let content ← addRange none (some fro) depth []
  if _h : depth < fro.depth then do
    let kind ← joinable S fro to_ (depth + 1)
    let inner ← replaceTwoWay fro to_ (depth + 1)
    let closed ← close S kind inner
    addRange (some to_) none depth (addNode closed content)
  else addRange (some to_) none depth content
termination_by fro.depth - depth
decreasing_by omega

/-- The node to which a side of the slice joins, on a level above that side's own depth. -/
def openSide (deeper : Prop) [Decidable deeper] (node : Out Node) : Out (Option Node) :=
  if deeper then node.map some else .ok none

/-- A level where the two sides of the slice are in different children. -/
def replaceApart (fro start stop to_ : ResolvedPos) (depth : Nat) (openStart openEnd : Option Node)
    (content : List Node) : Out (List Node) := do
  let content ← openStart.elim (.ok content) fun first => do
    let inner ← replaceTwoWay S fro start (depth + 1)
    let closed ← close S first inner
    pure (addNode closed content)
  let content ← addRange (some start) (some stop) depth content
  openEnd.elim (.ok content) fun last => do
    let inner ← replaceTwoWay S stop to_ (depth + 1)
    let closed ← close S last inner
    pure (addNode closed content)

def replaceThreeWay (fro start stop to_ : ResolvedPos) (depth : Nat) : Out Fragment := do
  let openStart ← openSide (depth < fro.depth) (joinable S fro start (depth + 1))
  let openEnd ← openSide (depth < to_.depth) (joinable S stop to_ (depth + 1))
  let content ← addRange none (some fro) depth []
  match openStart, openEnd with
  | some first, some last => do
    let i ← start.index depth
    let j ← stop.index depth
    if i = j then do
      checkJoin S first last
      -- both sides are open here only above the depth of `fro`
      if _h : depth < fro.depth then do
        let inner ← replaceThreeWay fro start stop to_ (depth + 1)
        let closed ← close S first inner
        addRange (some to_) none depth (addNode closed content)
      else panics
    else do
      let content ← replaceApart S fro start stop to_ depth (some first) (some last) content
      addRange (some to_) none depth content
  | openStart, openEnd => do
    let content ← replaceApart S fro start stop to_ depth openStart openEnd content
    addRange (some to_) none depth content
termination_by fro.depth - depth
decreasing_by omega

/-- Puts a node back under the nodes of a path, from a level upwards. -/
def wrap (along : ResolvedPos) : Nat → Node → Out Node
  | 0, node => .ok node
  | depth + 1, node => do
    let outer ← along.node depth
    wrap along depth (outer.copy [node])

def prepareSlice (slice : Slice) (along : ResolvedPos) : Out (ResolvedPos × ResolvedPos) := do
  let extra ← sub64 along.depth slice.openStart
  let outer ← along.node extra
  let node ← wrap along extra (outer.copy slice.content)
  let pos ← add64 slice.openStart extra
  let start ← node.resolve pos
  let sides ← add64 slice.openEnd extra
  if Fragment.size node.content < sides then failed "The slice is smaller than its open sides"
  else do
    let stop ← node.resolve (Fragment.size node.content - sides)
    pure (start, stop)

def replaceOuter (fro to_ : ResolvedPos) (slice : Slice) (depth : Nat) : Out Node := do
  let i ← fro.index depth
  let node ← fro.node depth
  let j ← to_.index depth
  if _h : i = j ∧ depth + slice.openStart < fro.depth then do
    let inner ← replaceOuter fro to_ slice (depth + 1)
    let content ← Fragment.replaceChild node.content i inner
    pure (node.copy content)
  else if Fragment.size slice.content = 0 then do
    let content ← replaceTwoWay S fro to_ depth
    close S node content
  else if slice.openStart = 0 ∧ slice.openEnd = 0 ∧ fro.depth = depth ∧ to_.depth = depth then do
    let parent ← fro.parent
    let before ← Fragment.cut parent.content 0 fro.parentOffset
    let after ← Fragment.cutEnd parent.content to_.parentOffset
    close S parent (Fragment.append (Fragment.append before slice.content) after)
  else do
    let (start, stop) ← prepareSlice slice fro
    let content ← replaceThreeWay S fro start stop to_ depth
    close S node content
termination_by fro.depth - depth
decreasing_by omega

def replace (fro to_ : ResolvedPos) (slice : Slice) : Out Node := do
  if fro.depth < slice.openStart then failed "Inserted content deeper than insertion position"
  else do
    let left ← add64 fro.depth slice.openEnd
    let right ← add64 to_.depth slice.openStart
    if left ≠ right then failed "Inconsistent open depths"
    else replaceOuter S fro to_ slice 0

def Node.replace (doc : Node) (lo hi : Nat) (slice : Slice) : Out Node := do
  let fro ← doc.resolve lo
  let to_ ← doc.resolve hi
  Text.replace S fro to_ slice

end Kodosi.Text
