import Kodosi.Text.Paths

/-! What the ranges beside a position hold, as tokens. -/

namespace Kodosi.Text

open Lib

variable {S : Schema} {r : ResolvedPos} {d s k : Nat} {node : Node} {target out : List Node}

/-! ### Parts of a text -/

variable {units : List UInt16}

theorem cut_text {lo hi : Nat} (h : node.units = some units) : node.cut lo hi = cutUnits node units lo hi := by
  cases node
  cases h
  simp [Node.cut]

variable {off : Nat}

theorem cut_front (h : node.units = some units) (hlt : off < units.length) :
    node.cut 0 off = .ok (node.withUnits (units.take off)) := by
  rw [cut_text h, cutUnits, if_neg (by omega), if_pos ⟨Nat.zero_le _, hlt.le⟩, List.drop_zero]

theorem cut_back (h : node.units = some units) (hpos : 0 < off) (hlt : off < units.length) :
    node.cut off node.nodeSize = .ok (node.withUnits (units.drop off)) := by
  rw [cut_text h, cutUnits, Node.nodeSize_text h, if_neg (by omega), if_pos ⟨hlt.le, le_rfl⟩,
    List.take_length]

theorem front_tokens (h : node.units = some units) :
    (node.withUnits (units.take off)).tokens = node.tokens.take off := by
  rw [Node.tokens_withUnits, Node.tokens_text h, List.map_take]

theorem back_tokens (h : node.units = some units) :
    (node.withUnits (units.drop off)).tokens = node.tokens.drop off := by
  rw [Node.tokens_withUnits, Node.tokens_text h, List.map_drop]

theorem isText_of_units (h : node.units = some units) : node.isText = true := by
  simp [Node.isText, h]

/-! ### The bottom of a path -/

variable {l : Level}

theorem index_of_level (h : r.level d = .ok l) : r.index d = .ok l.index := by
  rw [ResolvedPos.index, h]
  rfl

theorem node_of_level (h : r.level d = .ok l) : r.node d = .ok l.node := by
  rw [ResolvedPos.node, h]
  rfl

theorem textOffset_of_level (h : r.level d = .ok l) (hdepth : r.depth = d) (hpos : r.pos = l.offset + off) :
    r.textOffset = .ok off := by
  have hlast : r.level (r.path.length - 1) = .ok l := by
    rw [← hdepth] at h
    exact h
  rw [ResolvedPos.textOffset, ok_bind hlast, sub64, if_pos (by omega), hpos,
    Nat.add_sub_cancel_left]

variable {piece : Node}

theorem nodeAfter_of_level {i o : Nat} (h : r.level d = .ok ⟨node, i, o⟩) (hdepth : r.depth = d)
    (hpos : r.pos = o + off) (hchild : node.content[i]? = some piece) (hunits : piece.units = some units)
    (hoff : 0 < off) (hlt : off < units.length) : r.nodeAfter = .ok (some (piece.withUnits (units.drop off))) := by
  have hi : i < node.content.length := (List.getElem?_eq_some_iff.mp hchild).1
  rw [ResolvedPos.nodeAfter, ResolvedPos.parent, hdepth, ok_bind (node_of_level h),
    ok_bind (index_of_level h), if_neg (show i ≠ node.childCount from hi.ne),
    ok_bind (textOffset_of_level h hdepth hpos),
    ok_bind (show node.child i = .ok piece from require_ok.mpr hchild), if_neg hoff.ne',
    cut_back hunits hoff hlt]
  rfl

theorem nodeBefore_of_level {i o : Nat} (h : r.level d = .ok ⟨node, i, o⟩) (hdepth : r.depth = d)
    (hpos : r.pos = o + off) (hchild : node.content[i]? = some piece) (hunits : piece.units = some units)
    (hoff : 0 < off) (hlt : off < units.length) : r.nodeBefore = .ok (some (piece.withUnits (units.take off))) := by
  rw [ResolvedPos.nodeBefore, ResolvedPos.parent, hdepth, ok_bind (index_of_level h),
    ok_bind (textOffset_of_level h hdepth hpos), ok_bind (node_of_level h), if_pos hoff.ne',
    ok_bind (show node.child i = .ok piece from require_ok.mpr hchild), cut_front hunits hlt]
  rfl

/-! ### Ranges -/

/-- The loop of `addRange` adds the tokens of the children in the range. -/
theorem addChildren_tokens {n first : Nat} (hnode : HoldsText S node.content) :
    ∀ {target out : List Node}, HoldsText S target →
    (List.range' first n).foldlM (fun target i => do
      let child ← node.child i
      pure (addNode child target)) target = .ok out →
    tokens out = tokens target ++ tokens ((node.content.drop first).take n) ∧ HoldsText S out := by
  induction n generalizing first with
  | zero =>
    intro target out htarget h
    obtain rfl : target = out := Except.ok.inj h
    exact ⟨by simp, htarget⟩
  | succ n ih =>
    intro target out htarget h
    rw [List.range'_succ, List.foldlM_cons] at h
    obtain ⟨next, hnext, h⟩ := bind_ok h
    obtain ⟨child, hchild, hnext⟩ := bind_ok hnext
    obtain rfl := Except.ok.inj hnext
    have hget : node.content[first]? = some child := require_ok.mp hchild
    obtain ⟨hlt, hget⟩ := List.getElem?_eq_some_iff.mp hget
    have hholds : child.HoldsText S := holdsText_iff.mp hnode child (hget ▸ List.getElem_mem hlt)
    obtain ⟨hadd, hadded⟩ := addNode_tokens htarget hholds
    obtain ⟨htokens, hout⟩ := ih hadded h
    refine ⟨?_, hout⟩
    rw [htokens, hadd, List.drop_eq_getElem_cons hlt, hget, List.take_succ_cons, tokens_cons,
      List.append_assoc]

/-- The tokens of a level beside a position: with the child that it is in between them, unless the path
    ends here. -/
inductive Beside (S : Schema) (r : ResolvedPos) (d : Nat) (node : Node) (k : Nat) :
    List Token → List Token → Prop
  | bottom {left right} : r.depth = d → tokens node.content = left ++ right → left.length = k →
      Beside S r d node k left right
  | down {left right s child k'} : d < r.depth →
      tokens node.content = left ++ child.tokens ++ right → child.Inner → child.HoldsText S →
      k = left.length + 1 + k' → Stand r (d + 1) child s k' → Beside S r d node k left right

/-- The steps of a range that has an end: where it starts, its whole children and where it ends. -/
theorem addRange_ok {start stop : Option ResolvedPos} (hany : stop.or start = some r)
    (hnode : r.node d = .ok node) (hout : addRange start stop d target = .ok out) :
    ∃ last first begun mid, endIndex stop node d = .ok last ∧
      rangeStart start d target = .ok (first, begun) ∧
      (List.range' first (last - first)).foldlM (fun target i => do
        let child ← node.child i
        pure (addNode child target)) begun = .ok mid ∧ rangeEnd stop d mid = .ok out := by
  unfold addRange at hout
  rw [hany] at hout
  dsimp only at hout
  rw [ok_bind hnode] at hout
  obtain ⟨last, hlast, hout⟩ := bind_ok hout
  obtain ⟨⟨first, begun⟩, hfirst, hout⟩ := bind_ok hout
  obtain ⟨mid, hmid, hout⟩ := bind_ok hout
  exact ⟨last, first, begun, mid, hlast, hfirst, hmid, hout⟩

variable {before after : List Node}

/-- Inside a text, its front stands on one side and its back on the other. -/
theorem beside_text (hdepth : r.depth = d) (hcontent : node.content = before ++ piece :: after)
    (hunits : piece.units = some units) (hlt : off < units.length) :
    Beside S r d node (Fragment.size before + off) (tokens before ++ piece.tokens.take off)
      (piece.tokens.drop off ++ tokens after) := by
  refine .bottom hdepth ?_ ?_
  · rw [hcontent, tokens_append, tokens_cons, List.append_assoc, ← List.append_assoc (piece.tokens.take off),
      List.take_append_drop]
  · have := Node.length_tokens piece
    rw [Node.nodeSize_text hunits] at this
    rw [List.length_append, length_tokens, List.length_take]
    omega

/-- The ranges up to a position and from it on add the tokens on its two sides. -/
structure Sides (S : Schema) (r : ResolvedPos) (d : Nat) (left right : List Token) : Prop where
  before : ∀ {target out : List Node}, HoldsText S target →
    addRange none (some r) d target = .ok out → tokens out = tokens target ++ left ∧ HoldsText S out
  after : ∀ {target out : List Node}, HoldsText S target →
    addRange (some r) none d target = .ok out → tokens out = tokens target ++ right ∧ HoldsText S out

/-- A range up to a position takes the children before its index, and what `rangeEnd` adds. -/
theorem addRange_before {i o : Nat} (hlevel : r.level d = .ok ⟨node, i, o⟩)
    (hnode : HoldsText S node.content) (htarget : HoldsText S target)
    (h : addRange none (some r) d target = .ok out) :
    ∃ mid, tokens mid = tokens target ++ tokens (node.content.take i) ∧ HoldsText S mid ∧
      rangeEnd (some r) d mid = .ok out := by
  obtain ⟨last, first, begun, mid, hlast, hfirst, hmid, hout⟩ :=
    addRange_ok rfl (node_of_level hlevel) h
  obtain ⟨rfl, rfl⟩ := Prod.mk.inj (Except.ok.inj hfirst)
  obtain rfl : i = last := Except.ok.inj ((index_of_level hlevel).symm.trans hlast)
  obtain ⟨htokens, hholds⟩ := addChildren_tokens hnode htarget hmid
  exact ⟨mid, htokens, hholds, hout⟩

/-- A range from a position on takes what `rangeStart` adds, and the children from there on. -/
theorem addRange_after {first : Nat} {begun : List Node} (hat : r.node d = .ok node)
    (hfirst : rangeStart (some r) d target = .ok (first, begun)) (hnode : HoldsText S node.content)
    (hbegun : HoldsText S begun) (h : addRange (some r) none d target = .ok out) :
    tokens out = tokens begun ++ tokens (node.content.drop first) ∧ HoldsText S out := by
  obtain ⟨last, first', begun', mid, hlast, hfirst', hmid, hout⟩ := addRange_ok rfl hat h
  obtain ⟨rfl, rfl⟩ := Prod.mk.inj (Except.ok.inj (hfirst.symm.trans hfirst'))
  obtain rfl : node.childCount = last := Except.ok.inj hlast
  obtain rfl : mid = out := Except.ok.inj hout
  have htokens := addChildren_tokens hnode hbegun hmid
  rwa [List.take_of_length_le (by rw [List.length_drop, Node.childCount])] at htokens

theorem sides_seam (hlevel : r.level d = .ok ⟨node, before.length, s + Fragment.size before⟩) (hdepth : r.depth = d)
    (hpos : r.pos = s + Fragment.size before) (hcontent : node.content = before ++ after)
    (hnode : HoldsText S node.content) : Sides S r d (tokens before) (tokens after) := by
  have hoffset : r.textOffset = .ok 0 := textOffset_of_level hlevel hdepth hpos
  refine ⟨fun htarget h => ?_, fun {target out} htarget h => ?_⟩
  · obtain ⟨mid, htokens, hholds, h⟩ := addRange_before hlevel hnode htarget h
    rw [rangeEnd, if_pos hdepth, ok_bind hoffset, if_neg (by simp)] at h
    obtain rfl := Except.ok.inj h
    exact ⟨by rw [htokens, hcontent, List.take_left], hholds⟩
  · have hfirst : rangeStart (some r) d target = .ok (before.length, target) := by
      rw [rangeStart, ok_bind (index_of_level hlevel), if_neg (by omega), ok_bind hoffset,
        if_neg (by simp)]
      rfl
    have htokens := addRange_after (node_of_level hlevel) hfirst hnode htarget h
    rwa [hcontent, List.drop_left] at htokens

theorem sides_text (hlevel : r.level d = .ok ⟨node, before.length, s + Fragment.size before⟩) (hdepth : r.depth = d)
    (hpos : r.pos = s + (Fragment.size before + off)) (hcontent : node.content = before ++ piece :: after)
    (hunits : piece.units = some units) (hoff : 0 < off) (hlt : off < units.length) (hnode : HoldsText S node.content) :
    Sides S r d (tokens before ++ piece.tokens.take off) (piece.tokens.drop off ++ tokens after) := by
  have hpos' : r.pos = s + Fragment.size before + off := by omega
  have hpiece : piece.HoldsText S := hnode.child hcontent
  have htext := isText_of_units hunits
  have hoffset := textOffset_of_level hlevel hdepth hpos'
  refine ⟨fun htarget h => ?_, fun {target out} htarget h => ?_⟩
  · obtain ⟨mid, htokens, hholds, h⟩ := addRange_before hlevel hnode htarget h
    rw [rangeEnd, if_pos hdepth, ok_bind hoffset, if_pos hoff.ne',
      ok_bind (nodeBefore_of_level hlevel hdepth hpos' (by simp [hcontent]) hunits hoff hlt)] at h
    obtain rfl := Except.ok.inj h
    obtain ⟨hadd, hadded⟩ := addNode_tokens hholds (hpiece.withUnits htext (units.take off))
    refine ⟨?_, hadded⟩
    rw [addOption, Option.elim_some, hadd, htokens, front_tokens hunits, hcontent, List.take_left,
      List.append_assoc]
  · obtain ⟨hadd, hadded⟩ := addNode_tokens htarget (hpiece.withUnits htext (units.drop off))
    have hfirst : rangeStart (some r) d target =
        .ok (before.length + 1, addNode (piece.withUnits (units.drop off)) target) := by
      rw [rangeStart, ok_bind (index_of_level hlevel), if_neg (by omega), ok_bind hoffset,
        if_pos hoff.ne',
        ok_bind (nodeAfter_of_level hlevel hdepth hpos' (by simp [hcontent]) hunits hoff hlt)]
      rfl
    obtain ⟨htokens, hholds⟩ := addRange_after (node_of_level hlevel) hfirst hnode hadded h
    refine ⟨?_, hholds⟩
    rw [htokens, hadd, back_tokens hunits, hcontent]
    simp

theorem sides_down {child : Node} (hlevel : r.level d = .ok ⟨node, before.length, s + Fragment.size before⟩)
    (hdepth : d < r.depth) (hcontent : node.content = before ++ child :: after) (hnode : HoldsText S node.content) :
    Sides S r d (tokens before) (tokens after) := by
  refine ⟨fun htarget h => ?_, fun {target out} htarget h => ?_⟩
  · obtain ⟨mid, htokens, hholds, h⟩ := addRange_before hlevel hnode htarget h
    rw [rangeEnd, if_neg hdepth.ne'] at h
    obtain rfl := Except.ok.inj h
    exact ⟨by rw [htokens, hcontent, List.take_left], hholds⟩
  · have hfirst : rangeStart (some r) d target = .ok (before.length + 1, target) := by
      rw [rangeStart, ok_bind (index_of_level hlevel), if_pos hdepth]
      rfl
    obtain ⟨htokens, hholds⟩ := addRange_after (node_of_level hlevel) hfirst hnode htarget h
    refine ⟨?_, hholds⟩
    rw [htokens, hcontent]
    simp

/-- Every position has its two sides on each level of its path. -/
theorem Stand.sides (h : Stand r d node s k) (hnode : HoldsText S node.content) :
    ∃ left right, Beside S r d node k left right ∧ Sides S r d left right := by
  cases h with
  | @seam _ _ _ before after hlevel hdepth hpos hparent hcontent =>
    exact ⟨_, _, .bottom hdepth (by rw [hcontent, tokens_append]) (length_tokens _),
      sides_seam hlevel hdepth hpos hcontent hnode⟩
  | @inText _ _ _ before piece after units off hlevel hdepth hpos hparent hcontent hunits hoff hlt =>
    exact ⟨_, _, beside_text hdepth hcontent hunits hlt,
      sides_text hlevel hdepth hpos hcontent hunits hoff hlt hnode⟩
  | @down _ _ _ before child after k' hlevel hdepth hcontent hinner hle hstand =>
    exact ⟨tokens before, tokens after, .down hdepth (by simp [hcontent]) hinner (hnode.child hcontent)
      (by rw [length_tokens]) hstand, sides_down hlevel hdepth hcontent hnode⟩

end Kodosi.Text
