import Kodosi.Text.Halves

/-! Joining a document again at a position: what the ranges on the two sides take are the halves of the document there, and
    the two halves, with or without a slice between them, give back every node of it. -/

namespace Kodosi.Text

open Lib

variable {S : Schema} {r fro start stop to_ : ResolvedPos} {doc node child : Node} {nodes left right before after target : List Node}
  {d s k n m lo hi : Nat} {slice : Slice}

/-! ### Ranges -/

theorem addChildren_ok {first count : Nat} (h : first + count ≤ node.content.length) :
    (List.range' first count).foldlM (fun target i => do
      let child ← node.child i
      pure (addNode child target)) target = (.ok (addAll target ((node.content.drop first).take count)) : Out (List Node)) := by
  induction count generalizing first target with
  | zero => rfl
  | succ count ih =>
    have hlt : first < node.content.length := by omega
    have hchild : node.child first = .ok node.content[first] := require_ok.mpr (List.getElem?_eq_getElem hlt)
    rw [List.range'_succ, List.foldlM_cons, List.drop_eq_getElem_cons hlt, List.take_succ_cons, addAll_cons, ok_bind hchild]
    exact ih (by omega)

/-- A range up to a position takes the children before its index, and the part of a text that the position is in. -/
theorem addRange_front {i o : Nat} (hlevel : r.level d = .ok ⟨node, i, o⟩) (hi : i ≤ node.content.length) :
    addRange none (some r) d target = rangeEnd (some r) d (addAll target (node.content.take i)) := by
  have hlast : endIndex (some r) node d = .ok i := index_of_level hlevel
  have hall := @addChildren_ok node target 0 i (by omega)
  rw [addRange]
  dsimp only [Option.or]
  rw [ok_bind (node_of_level hlevel), ok_bind hlast, rangeStart, ok_bind rfl, Nat.sub_zero, ok_bind hall, List.drop_zero]

/-- A range from a position on takes the children from its first one on. -/
theorem addRange_back {begun : List Node} {first : Nat} (hnode : r.node d = .ok node)
    (hfirst : rangeStart (some r) d target = .ok (first, begun)) (hle : first ≤ node.content.length) :
    addRange (some r) none d target = .ok (addAll begun (node.content.drop first)) := by
  have hlast : endIndex none node d = .ok node.content.length := rfl
  rw [addRange]
  dsimp only [Option.or]
  rw [ok_bind hnode, ok_bind hlast, ok_bind hfirst]
  dsimp only
  rw [ok_bind (addChildren_ok (by omega)), rangeEnd, List.take_of_length_le (by rw [List.length_drop])]

/-! ### The two sides of a path -/

/-- What a path has before its position, from a level on: the children that a range takes there, and the next node of the
    path with what is before the position in it. -/
inductive Fronts (r : ResolvedPos) : Nat → List Node → Prop
  | bottom {d : Nat} {left : List Node} : r.depth = d →
      (∀ target, addRange none (some r) d target = .ok (addAll target left)) → Fronts r d left
  | down {d : Nat} {before inner : List Node} {child : Node} : d < r.depth →
      (∀ target, addRange none (some r) d target = .ok (addAll target before)) → r.node (d + 1) = .ok child →
      Fronts r (d + 1) inner → Fronts r d (before ++ [child.copy inner])

/-- What a path has behind its position, from a level on. -/
inductive Backs (r : ResolvedPos) : Nat → List Node → Prop
  | bottom {d : Nat} {right : List Node} : r.depth = d →
      (∀ target, addRange (some r) none d target = .ok (addAll target right)) → Backs r d right
  | down {d : Nat} {after outer : List Node} {child : Node} : d < r.depth →
      (∀ target, addRange (some r) none d target = .ok (addAll target after)) → r.node (d + 1) = .ok child →
      Backs r (d + 1) outer → Backs r d (child.copy outer :: after)

theorem drop_after_child {content : List Node} (h : content = before ++ child :: after) :
    content.drop (before.length + 1) = after := by
  rw [h, List.append_cons, List.drop_left' (by simp)]

/-- Where a position stands, its path has the halves of the content on its two sides. -/
theorem Stand.halves (h : Stand r d node s k) (hnode : Everywhere (Firm S) node.content) :
    ∃ left right, Halves (r.depth - d) node.content k left right ∧ Fronts r d left ∧ Backs r d right := by
  induction h with
  | @seam d node s before after hlevel hdepth hpos hparent hcontent =>
    have hlength : before.length ≤ node.content.length := by rw [hcontent, List.length_append]; omega
    have hoffset : r.textOffset = .ok 0 := textOffset_of_level hlevel hdepth hpos
    refine ⟨before, after, ?_, .bottom hdepth fun target => ?_, .bottom hdepth fun target => ?_⟩
    · have := (Halves.here after).behind before
      rw [List.append_nil, Nat.add_zero] at this
      rwa [hdepth, Nat.sub_self, hcontent]
    · rw [addRange_front hlevel hlength, rangeEnd, if_pos hdepth, ok_bind hoffset, if_neg (by simp), hcontent, List.take_left]
      rfl
    · have hfirst : rangeStart (some r) d target = .ok (before.length, target) := by
        rw [rangeStart, ok_bind (index_of_level hlevel), if_neg (by omega), ok_bind hoffset, if_neg (by simp)]
        rfl
      rw [addRange_back (node_of_level hlevel) hfirst hlength, hcontent, List.drop_left]
  | @inText d node s before text after units off hlevel hdepth hpos hparent hcontent hunits hoff hlt =>
    have hlength : before.length + 1 ≤ node.content.length := by rw [hcontent, List.length_append, List.length_cons]; omega
    have hpos' : r.pos = s + Fragment.size before + off := by omega
    have hoffset : r.textOffset = .ok off := textOffset_of_level hlevel hdepth hpos'
    have hchild : node.content[before.length]? = some text := by simp [hcontent]
    have hplain : IsPlain text units := (hnode.child hcontent).here.plain hunits
    refine ⟨before ++ [text.withUnits (units.take off)], text.withUnits (units.drop off) :: after, ?_,
      .bottom hdepth fun target => ?_, .bottom hdepth fun target => ?_⟩
    · have := (@Halves.text _ _ after _ hplain hoff hlt).behind before
      rwa [hdepth, Nat.sub_self, hcontent]
    · rw [addRange_front hlevel (by omega), rangeEnd, if_pos hdepth, ok_bind hoffset, if_pos hoff.ne',
        ok_bind (nodeBefore_of_level hlevel hdepth hpos' hchild hunits hoff hlt), hcontent, List.take_left]
      simp [addOption, pure, Except.pure]
    · have hfirst : rangeStart (some r) d target =
          .ok (before.length + 1, addNode (text.withUnits (units.drop off)) target) := by
        rw [rangeStart, ok_bind (index_of_level hlevel), if_neg (by omega), ok_bind hoffset, if_pos hoff.ne',
          ok_bind (nodeAfter_of_level hlevel hdepth hpos' hchild hunits hoff hlt)]
        rfl
      rw [addRange_back (node_of_level hlevel) hfirst hlength, drop_after_child hcontent]
      rfl
  | @down d node s before child after k hlevel hdepth hcontent hinner hle hstand ih =>
    have hlength : before.length + 1 ≤ node.content.length := by rw [hcontent, List.length_append, List.length_cons]; omega
    obtain ⟨left, right, hhalves, hfronts, hbacks⟩ := ih (hnode.child hcontent).content
    refine ⟨before ++ [child.copy left], child.copy right :: after, ?_, .down hdepth (fun target => ?_) hstand.node_eq hfronts,
      .down hdepth (fun target => ?_) hstand.node_eq hbacks⟩
    · have := (@Halves.down _ _ _ after _ _ hinner hhalves).behind before
      rw [show r.depth - d = r.depth - (d + 1) + 1 by omega, hcontent, Nat.add_assoc, Nat.add_comm 1 k]
      exact this
    · rw [addRange_front hlevel (by omega), rangeEnd, if_neg hdepth.ne', hcontent, List.take_left]
    · have hfirst : rangeStart (some r) d target = .ok (before.length + 1, target) := by
        rw [rangeStart, ok_bind (index_of_level hlevel), if_pos hdepth]
        rfl
      rw [addRange_back (node_of_level hlevel) hfirst hlength, drop_after_child hcontent]

/-! ### Documents in normal form -/

/-- A node with its text in normal form: adjacent text with the same marks is joined. -/
structure Tidy (S : Schema) (node : Node) : Prop extends Firm S node where
  joined : Joined node.content

/-- A node in normal form that keeps to its content rule. -/
structure Neat (S : Schema) (node : Node) : Prop extends Tidy S node where
  rule : S.validContent node.kind node.content = true

mutual

theorem Node.Everywhere.neat {node : Node} (h : node.Everywhere (Tidy S)) (hvalid : node.valid S = true) :
    node.Everywhere (Neat S) := by
  cases node with
  | mk kind attrs content marks text leaf =>
    obtain ⟨hrule, hcontent⟩ := valid_iff.mp hvalid
    exact ⟨⟨h.1, hrule⟩, Everywhere.neat h.2 hcontent⟩

theorem Everywhere.neat {nodes : List Node} (h : Everywhere (Tidy S) nodes) (hvalid : allValid S nodes = true) :
    Everywhere (Neat S) nodes := by
  cases nodes with
  | nil => trivial
  | cons node rest =>
    obtain ⟨hnode, hrest⟩ := Bool.and_eq_true_iff.mp hvalid
    exact ⟨Node.Everywhere.neat h.1 hnode, Everywhere.neat h.2 hrest⟩

end

mutual

theorem Node.Everywhere.firm {node : Node} (h : node.Everywhere (Neat S)) : node.Everywhere (Firm S) := by
  cases node with
  | mk kind attrs content marks text leaf => exact ⟨h.1.toFirm, Everywhere.firm h.2⟩

theorem Everywhere.firm {nodes : List Node} (h : Everywhere (Neat S) nodes) : Everywhere (Firm S) nodes := by
  cases nodes with
  | nil => trivial
  | cons node rest => exact ⟨Node.Everywhere.firm h.1, Everywhere.firm h.2⟩

end

/-! ### Joining the two sides -/

theorem Node.copy_self (node : Node) : node.copy node.content = node := by
  cases node
  rfl

/-- Two copies are of the same node and have the same content. -/
theorem copy_inj {left right : Node} (h : left.copy before = right.copy after) :
    before = after ∧ left.kind = right.kind ∧ left.copy right.content = right := by
  cases left
  cases right
  obtain ⟨rfl, rfl, rfl, rfl, rfl, rfl⟩ := Node.mk.inj h
  exact ⟨rfl, rfl, rfl⟩

theorem checkJoin_same {main sub : Node} (h : sub.kind = main.kind) : checkJoin S main sub = .ok () := by
  rw [checkJoin, if_pos]
  simp [Schema.compatibleContent, h]

theorem close_rule (h : S.validContent node.kind nodes = true) : close S node nodes = .ok (node.copy nodes) := if_pos h

/-- The two halves of the nodes on a path, joined along it, are the nodes again. -/
theorem twoWay_joins {e : Nat} (hl : Fronts fro e left) (hr : Backs to_ e right) (h : Halves n nodes k left right)
    (hfro : fro.depth = e + n) (hto : to_.depth = e + n) (hnodes : Everywhere (Neat S) nodes) (hjoined : Joined nodes) :
    replaceTwoWay S fro to_ e = .ok nodes := by
  induction n generalizing e nodes k left right with
  | zero =>
    cases hl with
    | down hlt => omega
    | bottom _ hfront =>
    cases hr with
    | down hlt => omega
    | bottom _ hback =>
    rw [replaceTwoWay, ok_bind (hfront []), dif_neg (by omega), hback, ← addAll_append, h.joins, addAll_self hjoined]
  | succ n ih =>
    obtain ⟨before, child, after, inner, outer, k', rfl, hinner, -, hleft, hright, hchild⟩ := h.inside
    obtain ⟨-, hneat, -⟩ := everywhere_append.mp hnodes
    cases hl with
    | bottom hdepth => omega
    | @down _ before' inner' main _ hfront hmain hfronts =>
    cases hr with
    | bottom hdepth => omega
    | @down _ after' outer' sub _ hback hsub hbacks =>
    obtain ⟨rfl, hmaincopy⟩ := List.append_inj' hleft rfl
    obtain ⟨hsubcopy, rfl⟩ := List.cons.inj hright
    obtain ⟨rfl, hmainkind, hmainself⟩ := copy_inj (List.singleton_inj.mp hmaincopy)
    obtain ⟨rfl, hsubkind, -⟩ := copy_inj hsubcopy
    have hjoin : joinable S fro to_ (e + 1) = .ok main := by
      rw [joinable, ok_bind hmain, ok_bind hsub, ok_bind (checkJoin_same (hsubkind.trans hmainkind.symm))]
      rfl
    have hinside := ih hfronts hbacks hchild (by omega) (by omega) hneat.content hneat.here.joined
    have hclose : close S main child.content = .ok child := by
      rw [close_rule (hmainkind ▸ hneat.here.rule), hmainself]
    rw [replaceTwoWay, ok_bind (hfront []), dif_pos (by omega), ok_bind hjoin, ok_bind hinside, ok_bind hclose, hback]
    have hall := addAll_self hjoined
    rw [addAll_append] at hall
    exact congrArg Except.ok hall

/-! ### The edges of a slice -/

/-- As deep in as a node is open to the left, a position stands before all of its children, in the first one when it is
    open. -/
theorem Stand.first {target : List Node} (h : Stand r d node s n) (hopens : Opens n node.content) (hfirm : Filled node.content) :
    r.index d = .ok 0 ∧ rangeStart (some r) d target = .ok (min n 1, target) := by
  have hdeep := opens_depth h hopens rfl
  cases h with
  | @seam _ _ _ before after hlevel hdepth hpos hparent hcontent =>
    have hzero : Fragment.size before = 0 := by omega
    have hfilled : Filled before := fun other hother => hfirm other (by rw [hcontent]; exact List.mem_append_left _ hother)
    obtain rfl := hfilled.nil_of_size hzero
    have hindex := index_of_level hlevel
    have hoffset : r.textOffset = .ok 0 := textOffset_of_level hlevel hdepth hpos
    refine ⟨hindex, ?_⟩
    rw [rangeStart, ok_bind hindex, if_neg (by rw [hdepth]; exact lt_irrefl d), ok_bind hoffset, if_neg (by simp)]
    rfl
  | inText _ hdepth _ _ _ _ hoff => omega
  | @down _ _ _ before child after k hlevel hdepth hcontent hinner hle hstand =>
    cases before with
    | nil =>
      have hindex := index_of_level hlevel
      refine ⟨hindex, ?_⟩
      rw [rangeStart, ok_bind hindex, if_pos hdepth, Nat.min_eq_right (by omega)]
      rfl
    | cons first before =>
      -- the first child has a token for each level that the node is open
      rw [hcontent, show Fragment.size (first :: before) + 1 + k = Fragment.size (first :: before) + k + 1 by omega] at hopens
      obtain ⟨hfirst, hopens⟩ := hopens
      have := opens_le hopens
      rw [size_cons, hfirst.nodeSize] at this
      omega

/-- As far from its end as a node is open to the right, a position stands behind all of its children, in the last one when it is
    open. -/
theorem Stand.last (h : Stand r d node s k) (hcloses : Closes m node.content) (hfirm : Filled node.content)
    (hk : k + m = Fragment.size node.content) :
    r.index d = .ok (node.content.length - min m 1) ∧ ∀ target, rangeEnd (some r) d target = .ok target := by
  have hdeep := closes_depth h hcloses hk
  cases h with
  | @seam _ _ _ before after hlevel hdepth hpos hparent hcontent =>
    obtain rfl : m = 0 := by omega
    rw [hcontent, Fragment.size_append] at hk
    have hfilled : Filled after := fun other hother => hfirm other (by rw [hcontent]; exact List.mem_append_right _ hother)
    obtain rfl := hfilled.nil_of_size (by omega)
    rw [hcontent, List.append_nil]
    refine ⟨index_of_level hlevel, fun target => ?_⟩
    have hoffset : r.textOffset = .ok 0 := textOffset_of_level hlevel hdepth hpos
    rw [rangeEnd, if_pos hdepth, ok_bind hoffset, if_neg (by simp)]
    rfl
  | inText _ hdepth _ _ hcontent hunits _ hlt =>
    rw [hcontent, Fragment.size_append, size_cons, Node.nodeSize_text hunits] at hk
    omega
  | @down _ _ _ before child after k' hlevel hdepth hcontent hinner hle hstand =>
    obtain ⟨m, rfl⟩ : ∃ m', m = m' + 1 := Nat.exists_eq_succ_of_ne_zero (by omega)
    obtain ⟨front, last, hlast, hlastInner, hcloses⟩ := closes_succ.mp hcloses
    have hfits := closes_le hcloses
    refine ⟨?_, fun target => by rw [rangeEnd, if_neg hdepth.ne']⟩
    rcases split_last (hlast.symm.trans hcontent) with ⟨rfl, rfl, rfl⟩ | ⟨mid, rfl⟩
    · rw [index_of_level hlevel, hlast, List.length_append, Nat.min_eq_right (by omega)]
      rfl
    · -- the last child has a token for each level that the node is open
      rw [hlast, Fragment.size_append, Fragment.size_append, size_cons, size_cons, hinner.nodeSize, hlastInner.nodeSize] at hk
      omega

/-- The range between the edges of a slice: its children, without those that are open. -/
theorem addRange_edges {s' : Nat} {core : Node} (hstart : Stand start d core s n) (hstop : Stand stop d core s' k)
    (hopens : Opens n core.content) (hcloses : Closes m core.content) (hfirm : Filled core.content)
    (hk : k + m = Fragment.size core.content) (hmin : min n 1 + min m 1 ≤ core.content.length) :
    addRange (some start) (some stop) d target =
      .ok (addAll target ((core.content.drop (min n 1)).take (core.content.length - min m 1 - min n 1))) := by
  obtain ⟨-, hfirst⟩ := @Stand.first start core d s n target hstart hopens hfirm
  obtain ⟨hlast, hend⟩ := hstop.last hcloses hfirm hk
  have hlast' : endIndex (some stop) core d = .ok (core.content.length - min m 1) := hlast
  rw [addRange]
  dsimp only [Option.or]
  rw [ok_bind hstop.node_eq, ok_bind hlast', ok_bind hfirst]
  dsimp only
  rw [ok_bind (addChildren_ok (by omega)), hend]

/-! ### A slice between its two sides -/

variable {cut : List Node}

/-- Behind the open child of a right half, if there is one, what is cut off of it is a left half of the other children. -/
theorem Halves.past_open (h : Halves n nodes lo left right) (h' : Halves m right (hi + n - lo) cut after)
    (hlt : lo < hi) (hapart : ¬SameChild nodes lo hi) :
    ∃ lead rest k cut', right = lead ++ rest ∧ cut = lead ++ cut' ∧ lead.length = min n 1 ∧ Halves m rest k cut' after ∧
      ∀ node ∈ rest, node.Inner → node ∈ nodes := by
  cases n with
  | zero => exact ⟨[], right, _, cut, rfl, rfl, rfl, h', h.right_inner⟩
  | succ n =>
    obtain ⟨before, child, behind, inner, outer, k, rfl, hinner, rfl, rfl, rfl, hchild⟩ := h.inside
    have hsizes := hchild.sizes
    generalize hk : hi + (n + 1) - (Fragment.size before + (k + 1)) = k' at h'
    cases h' with
    | here => omega
    | text hplain => exact absurd hplain.units (by simp [(hinner.copy outer).noText])
    | @down _ k'' _ _ _ _ _ hother =>
      -- both positions are in the child
      have hother := hother.sizes.1
      rw [Node.copy_content] at hother
      exact absurd ⟨before, child, behind, k, hi - (Fragment.size before + 1), rfl, hinner, rfl, by omega, hsizes.1, by omega⟩ hapart
    | @skip _ k'' _ _ cut' _ hrest =>
      refine ⟨[child.copy outer], behind, k'', cut', rfl, rfl, by simp, hrest, fun node hnode _ => ?_⟩
      simp [hnode]

variable {lead rest : List Node}

/-- The side of the document before a slice, joined to the slice's first child when that one is open: the other nodes behind
    it give all nodes. -/
theorem openStart_joins (hl : Fronts fro d left) (hs : Backs start d (lead ++ cut))
    (h : Halves n nodes k left (lead ++ rest)) (hlead : lead.length = min n 1) (hfro : fro.depth = d + n)
    (hstart : start.depth = d + n) (hnodes : Everywhere (Neat S) nodes) (hjoined : Joined nodes) :
    ∃ openStart content target, openSide (d < fro.depth) (joinable S fro start (d + 1)) = .ok openStart ∧
      addRange none (some fro) d [] = .ok content ∧ (openStart.isSome = true ↔ 0 < n) ∧
      openStart.elim (.ok content) (fun first => do
        let inner ← replaceTwoWay S fro start (d + 1)
        let closed ← close S first inner
        pure (addNode closed content)) = .ok target ∧ addAll target rest = nodes := by
  cases n with
  | zero =>
    obtain rfl : lead = [] := List.eq_nil_of_length_eq_zero hlead
    rw [List.nil_append] at h
    cases hl with
    | down hlt => omega
    | bottom _ hfront =>
    refine ⟨none, addAll [] left, addAll [] left, if_neg (by omega), hfront [], by simp, rfl, ?_⟩
    rw [← addAll_append, h.joins, addAll_self hjoined]
  | succ n =>
    obtain ⟨before, child, after, inner, outer, k', rfl, hinner, -, hleft, hright, hchild⟩ := h.inside
    obtain ⟨-, hneat, -⟩ := everywhere_append.mp hnodes
    obtain ⟨first, rfl⟩ : ∃ first, lead = [first] := List.length_eq_one_iff.mp (by omega)
    rw [List.singleton_append] at hright
    obtain ⟨rfl, rfl⟩ := List.cons.inj hright
    cases hl with
    | bottom hdepth => omega
    | @down _ before' inner' main _ hfront hmain hfronts =>
    generalize hs' : [child.copy outer] ++ cut = whole at hs
    cases hs with
    | bottom hdepth => omega
    | @down _ after' outer' sub _ hback hsub hbacks =>
    obtain ⟨rfl, hmaincopy⟩ := List.append_inj' hleft rfl
    obtain ⟨rfl, hmainkind, hmainself⟩ := copy_inj (List.singleton_inj.mp hmaincopy)
    obtain ⟨rfl, hsubkind, -⟩ := copy_inj (List.cons.inj hs').1
    have hjoin : joinable S fro start (d + 1) = .ok main := by
      rw [joinable, ok_bind hmain, ok_bind hsub, ok_bind (checkJoin_same (hsubkind.symm.trans hmainkind.symm))]
      rfl
    have hinside := twoWay_joins hfronts hbacks hchild (by omega) (by omega) hneat.content hneat.here.joined
    have hclose : close S main child.content = .ok child := by
      rw [close_rule (hmainkind ▸ hneat.here.rule), hmainself]
    refine ⟨some main, addAll [] before', addNode child (addAll [] before'), ?_, hfront [], by simp, ?_, ?_⟩
    · rw [openSide, if_pos (by omega), hjoin]
      rfl
    · rw [Option.elim_some, ok_bind hinside, ok_bind hclose]
      rfl
    · have hall := addAll_self hjoined
      rwa [addAll_append] at hall

/-- The side of the document behind a slice, joined to the slice's last child when that one is open. -/
theorem openEnd_joins (he : Fronts stop d (lead ++ cut)) (hr : Backs to_ d right) (h : Halves m rest k cut right)
    (hin : ∀ node ∈ rest, node.Inner → node ∈ nodes) (hstop : stop.depth = d + m) (hto : to_.depth = d + m)
    (hnodes : Everywhere (Neat S) nodes) :
    ∃ openEnd, openSide (d < to_.depth) (joinable S stop to_ (d + 1)) = .ok openEnd ∧ (openEnd.isSome = true ↔ 0 < m) ∧
      ∀ target, ∃ closed, openEnd.elim (.ok (addAll target (cut.take (cut.length - min m 1)))) (fun last => do
        let inner ← replaceTwoWay S stop to_ (d + 1)
        let closed ← close S last inner
        pure (addNode closed (addAll target (cut.take (cut.length - min m 1))))) = .ok closed ∧
        addRange (some to_) none d closed = .ok (addAll target rest) := by
  cases m with
  | zero =>
    cases hr with
    | down hlt => omega
    | bottom _ hback =>
    refine ⟨none, if_neg (by omega), by simp, fun target => ⟨addAll target cut, ?_, ?_⟩⟩
    · rw [Option.elim_none, Nat.zero_min, Nat.sub_zero, List.take_length]
    · rw [hback, ← addAll_append, h.joins]
  | succ m =>
    obtain ⟨before, child, after, inner, outer, k', rfl, hinner, -, rfl, hright, hchild⟩ := h.inside
    have hneat := everywhere_iff.mp hnodes child (hin child (by simp) hinner)
    cases hr with
    | bottom hdepth => omega
    | @down _ after' outer' sub _ hback hsub hbacks =>
    generalize he' : lead ++ (before ++ [child.copy inner]) = whole at he
    cases he with
    | bottom hdepth => omega
    | @down _ before' inner' main _ hfront hmain hfronts =>
    rw [← List.append_assoc] at he'
    obtain ⟨-, hmaincopy⟩ := List.append_inj' he' rfl
    obtain ⟨hsubcopy, rfl⟩ := List.cons.inj hright
    obtain ⟨rfl, hmainkind, hmainself⟩ := copy_inj (List.singleton_inj.mp hmaincopy).symm
    obtain ⟨rfl, hsubkind, -⟩ := copy_inj hsubcopy
    have hjoin : joinable S stop to_ (d + 1) = .ok main := by
      rw [joinable, ok_bind hmain, ok_bind hsub, ok_bind (checkJoin_same (hsubkind.trans hmainkind.symm))]
      rfl
    have hinside := twoWay_joins hfronts hbacks hchild (by omega) (by omega) hneat.content hneat.here.joined
    have hclose : close S main child.content = .ok child := by
      rw [close_rule (hmainkind ▸ hneat.here.rule), hmainself]
    have hwhole : ∀ last : Node, (before ++ [last]).take ((before ++ [last]).length - min (m + 1) 1) = before := by
      intro last
      rw [List.length_append, Nat.min_eq_right (by omega), List.length_singleton, Nat.add_sub_cancel, List.take_left]
    rw [hwhole]
    refine ⟨some main, ?_, by simp, fun target => ⟨addNode child (addAll target before), ?_, ?_⟩⟩
    · rw [openSide, if_pos (by omega), hjoin]
      rfl
    · rw [Option.elim_some, ok_bind hinside, ok_bind hclose]
      rfl
    · rw [hback, addAll_append, addAll_cons]

/-- A slice between the two sides that it was cut from joins them to the nodes again. -/
theorem threeWay_joins {s' q k' : Nat} {core : Node} (hl : Fronts fro d left) (hr : Backs to_ d right)
    (h : Halves n nodes k left (lead ++ rest)) (hrest : Halves m rest k' cut right) (hlead : lead.length = min n 1)
    (hin : ∀ node ∈ rest, node.Inner → node ∈ nodes) (hcore : core.content = lead ++ cut)
    (hstart : Stand start d core s n) (hstop : Stand stop d core s' q) (hopens : Opens n core.content)
    (hcloses : Closes m core.content) (hq : q + m = Fragment.size core.content)
    (hfirm : Everywhere (Firm S) core.content) (hfro : fro.depth = d + n) (hto : to_.depth = d + m)
    (hnodes : Everywhere (Neat S) nodes) (hjoined : Joined nodes) :
    replaceThreeWay S fro start stop to_ d = .ok nodes := by
  have hstartdepth := opens_depth hstart hopens rfl
  have hstopdepth := closes_depth hstop hcloses hq
  have hfilled := filled_of_firm hfirm
  -- the slice is all behind its first edge, and all before its second one
  obtain ⟨front, back, hhalves, -, hs⟩ := hstart.halves hfirm
  rw [hhalves.open_left hfirm (by omega), hcore] at hs
  obtain ⟨front', back', hhalves', he, -⟩ := hstop.halves hfirm
  rw [hhalves'.open_right hfirm (by omega), hcore] at he
  obtain ⟨openStart, content, target, hopenStart, hcontent, hisStart, hjoinStart, hall⟩ :=
    openStart_joins hl hs h hlead hfro hstartdepth hnodes hjoined
  obtain ⟨openEnd, hopenEnd, hisEnd, hends⟩ := openEnd_joins he hr hrest hin hstopdepth hto hnodes
  obtain ⟨closed, hjoinEnd, hclosed⟩ := hends target
  have hcut : 0 < m → 0 < cut.length := by
    intro hm
    have := hrest.sizes.2.1
    exact List.length_pos_iff.mpr (by rintro rfl; simp [Fragment.size] at this; omega)
  have hlength : core.content.length = min n 1 + cut.length := by rw [hcore, List.length_append, hlead]
  have hmiddle : addRange (some start) (some stop) d target = .ok (addAll target (cut.take (cut.length - min m 1))) := by
    rw [addRange_edges hstart hstop hopens hcloses hfilled hq (by omega), hlength, hcore, List.drop_left' hlead,
      show min n 1 + cut.length - min m 1 - min n 1 = cut.length - min m 1 by omega]
  have hapart : replaceApart S fro start stop to_ d openStart openEnd content = .ok closed := by
    rw [replaceApart, ok_bind hjoinStart, ok_bind hmiddle, hjoinEnd]
  have hdone : (do
      let content ← replaceApart S fro start stop to_ d openStart openEnd content
      addRange (some to_) none d content) = .ok nodes := by
    rw [ok_bind hapart, hclosed, hall]
  rw [replaceThreeWay, ok_bind hopenStart, ok_bind hopenEnd, ok_bind hcontent]
  cases openStart with
  | none => exact hdone
  | some first =>
    cases openEnd with
    | none => exact hdone
    | some last =>
      have hn := hisStart.mp rfl
      have hm := hisEnd.mp rfl
      have := hcut hm
      dsimp only
      rw [ok_bind (@Stand.first start core d s n [] hstart hopens hfilled).1, ok_bind (hstop.last hcloses hfilled hq).1,
        if_neg (by omega)]
      exact hdone

/-! ### A slice that is open on no side -/

theorem addNode_firm (htarget : Everywhere (Firm S) target) (hnode : node.Everywhere (Firm S)) :
    Everywhere (Firm S) (addNode node target) := by
  rcases List.eq_nil_or_concat target with rfl | ⟨before, last, rfl⟩
  · exact ⟨hnode, trivial⟩
  · rw [List.concat_eq_append] at htarget ⊢
    rw [addNode_last]
    split_ifs with hjoins
    · obtain ⟨hbefore, hlast, -⟩ := everywhere_append.mp htarget
      obtain ⟨htext, hsame⟩ := Bool.and_eq_true_iff.mp hjoins
      have hlasttext := hlast.here.holds.mpr ((sameMarkup_iff.mp hsame).1 ▸ hnode.here.holds.mp htext)
      obtain ⟨units, hunits⟩ := Option.isSome_iff_exists.mp hlasttext
      have hfilled : units ++ node.units.getD [] ≠ [] := fun hnil =>
        hlast.here.filled (by rw [hunits, (List.append_eq_nil_iff.mp hnil).1])
      refine everywhere_append.mpr ⟨hbefore, ?_, trivial⟩
      rw [Node.joinedText, hunits]
      exact hlast.here.withUnits hunits hfilled
    · exact everywhere_append.mpr ⟨htarget, hnode, trivial⟩

theorem addAll_firm (htarget : Everywhere (Firm S) target) (hnodes : Everywhere (Firm S) nodes) :
    Everywhere (Firm S) (addAll target nodes) := by
  induction nodes generalizing target with
  | nil => exact htarget
  | cons node rest ih => exact ih (addNode_firm htarget hnodes.1) hnodes.2

/-- Behind one node, nodes that do not join it or each other. -/
theorem addAll_behind {last : Node} (h : Joined (last :: after)) : addAll (before ++ [last]) after = before ++ last :: after := by
  induction after generalizing before last with
  | nil => rfl
  | cons node rest ih =>
    obtain ⟨hfirst, hrest⟩ := List.isChain_cons.mp h
    have hparted : ∀ other ∈ (before ++ [last]).getLast?, Parted other node := by
      intro other hother
      obtain rfl : last = other := by simpa using hother
      exact hfirst node rfl
    rw [addAll_cons, addNode_parted hparted, ih hrest, List.append_assoc, List.singleton_append]

/-- `Fragment::append` puts nodes in normal form behind others. -/
theorem append_all (hbefore : Everywhere (Firm S) before) (hafter : Everywhere (Firm S) after) (hjoined : Joined after) :
    Fragment.append before after = addAll before after := by
  by_cases hnil : Fragment.size after = 0
  · obtain rfl := (filled_of_firm hafter).nil_of_size hnil
    rfl
  by_cases hfirst : Fragment.size before = 0
  · obtain rfl := (filled_of_firm hbefore).nil_of_size hfirst
    unfold Fragment.append
    rw [if_neg hnil, if_pos hfirst, addAll_self hjoined]
  unfold Fragment.append
  rw [if_neg hnil, if_neg hfirst]
  rcases List.eq_nil_or_concat before with rfl | ⟨init, last, rfl⟩
  · exact absurd rfl hfirst
  cases after with
  | nil => exact absurd rfl hnil
  | cons first rest =>
    rw [List.concat_eq_append] at hbefore ⊢
    obtain ⟨-, hlast, -⟩ := everywhere_append.mp hbefore
    obtain ⟨hparted, hrest⟩ := List.isChain_cons.mp hjoined
    have hsame : (last.isText && last.sameMarkup first) = (first.isText && first.sameMarkup last) := by
      rw [Bool.eq_iff_iff, Bool.and_eq_true_iff, Bool.and_eq_true_iff, hlast.here.holds, hafter.1.here.holds, sameMarkup_iff,
        sameMarkup_iff]
      grind
    rw [List.getLast?_concat, List.dropLast_concat, addAll_cons, addNode_last, ← hsame]
    dsimp only
    split_ifs with hjoins
    · have hmarkup := sameMarkup_iff.mp (Bool.and_eq_true_iff.mp hjoins).2
      refine (addAll_behind (List.isChain_cons.mpr ⟨fun node hnode hnext => ?_, hrest⟩)).symm
      refine hparted node hnode ⟨hnext.1, sameMarkup_iff.mpr ?_⟩
      obtain ⟨hkind, hattrs, hmarks⟩ := sameMarkup_iff.mp hnext.2
      exact ⟨hkind.trans hmarkup.1, hattrs.trans hmarkup.2.1, hmarks.trans hmarkup.2.2⟩
    · exact (addAll_behind hjoined).symm

/-- A slice that is open on no side, between what was before and behind it. -/
theorem flat_joins {middle behind : List Node} (h : Halves 0 nodes k left right) (h' : Halves 0 right n middle behind)
    (hnodes : Everywhere (Firm S) nodes) (hjoined : Joined nodes) :
    Fragment.append (Fragment.append left middle) behind = nodes := by
  obtain ⟨hleft, hright⟩ := h.firm hnodes
  obtain ⟨hmiddle, hbehind⟩ := h'.firm hright
  obtain ⟨hjleft, hjright⟩ := h.joined hjoined
  obtain ⟨hjmiddle, hjbehind⟩ := h'.joined hjright
  rw [append_all hleft hmiddle hjmiddle, append_all (addAll_firm hleft hmiddle) hbehind hjbehind, ← addAll_append, h'.joins]
  have hall := h.joins []
  rw [addAll_append, addAll_self hjleft, addAll_self hjoined] at hall
  exact hall

end Kodosi.Text
