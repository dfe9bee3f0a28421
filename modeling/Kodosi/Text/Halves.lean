import Kodosi.Text.Openers

/-! The two halves of a fragment at a position, with the nodes around the position open in both of them: they are what a cut
    gives, and putting their nodes one behind the other gives the fragment back. -/

namespace Kodosi.Text

open Lib

variable {S : Schema} {node child text : Node} {nodes left right before after rest target : List Node}
  {units : List UInt16} {n m k off lo hi : Nat}

/-! ### Nodes put one behind the other -/

/-- Puts nodes behind others, one after the other; text joins the text before it that has the same marks. -/
def addAll (target nodes : List Node) : List Node := nodes.foldl (fun target child => addNode child target) target

@[simp] theorem addAll_nil (target : List Node) : addAll target [] = target := rfl

@[simp] theorem addAll_cons (target nodes : List Node) (node : Node) :
    addAll target (node :: nodes) = addAll (addNode node target) nodes := rfl

@[simp] theorem addAll_append (target left right : List Node) :
    addAll target (left ++ right) = addAll (addAll target left) right := List.foldl_append ..

/-- The second of two nodes does not join the first. -/
def Parted (first second : Node) : Prop := ¬(second.isText = true ∧ second.sameMarkup first = true)

/-- Adjacent text with the same marks is joined. -/
abbrev Joined (nodes : List Node) : Prop := nodes.IsChain Parted

theorem addNode_last {last : Node} : addNode node (before ++ [last]) =
    if node.isText && node.sameMarkup last then before ++ [last.joinedText node] else before ++ [last] ++ [node] := by
  rw [addNode, List.getLast?_concat, List.dropLast_concat]

theorem addNode_join {last : Node} (htext : node.isText = true) (hsame : node.sameMarkup last = true) :
    addNode node (before ++ [last]) = before ++ [last.joinedText node] := by
  rw [addNode_last, if_pos (Bool.and_eq_true_iff.mpr ⟨htext, hsame⟩)]

theorem addNode_parted (h : ∀ last ∈ target.getLast?, Parted last node) : addNode node target = target ++ [node] := by
  rcases List.eq_nil_or_concat target with rfl | ⟨before, last, rfl⟩
  · rfl
  · rw [List.concat_eq_append] at h ⊢
    rw [addNode_last, if_neg]
    simpa [Parted] using h last List.getLast?_concat

/-- Nodes that do not join stand one behind the other. -/
theorem addAll_joined (h : Joined (target ++ nodes)) : addAll target nodes = target ++ nodes := by
  induction nodes generalizing target with
  | nil => rw [addAll_nil, List.append_nil]
  | cons node rest ih =>
    have hparted : ∀ last ∈ target.getLast?, Parted last node := fun last hlast =>
      (List.isChain_append.mp h).2.2 last hlast node rfl
    rw [addAll_cons, addNode_parted hparted, ih (by simpa using h), List.append_assoc, List.singleton_append]

theorem addAll_self (h : Joined nodes) : addAll [] nodes = nodes := addAll_joined h

/-- A text as the crate builds it: a leaf without children. -/
structure IsPlain (text : Node) (units : List UInt16) : Prop where
  units : text.units = some units
  leaf : text.isLeaf = true
  content : text.content = []

theorem IsPlain.withUnits (h : IsPlain text units) : text.withUnits units = text := by
  obtain ⟨hunits, hleaf, hcontent⟩ := h
  cases text
  cases hunits
  cases hleaf
  cases hcontent
  rfl

/-- Two parts of a text that are put one behind the other are the text. -/
theorem addNode_parts (h : IsPlain text units) (target : List Node) :
    addNode (text.withUnits (units.drop off)) (addNode (text.withUnits (units.take off)) target) = addNode text target := by
  have hself : text.sameMarkup text = true := sameMarkup_iff.mpr ⟨rfl, rfl, rfl⟩
  have htext : text.isText = true := isText_of_units h.units
  have hjoin : ∀ before : List Node, addNode (text.withUnits (units.drop off)) (before ++ [text.withUnits (units.take off)]) =
      before ++ [text] := by
    intro before
    have hmarkup : (text.withUnits (units.drop off)).sameMarkup (text.withUnits (units.take off)) = true := hself
    rw [addNode_join rfl hmarkup]
    have hunits : (text.withUnits (units.take off)).joinedText (text.withUnits (units.drop off)) =
        text.withUnits (units.take off ++ units.drop off) := rfl
    rw [hunits, List.take_append_drop, h.withUnits]
  rcases List.eq_nil_or_concat target with rfl | ⟨before, last, rfl⟩
  · exact hjoin []
  · rw [List.concat_eq_append]
    by_cases hsame : text.sameMarkup last = true
    · have hfront : (text.withUnits (units.take off)).sameMarkup last = true := hsame
      have hback : (text.withUnits (units.drop off)).sameMarkup (last.joinedText (text.withUnits (units.take off))) = true :=
        hsame
      rw [addNode_join rfl hfront, addNode_join htext hsame, addNode_join rfl hback]
      have hunits : (last.joinedText (text.withUnits (units.take off))).joinedText (text.withUnits (units.drop off)) =
          last.withUnits (last.units.getD [] ++ units.take off ++ units.drop off) := rfl
      rw [hunits, List.append_assoc, List.take_append_drop, Node.joinedText, h.units]
      rfl
    · have hparted : ∀ piece : Node, piece.sameMarkup last = text.sameMarkup last →
          ∀ node ∈ (before ++ [last]).getLast?, Parted node piece := by
        intro piece hpiece node hnode
        obtain rfl : last = node := by simpa using hnode
        exact fun hjoins => hsame (hpiece ▸ hjoins.2)
      rw [addNode_parted (hparted (text.withUnits (units.take off)) rfl), addNode_parted (hparted text rfl), hjoin]

/-! ### Two halves -/

/-- A fragment in two halves at a position that is so many nodes deep in it: the nodes around the position are in both
    halves, each with its side of their content. -/
inductive Halves : Nat → List Node → Nat → List Node → List Node → Prop
  | here (nodes : List Node) : Halves 0 nodes 0 [] nodes
  | text {text : Node} {units : List UInt16} {after : List Node} {off : Nat} : IsPlain text units → 0 < off →
      off < units.length →
      Halves 0 (text :: after) off [text.withUnits (units.take off)] (text.withUnits (units.drop off) :: after)
  | down {n k : Nat} {child : Node} {after left right : List Node} : child.Inner → Halves n child.content k left right →
      Halves (n + 1) (child :: after) (k + 1) [child.copy left] (child.copy right :: after)
  | skip {n k : Nat} {node : Node} {rest left right : List Node} : Halves n rest k left right →
      Halves n (node :: rest) (node.nodeSize + k) (node :: left) right

theorem IsPlain.nodeSize (h : IsPlain text units) : text.nodeSize = units.length := Node.nodeSize_text h.units

theorem size_singleton (node : Node) : Fragment.size [node] = node.nodeSize := rfl

theorem size_cons (node : Node) (rest : List Node) : Fragment.size (node :: rest) = node.nodeSize + Fragment.size rest := rfl

theorem size_withUnits (text : Node) (units : List UInt16) : (text.withUnits units).nodeSize = units.length :=
  Node.nodeSize_text rfl

/-- The nodes around the position count in both halves. -/
theorem Halves.sizes (h : Halves n nodes k left right) : k ≤ Fragment.size nodes ∧
    Fragment.size left = k + n ∧ Fragment.size right + k = Fragment.size nodes + n := by
  induction h with
  | here nodes => exact ⟨Nat.zero_le _, rfl, rfl⟩
  | text hplain hpos hlt =>
    rw [size_singleton, size_cons, size_cons, size_withUnits, size_withUnits, hplain.nodeSize, List.length_take,
      List.length_drop]
    omega
  | @down _ _ child _ left right hinner _ ih =>
    have hleft := (hinner.copy left).nodeSize
    have hright := (hinner.copy right).nodeSize
    rw [Node.copy_content] at hleft hright
    rw [size_singleton, size_cons, size_cons, hleft, hright, hinner.nodeSize]
    omega
  | skip _ ih =>
    rw [size_cons, size_cons]
    omega

/-- A position behind some nodes has them in its left half. -/
theorem Halves.behind (h : Halves n after k left right) (before : List Node) :
    Halves n (before ++ after) (Fragment.size before + k) (before ++ left) right := by
  induction before with
  | nil => rwa [List.nil_append, List.nil_append, Fragment.size, Nat.zero_add]
  | cons node before ih =>
    rw [size_cons, Nat.add_assoc]
    exact .skip ih

/-- Two halves at a position that no node is around, put one behind the other. -/
theorem Halves.joins (h : Halves 0 nodes k left right) (target : List Node) :
    addAll target (left ++ right) = addAll target nodes := by
  generalize hn : 0 = n at h
  induction h generalizing target with
  | here nodes => rfl
  | text hplain _ _ =>
    rw [List.singleton_append, addAll_cons, addAll_cons, addAll_cons, addNode_parts hplain]
  | down => cases hn
  | skip _ ih => exact ih (addNode _ target) hn

/-- Two halves at a position inside of a node. -/
theorem Halves.inside (h : Halves (n + 1) nodes k left right) : ∃ before child after inner outer k',
    nodes = before ++ child :: after ∧ child.Inner ∧ k = Fragment.size before + (k' + 1) ∧
      left = before ++ [child.copy inner] ∧ right = child.copy outer :: after ∧ Halves n child.content k' inner outer := by
  generalize hm : n + 1 = m at h
  induction h with
  | here => cases hm
  | text => cases hm
  | @down m k child after left right hinner hchild =>
    obtain rfl := Nat.succ.inj hm
    exact ⟨[], child, after, left, right, k, rfl, hinner, (Nat.zero_add _).symm, rfl, rfl, hchild⟩
  | @skip m k node rest left right _ ih =>
    obtain ⟨before, child, after, inner, outer, k', rfl, hinner, rfl, rfl, rfl, hchild⟩ := ih hm
    exact ⟨node :: before, child, after, inner, outer, k', rfl, hinner, by rw [size_cons]; omega, rfl, rfl, hchild⟩

/-! ### Nodes with a size -/

/-- A node as the crate builds it: the nodes of the text type are those that hold text, which is not empty. -/
structure Firm (S : Schema) (node : Node) : Prop where
  shaped : node.Shaped S
  holds : node.isText = true ↔ node.kind = S.textNode
  filled : node.units ≠ some []

/-- No node is without a size. -/
def Filled (nodes : List Node) : Prop := ∀ node ∈ nodes, 0 < node.nodeSize

theorem Firm.plain (h : Firm S node) (hunits : node.units = some units) : IsPlain node units :=
  ⟨hunits, (h.shaped.text (isText_of_units hunits)).2.1, (h.shaped.text (isText_of_units hunits)).2.2⟩

theorem Firm.size_pos (h : Firm S node) : 0 < node.nodeSize := by
  cases hunits : node.units with
  | some units =>
    rw [Node.nodeSize_text hunits, List.length_pos_iff]
    rintro rfl
    exact h.filled hunits
  | none =>
    cases hleaf : node.isLeaf with
    | true => rw [Node.nodeSize_leaf hunits hleaf]; exact Nat.one_pos
    | false =>
      have hinner : node.Inner := ⟨hunits, hleaf⟩
      have := hinner.nodeSize
      omega

theorem filled_of_firm (h : Everywhere (Firm S) nodes) : Filled nodes :=
  fun node hnode => (everywhere_iff.mp h node hnode).here.size_pos

theorem Filled.nil_of_size (h : Filled nodes) (hsize : Fragment.size nodes = 0) : nodes = [] := by
  cases nodes with
  | nil => rfl
  | cons node rest =>
    have := h node (List.mem_cons_self ..)
    rw [size_cons] at hsize
    omega

/-! ### Cuts are halves -/

/-- A cut of the content of an inner node. -/
theorem nodeCut_inner {out : List Node} (hinner : node.Inner) (h : Fragment.cut node.content lo hi = .ok out) :
    node.cut lo hi = .ok (node.copy out) := by
  cases node with
  | mk kind attrs content marks text leaf =>
    obtain ⟨htext, -⟩ := hinner
    cases htext
    rw [Node.cut]
    by_cases hall : lo = 0 ∧ hi = Fragment.size content
    · rw [if_pos hall]
      have hcut : Fragment.cut content lo hi = .ok content := by rw [Fragment.cut, cutWith, if_pos hall]
      obtain rfl := Except.ok.inj (hcut.symm.trans h)
      rfl
    · rw [if_neg hall]
      have hcut : cutWith (cutFrom content 0 lo hi) content lo hi = .ok out := h
      rw [ok_bind hcut]
      rfl

variable {p : Nat}

/-- A child that lies whole between the two ends of a cut. -/
theorem cutFrom_whole (hlo : lo ≤ p) (hhi : p + node.nodeSize ≤ hi) (hpos : 0 < node.nodeSize) :
    cutFrom (node :: rest) p lo hi = (cutFrom rest (p + node.nodeSize) lo hi).map (node :: ·) := by
  rw [cutFrom, if_neg (by omega), if_pos (by omega), if_neg (by omega)]
  cases cutFrom rest (p + node.nodeSize) lo hi <;> rfl

/-- A child that lies before a cut. -/
theorem cutFrom_before (hlo : p + node.nodeSize ≤ lo) (hhi : p < hi) :
    cutFrom (node :: rest) p lo hi = cutFrom rest (p + node.nodeSize) lo hi := by
  rw [cutFrom, if_neg (by omega), if_neg (by omega)]

theorem cutFrom_end (hhi : hi ≤ p) : cutFrom nodes p lo hi = .ok [] := by
  cases nodes with
  | nil => rw [cutFrom, if_neg (by omega)]
  | cons node rest => rw [cutFrom, if_pos hhi]

theorem cutFrom_all {p : Nat} (hnodes : Filled nodes) (hlo : lo ≤ p) :
    cutFrom nodes p lo (p + Fragment.size nodes) = .ok nodes := by
  induction nodes generalizing p with
  | nil => exact cutFrom_end le_rfl
  | cons node rest ih =>
    have hpos := hnodes node (List.mem_cons_self ..)
    rw [size_cons, cutFrom_whole hlo (by omega) hpos, ← Nat.add_assoc,
      ih (fun other hother => hnodes other (List.mem_cons_of_mem _ hother)) (by omega)]
    rfl

/-- A text that has one of the ends of a cut strictly inside of it. -/
theorem cutFrom_text {kept : Node} (hplain : IsPlain text units) (hlo : lo < p + units.length) (hhi : p < hi)
    (hin : p < lo ∨ hi < p + units.length) (hkept : cutUnits text units (lo - p) (min units.length (hi - p)) = .ok kept) :
    cutFrom (text :: rest) p lo hi = (cutFrom rest (p + units.length) lo hi).map (kept :: ·) := by
  rw [cutFrom, if_neg (by omega), hplain.nodeSize, if_pos hlo, if_pos hin, hplain.units]
  dsimp only
  rw [cut_text hplain.units, ok_bind hkept]
  cases cutFrom rest (p + units.length) lo hi <;> rfl

/-- An inner child that has one of the ends of a cut strictly inside of it. -/
theorem cutFrom_inner {kept : List Node} (hinner : node.Inner) (hlo : lo < p + node.nodeSize) (hhi : p < hi)
    (hin : p < lo ∨ hi < p + node.nodeSize)
    (hkept : Fragment.cut node.content (lo - (p + 1)) (min (Fragment.size node.content) (hi - (p + 1))) = .ok kept) :
    cutFrom (node :: rest) p lo hi = (cutFrom rest (p + node.nodeSize) lo hi).map (node.copy kept :: ·) := by
  rw [cutFrom, if_neg (by omega), if_pos hlo, if_pos hin, hinner.noText]
  dsimp only
  rw [nodeCut_inner hinner hkept]
  cases cutFrom rest (p + node.nodeSize) lo hi <;> rfl

theorem Halves.zero (h : Halves n nodes 0 left right) (hnodes : Filled nodes) : n = 0 ∧ left = [] ∧ right = nodes := by
  generalize hk : 0 = k at h
  cases h with
  | here => exact ⟨rfl, rfl, rfl⟩
  | text _ hpos => omega
  | down => omega
  | @skip _ _ node _ _ _ h =>
    have := hnodes node (List.mem_cons_self ..)
    omega

theorem Halves.all (h : Halves n nodes k left right) (hnodes : Filled nodes) (hk : k = Fragment.size nodes) :
    n = 0 ∧ left = nodes ∧ right = [] := by
  induction h with
  | here nodes =>
    obtain rfl := hnodes.nil_of_size hk.symm
    exact ⟨rfl, rfl, rfl⟩
  | text hplain _ hlt =>
    rw [size_cons, hplain.nodeSize] at hk
    omega
  | down hinner hchild =>
    have := hchild.sizes.1
    rw [size_cons, hinner.nodeSize] at hk
    omega
  | skip _ ih =>
    rw [size_cons] at hk
    obtain ⟨rfl, rfl, rfl⟩ := ih (fun other hother => hnodes other (List.mem_cons_of_mem _ hother)) (by omega)
    exact ⟨rfl, rfl, rfl⟩

theorem cutUnits_part (text : Node) (h : lo ≤ hi ∧ hi ≤ units.length) (hpart : 0 < lo ∨ hi < units.length) :
    cutUnits text units lo hi = .ok (text.withUnits ((units.take hi).drop lo)) := by
  rw [cutUnits, if_neg (by omega), if_pos h]

theorem Halves.cut_front (h : Halves n nodes k left right) (hnodes : Filled nodes)
    (hfrom : cutFrom nodes 0 0 (0 + k) = .ok left) : Fragment.cut nodes 0 k = .ok left := by
  rw [Nat.zero_add] at hfrom
  rw [Fragment.cut, cutWith]
  split_ifs with hall hpos
  · rw [(h.all hnodes hall.2).2.1]
  · exact hfrom
  · obtain rfl : k = 0 := by omega
    rw [(h.zero hnodes).2.1]

theorem Halves.cut_back (h : Halves n nodes k left right) (hnodes : Filled nodes)
    (hfrom : cutFrom nodes 0 (0 + k) (0 + Fragment.size nodes) = .ok right) : Fragment.cutEnd nodes k = .ok right := by
  have hle := h.sizes.1
  rw [Nat.zero_add, Nat.zero_add] at hfrom
  rw [Fragment.cutEnd, Fragment.cut, cutWith]
  split_ifs with hall hlt
  · obtain rfl := hall.1
    rw [(h.zero hnodes).2.2]
  · exact hfrom
  · rw [(h.all hnodes (by omega)).2.2]

/-- A cut up to a position is the left half at it. -/
theorem Halves.cutFrom_left (h : Halves n nodes k left right) (hnodes : Everywhere (Firm S) nodes) (hlo : lo ≤ p) :
    cutFrom nodes p lo (p + k) = .ok left := by
  induction h generalizing p lo with
  | here => exact cutFrom_end le_rfl
  | @text text units after off hplain hpos hlt =>
    have hkept : cutUnits text units (lo - p) (min units.length (p + off - p)) = .ok (text.withUnits (units.take off)) := by
      rw [show lo - p = 0 by omega, show min units.length (p + off - p) = off by omega,
        cutUnits_part text ⟨Nat.zero_le _, hlt.le⟩ (.inr hlt), List.drop_zero]
    rw [cutFrom_text hplain (by omega) (by omega) (.inr (by omega)) hkept, cutFrom_end (by omega)]
    rfl
  | @down n k child after left right hinner hchild ih =>
    have hle := hchild.sizes.1
    have hsize := hinner.nodeSize
    have hcontent := hnodes.1.content
    have hcut := hchild.cut_front (filled_of_firm hcontent) (ih (p := 0) hcontent (le_refl 0))
    have hkept : Fragment.cut child.content (lo - (p + 1)) (min (Fragment.size child.content) (p + (k + 1) - (p + 1))) =
        .ok left := by
      rw [show lo - (p + 1) = 0 by omega, show min (Fragment.size child.content) (p + (k + 1) - (p + 1)) = k by omega]
      exact hcut
    rw [cutFrom_inner hinner (by omega) (by omega) (.inr (by omega)) hkept, cutFrom_end (by omega)]
    rfl
  | @skip n k node rest left right _ ih =>
    rw [cutFrom_whole hlo (by omega) hnodes.1.here.size_pos, ← Nat.add_assoc, ih hnodes.2 (by omega)]
    rfl

/-- A cut from a position on is the right half at it. -/
theorem Halves.cutFrom_right (h : Halves n nodes k left right) (hnodes : Everywhere (Firm S) nodes) :
    cutFrom nodes p (p + k) (p + Fragment.size nodes) = .ok right := by
  induction h generalizing p with
  | here => exact cutFrom_all (filled_of_firm hnodes) le_rfl
  | @text text units after off hplain hpos hlt =>
    have hsize := hplain.nodeSize
    have hkept : cutUnits text units (p + off - p) (min units.length (p + (text.nodeSize + Fragment.size after) - p)) =
        .ok (text.withUnits (units.drop off)) := by
      rw [show p + off - p = off by omega,
        show min units.length (p + (text.nodeSize + Fragment.size after) - p) = units.length by omega,
        cutUnits_part text ⟨hlt.le, le_rfl⟩ (.inl hpos), List.take_length]
    rw [size_cons, cutFrom_text hplain (by omega) (by omega) (.inl (by omega)) hkept, hsize, ← Nat.add_assoc,
      cutFrom_all (filled_of_firm hnodes.2) (by omega)]
    rfl
  | @down n k child after left right hinner hchild ih =>
    have hle := hchild.sizes.1
    have hsize := hinner.nodeSize
    have hcontent := hnodes.1.content
    have hcut := hchild.cut_back (filled_of_firm hcontent) (ih (p := 0) hcontent)
    have hkept : Fragment.cut child.content (p + (k + 1) - (p + 1))
        (min (Fragment.size child.content) (p + child.nodeSize + Fragment.size after - (p + 1))) = .ok right := by
      rw [show p + (k + 1) - (p + 1) = k by omega,
        show min (Fragment.size child.content) (p + child.nodeSize + Fragment.size after - (p + 1)) =
          Fragment.size child.content by omega]
      exact hcut
    rw [size_cons, ← Nat.add_assoc p child.nodeSize, cutFrom_inner hinner (by omega) (by omega) (.inl (by omega)) hkept,
      cutFrom_all (filled_of_firm hnodes.2) (by omega)]
    rfl
  | @skip n k node rest left right _ ih =>
    have hpos := hnodes.1.here.size_pos
    rw [size_cons, cutFrom_before (by omega) (by omega), ← Nat.add_assoc, ← Nat.add_assoc, ih hnodes.2]

theorem Halves.cut_left (h : Halves n nodes k left right) (hnodes : Everywhere (Firm S) nodes) :
    Fragment.cut nodes 0 k = .ok left := h.cut_front (filled_of_firm hnodes) (h.cutFrom_left hnodes le_rfl)

theorem Halves.cut_right (h : Halves n nodes k left right) (hnodes : Everywhere (Firm S) nodes) :
    Fragment.cutEnd nodes k = .ok right := h.cut_back (filled_of_firm hnodes) (h.cutFrom_right hnodes)

/-! ### The middle between two positions -/

/-- Two positions in one inner child. -/
def SameChild (nodes : List Node) (lo hi : Nat) : Prop :=
  ∃ before child after k k', nodes = before ++ child :: after ∧ child.Inner ∧ lo = Fragment.size before + (k + 1) ∧
    hi = Fragment.size before + (k' + 1) ∧ k ≤ Fragment.size child.content ∧ k' ≤ Fragment.size child.content

theorem SameChild.behind (h : SameChild rest lo hi) (node : Node) :
    SameChild (node :: rest) (node.nodeSize + lo) (node.nodeSize + hi) := by
  obtain ⟨before, child, after, k, k', rfl, hinner, rfl, rfl, hk, hk'⟩ := h
  exact ⟨node :: before, child, after, k, k', rfl, hinner, by rw [size_cons]; omega, by rw [size_cons]; omega, hk, hk'⟩

/-- What lies between two positions that are not in one child is the left half, at the second one, of the right half at the
    first one. -/
theorem Halves.between {p : Nat} {left' right' : List Node} (h : Halves n nodes lo left right)
    (h' : Halves m nodes hi left' right') (hlt : lo < hi) (hnodes : Everywhere (Firm S) nodes) :
    SameChild nodes lo hi ∨ ∃ middle, Halves m right (hi + n - lo) middle right' ∧
      cutFrom nodes p (p + lo) (p + hi) = .ok middle := by
  induction h generalizing p m hi left' right' with
  | here nodes => exact .inr ⟨left', h', h'.cutFrom_left hnodes (by omega)⟩
  | @text text units after off hplain hpos hoff =>
    have hsize := hplain.nodeSize
    cases h' with
    | here => omega
    | @text _ units' _ _ hplain' hpos' hoff' =>
      -- both in one text
      obtain rfl : units = units' := Option.some.inj (hplain.units.symm.trans hplain'.units)
      have hback : IsPlain (text.withUnits (units.drop off)) (units.drop off) := ⟨rfl, rfl, rfl⟩
      have hkept : cutUnits text units (p + off - p) (min units.length (p + hi - p)) =
          .ok (text.withUnits ((units.drop off).take (hi - off))) := by
        rw [show p + off - p = off by omega, show min units.length (p + hi - p) = hi by omega,
          cutUnits_part text ⟨hlt.le, hoff'.le⟩ (.inl hpos), List.drop_take]
      refine .inr ⟨[text.withUnits ((units.drop off).take (hi - off))], ?_, ?_⟩
      · have := @Halves.text _ _ after _ hback (show 0 < hi - off by omega) (by rw [List.length_drop]; omega)
        rw [List.drop_drop, Nat.add_sub_cancel' hlt.le] at this
        exact this
      · rw [cutFrom_text hplain (by omega) (by omega) (.inl (by omega)) hkept, cutFrom_end (by omega)]
        rfl
    | down hinner => exact absurd hplain.units (by simp [hinner.noText])
    | @skip _ k' _ _ left' _ h' =>
      have hkept : cutUnits text units (p + off - p) (min units.length (p + (text.nodeSize + k') - p)) =
          .ok (text.withUnits (units.drop off)) := by
        rw [show p + off - p = off by omega, show min units.length (p + (text.nodeSize + k') - p) = units.length by omega,
          cutUnits_part text ⟨hoff.le, le_rfl⟩ (.inl hpos), List.take_length]
      refine .inr ⟨text.withUnits (units.drop off) :: left', ?_, ?_⟩
      · have := @Halves.skip _ _ (text.withUnits (units.drop off)) _ _ _ h'
        rw [size_withUnits, List.length_drop] at this
        rwa [show text.nodeSize + k' + 0 - off = units.length - off + k' by omega]
      · rw [cutFrom_text hplain (by omega) (by omega) (.inl (by omega)) hkept, ← Nat.add_assoc, hsize,
          h'.cutFrom_left hnodes.2 (by omega)]
        rfl
  | @down n k child after left right hinner hchild =>
    have hle := hchild.sizes
    have hsize := hinner.nodeSize
    cases h' with
    | here => omega
    | text hplain => exact absurd hplain.units (by simp [hinner.noText])
    | @down _ k' _ _ _ _ _ hchild' =>
      exact .inl ⟨[], child, after, k, k', rfl, hinner, by simp [Fragment.size], by simp [Fragment.size], hle.1, hchild'.sizes.1⟩
    | @skip _ k' _ _ left' _ h' =>
      have hcut := hchild.cut_right hnodes.1.content
      have hkept : Fragment.cut child.content (p + (k + 1) - (p + 1))
          (min (Fragment.size child.content) (p + (child.nodeSize + k') - (p + 1))) = .ok right := by
        rw [show p + (k + 1) - (p + 1) = k by omega,
          show min (Fragment.size child.content) (p + (child.nodeSize + k') - (p + 1)) = Fragment.size child.content by omega]
        exact hcut
      refine .inr ⟨child.copy right :: left', ?_, ?_⟩
      · have hcopy := (hinner.copy right).nodeSize
        rw [Node.copy_content] at hcopy
        have := @Halves.skip _ _ (child.copy right) _ _ _ h'
        rwa [show child.nodeSize + k' + (n + 1) - (k + 1) = (child.copy right).nodeSize + k' by omega]
      · rw [cutFrom_inner hinner (by omega) (by omega) (.inl (by omega)) hkept, ← Nat.add_assoc p child.nodeSize,
          h'.cutFrom_left hnodes.2 (by omega)]
        rfl
  | @skip n k node rest left right h ih =>
    have hpos := hnodes.1.here.size_pos
    cases h' with
    | here => omega
    | text hplain =>
      have := hplain.nodeSize
      omega
    | @down _ k' _ _ _ _ hinner hchild' =>
      have := hchild'.sizes.1
      have := hinner.nodeSize
      omega
    | @skip _ k' _ _ left' _ h' =>
      rcases ih (p := p + node.nodeSize) h' (by omega) hnodes.2 with hsame | ⟨middle, hmiddle, hcut⟩
      · exact .inl (hsame.behind node)
      · refine .inr ⟨middle, ?_, ?_⟩
        · rwa [show node.nodeSize + k' + n - (node.nodeSize + k) = k' + n - k by omega]
        · rw [cutFrom_before (by omega) (by omega), ← Nat.add_assoc, ← Nat.add_assoc, hcut]

/-- A cut between two positions that are not in one child is what lies between them. -/
theorem Halves.cut_between {left' right' : List Node} (h : Halves n nodes lo left right) (h' : Halves m nodes hi left' right')
    (hlt : lo < hi) (hapart : ¬SameChild nodes lo hi) (hnodes : Everywhere (Firm S) nodes) :
    ∃ middle, Halves m right (hi + n - lo) middle right' ∧ Fragment.cut nodes lo hi = .ok middle := by
  obtain hsame | ⟨middle, hmiddle, hcut⟩ := @Halves.between _ _ _ _ _ _ _ _ 0 _ _ h h' hlt hnodes
  · exact absurd hsame hapart
  refine ⟨middle, hmiddle, ?_⟩
  rw [Nat.zero_add, Nat.zero_add] at hcut
  rw [Fragment.cut, cutWith, if_pos hlt]
  split_ifs with hall
  · obtain ⟨rfl, rfl⟩ := hall
    obtain ⟨rfl, rfl, rfl⟩ := h.zero (filled_of_firm hnodes)
    obtain ⟨rfl, rfl, rfl⟩ := hmiddle.all (filled_of_firm hnodes) (by omega)
    rfl
  · exact hcut

/-! ### One way to cut -/

/-- The nodes around a position begin before it and end behind it. -/
theorem Halves.deep (h : Halves n nodes k left right) : n ≤ k ∧ k + n ≤ Fragment.size nodes := by
  induction h with
  | here nodes => exact ⟨le_rfl, Nat.zero_le _⟩
  | text hplain _ hlt =>
    rw [size_cons, hplain.nodeSize]
    omega
  | down hinner _ ih =>
    rw [size_cons, hinner.nodeSize]
    omega
  | skip _ ih =>
    rw [size_cons]
    omega

/-- As deep in as a fragment is open to the left, its right half is all of it. -/
theorem Halves.open_left (h : Halves n nodes k left right) (hnodes : Everywhere (Firm S) nodes) (hk : k = n) :
    right = nodes := by
  induction h with
  | here => rfl
  | text _ hpos => omega
  | @down n k child after left right _ _ ih =>
    rw [ih hnodes.1.content (by omega)]
    cases child
    rfl
  | @skip n k node rest left right h _ =>
    have := hnodes.1.here.size_pos
    have := h.deep
    omega

/-- As far from its end as a fragment is open to the right, its left half is all of it. -/
theorem Halves.open_right (h : Halves n nodes k left right) (hnodes : Everywhere (Firm S) nodes)
    (hk : k + n = Fragment.size nodes) : left = nodes := by
  induction h with
  | here nodes => exact ((filled_of_firm hnodes).nil_of_size hk.symm).symm
  | text hplain _ hlt =>
    rw [size_cons, hplain.nodeSize] at hk
    omega
  | @down n k child after left right hinner hchild ih =>
    have := hchild.deep
    rw [size_cons, hinner.nodeSize] at hk
    obtain rfl := (filled_of_firm hnodes.2).nil_of_size (by omega)
    rw [ih hnodes.1.content (by simp [Fragment.size] at hk; omega)]
    cases child
    rfl
  | skip _ ih =>
    rw [size_cons] at hk
    rw [ih hnodes.2 (by omega)]

/-! ### The nodes of the halves -/

theorem Firm.copy (h : Firm S node) (hinner : node.Inner) (content : List Node) : Firm S (node.copy content) := by
  have htext : ¬node.isText = true := by simp [hinner.not_isText]
  exact ⟨⟨fun h => absurd h htext, h.shaped.inside, h.shaped.leaf⟩, h.holds, h.filled⟩

theorem Firm.withUnits (h : Firm S node) (hunits : node.units = some units) {part : List UInt16} (hpart : part ≠ []) :
    (node.withUnits part).Everywhere (Firm S) := by
  have hkind := (h.shaped.text (isText_of_units hunits)).1
  exact ⟨⟨(withUnits_built hkind part).here, ⟨fun _ => hkind, fun _ => rfl⟩, fun hnil => hpart (Option.some.inj hnil)⟩, trivial⟩

/-- The nodes in both halves are as the crate builds them. -/
theorem Halves.firm (h : Halves n nodes k left right) (hnodes : Everywhere (Firm S) nodes) :
    Everywhere (Firm S) left ∧ Everywhere (Firm S) right := by
  induction h with
  | here => exact ⟨trivial, hnodes⟩
  | @text text units after off hplain hpos hlt =>
    have hfront : units.take off ≠ [] := List.ne_nil_of_length_pos (by rw [List.length_take]; omega)
    have hback : units.drop off ≠ [] := List.ne_nil_of_length_pos (by rw [List.length_drop]; omega)
    exact ⟨⟨hnodes.1.here.withUnits hplain.units hfront, trivial⟩, hnodes.1.here.withUnits hplain.units hback, hnodes.2⟩
  | @down n k child after left right hinner _ ih =>
    obtain ⟨hleft, hright⟩ := ih hnodes.1.content
    have hcopy := hnodes.1.here.copy hinner
    exact ⟨⟨Node.everywhere_iff.mpr ⟨hcopy left, hleft⟩, trivial⟩, Node.everywhere_iff.mpr ⟨hcopy right, hright⟩, hnodes.2⟩
  | skip _ ih => exact ⟨⟨hnodes.1, (ih hnodes.2).1⟩, (ih hnodes.2).2⟩

/-- The first node of a left half stands for the fragment's first one. -/
theorem Halves.left_head (h : Halves n nodes k left right) : ∀ first ∈ left.head?, ∃ whole ∈ nodes.head?,
    ∀ node, Parted node whole → Parted node first := by
  cases h with
  | here => nofun
  | @text text units after off hplain _ _ =>
    intro first hfirst
    obtain rfl := Option.some.inj hfirst
    refine ⟨text, rfl, fun node hparted hjoins => hparted ⟨isText_of_units hplain.units, hjoins.2⟩⟩
  | @down _ _ child =>
    intro first hfirst
    obtain rfl := Option.some.inj hfirst
    exact ⟨child, rfl, fun node hparted => hparted⟩
  | @skip _ _ whole =>
    intro first hfirst
    obtain rfl := Option.some.inj hfirst
    exact ⟨whole, rfl, fun node hparted => hparted⟩

/-- No two neighbours join in the halves of a fragment when none do in it. -/
theorem Halves.joined (h : Halves n nodes k left right) (hjoined : Joined nodes) : Joined left ∧ Joined right := by
  induction h with
  | here => exact ⟨.nil, hjoined⟩
  | text =>
    obtain ⟨hfirst, hafter⟩ := List.isChain_cons.mp hjoined
    exact ⟨.singleton _, List.isChain_cons.mpr ⟨hfirst, hafter⟩⟩
  | down =>
    obtain ⟨hfirst, hafter⟩ := List.isChain_cons.mp hjoined
    exact ⟨.singleton _, List.isChain_cons.mpr ⟨hfirst, hafter⟩⟩
  | @skip _ _ node rest left right h ih =>
    obtain ⟨hfirst, hrest⟩ := List.isChain_cons.mp hjoined
    obtain ⟨hleft, hright⟩ := ih hrest
    refine ⟨List.isChain_cons.mpr ⟨fun first hmem => ?_, hleft⟩, hright⟩
    obtain ⟨whole, hwhole, hparts⟩ := h.left_head first hmem
    exact hparts node (hfirst whole hwhole)

/-- A node with an inside that no position is in is a node of the fragment. -/
theorem Halves.right_inner (h : Halves 0 nodes k left right) : ∀ node ∈ right, node.Inner → node ∈ nodes := by
  generalize hn : 0 = n at h
  induction h with
  | here => exact fun node hnode _ => hnode
  | text =>
    rintro node (_ | ⟨_, hnode⟩) hinner
    · exact absurd hinner.noText nofun
    · exact List.mem_cons_of_mem _ hnode
  | down => cases hn
  | skip _ ih => exact fun node hnode hinner => List.mem_cons_of_mem _ (ih hn node hnode hinner)

end Kodosi.Text
