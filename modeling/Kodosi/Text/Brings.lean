import Kodosi.Text.TopLevel

/-! The names that a step brings to the top level of a document, and the blocks that the range of a step touches. -/

namespace Kodosi.Text

open Lib Documents

variable {S : Schema} {ι : Type} {key : Node → Option ι} {r fro to_ : ResolvedPos} {doc node child out : Node}
  {nodes before after : List Node} {d s k i j lo hi pos : Nat} (hkey : Names S key)

include hkey

/-! ### What a slice of a document brings -/

omit hkey in
theorem names_none (h : key node = none) : names key [node] = [] := by simp [names, h]

theorem nodeCut_names {kept : Node} (hnode : node.Texts S) (h : node.cut lo hi = .ok kept) : names key [kept] = names key [node] := by
  cases node with
  | mk kind attrs content marks text leaf =>
    unfold Node.cut at h
    cases text with
    | some units =>
      have hkind : kind = S.textNode := hnode rfl
      have hnone : ∀ other : Node, other.kind = kind → names key [other] = [] := fun other hother =>
        names_none (hkey.text other (hother.trans hkind))
      dsimp only [cutUnits] at h
      split_ifs at h
      · obtain rfl := Except.ok.inj h
        rfl
      · obtain rfl := Except.ok.inj h
        exact (hnone _ rfl).trans (hnone _ rfl).symm
      · simp [failed] at h
    | none =>
      dsimp only at h
      split_ifs at h
      · obtain rfl := Except.ok.inj h
        rfl
      · obtain ⟨cut, -, h⟩ := bind_ok h
        obtain rfl := Except.ok.inj h
        exact names_copy hkey (.mk kind attrs content marks none leaf) cut

theorem cutFrom_names {p n : Nat} {out : List Node} (hnodes : Everywhere (Node.Texts S) nodes)
    (hhi : hi ≤ p + Fragment.size (nodes.take n)) (h : cutFrom nodes p lo hi = .ok out) :
    ∀ x ∈ names key out, x ∈ names key (nodes.take n) := by
  induction nodes generalizing p n out with
  | nil =>
    unfold cutFrom at h
    split_ifs at h
    · simp [failed] at h
    · obtain rfl := Except.ok.inj h
      exact fun x hx => absurd hx (List.not_mem_nil)
  | cons child rest ih =>
    unfold cutFrom at h
    by_cases hdone : hi ≤ p
    · rw [if_pos hdone] at h
      obtain rfl := Except.ok.inj h
      exact fun x hx => absurd hx (List.not_mem_nil)
    rw [if_neg hdone] at h
    obtain ⟨n, rfl⟩ : ∃ m, n = m + 1 := Nat.exists_eq_succ_of_ne_zero (by
      rintro rfl
      simp only [List.take_zero, Fragment.size] at hhi
      omega)
    rw [List.take_succ_cons, size_cons] at hhi
    rw [List.take_succ_cons]
    by_cases hlo : lo < p + child.nodeSize
    · rw [if_pos hlo] at h
      obtain ⟨kept, hkept, h⟩ := bind_ok h
      obtain ⟨tail, htail, h⟩ := bind_ok h
      obtain rfl := Except.ok.inj h
      have hname : names key [kept] = names key [child] := by
        split_ifs at hkept
        · split at hkept
          · exact nodeCut_names hkey hnodes.1.here hkept
          · exact nodeCut_names hkey hnodes.1.here hkept
        · obtain rfl := Except.ok.inj hkept
          rfl
      intro x hx
      rw [← List.singleton_append, names_append, hname, List.mem_append] at hx
      rw [← List.singleton_append, names_append, List.mem_append]
      exact hx.imp id (ih hnodes.2 (by omega) htail x)
    · rw [if_neg hlo] at h
      intro x hx
      rw [← List.singleton_append, names_append, List.mem_append]
      exact .inr (ih hnodes.2 (by omega) h x hx)

omit hkey in
theorem Stand.le_take (h : Stand r d node s k) (hi : r.index d = .ok i) : k ≤ Fragment.size (node.content.take (i + 1)) := by
  cases h with
  | @seam _ _ _ before after hlevel _ _ _ hcontent =>
    obtain rfl : before.length = i := Except.ok.inj ((index_of_level hlevel).symm.trans hi)
    rw [hcontent, List.take_append, Fragment.size_append, List.take_of_length_le (by omega)]
    omega
  | @inText _ _ _ before text after units off hlevel _ _ _ hcontent hunits _ hlt =>
    obtain rfl : before.length = i := Except.ok.inj ((index_of_level hlevel).symm.trans hi)
    have htake : (before ++ text :: after).take (before.length + 1) = before ++ [text] := by
      rw [List.append_cons, List.take_left' (by simp)]
    rw [hcontent, htake, Fragment.size_append, size_singleton, Node.nodeSize_text hunits]
    omega
  | @down _ _ _ before child after k hlevel _ hcontent hinner hle =>
    obtain rfl : before.length = i := Except.ok.inj ((index_of_level hlevel).symm.trans hi)
    have htake : (before ++ child :: after).take (before.length + 1) = before ++ [child] := by
      rw [List.append_cons, List.take_left' (by simp)]
    rw [hcontent, htake, Fragment.size_append, size_singleton, hinner.nodeSize]
    omega

/-- The children that a range touches. -/
def touching (i j : Nat) (nodes : List Node) : List Node := (nodes.drop i).take (j + 1 - i)

/-- A cut has names of the children that its range touches only. -/
theorem cut_names {lo' hi' s' : Nat} {out : Fragment} (hdoc : Everywhere (Node.Texts S) node.content)
    (hblocks : Filled node.content) (hf : Stand fro d node s lo') (ht : Stand to_ d node s' hi')
    (hi : fro.index d = .ok i) (hj : to_.index d = .ok j) (hij : i ≤ j)
    (h : Fragment.cut node.content lo' hi' = .ok out) :
    ∀ x ∈ names key out, x ∈ names key (touching i j node.content) := by
  by_cases hlt : lo' < hi'
  · have hfrom : cutFrom node.content 0 lo' hi' = .ok out := by
      rw [Fragment.cut, cutWith] at h
      split_ifs at h with hall
      · rw [hall.1, hall.2]
        have := @cutFrom_all node.content 0 0 hblocks le_rfl
        rw [Nat.zero_add] at this
        rwa [this]
      · exact h
    have hbefore := hf.take_le hi
    have hafter := ht.le_take hj
    have hsplit : node.content = node.content.take i ++ node.content.drop i := (List.take_append_drop i _).symm
    have htake : Fragment.size (node.content.take (j + 1)) =
        Fragment.size (node.content.take i) + Fragment.size (touching i j node.content) := by
      rw [touching, ← Fragment.size_append, ← List.take_add, show i + (j + 1 - i) = j + 1 by omega]
    rw [hsplit] at hfrom
    have hrest := cutFrom_skip (show 0 + Fragment.size (node.content.take i) ≤ lo' by omega) hlt hfrom
    refine cutFrom_names hkey (hdoc.sub fun _ hmem => List.mem_of_mem_drop hmem) ?_ hrest
    rw [touching] at htake
    omega
  · rw [Fragment.cut, cutWith] at h
    split_ifs at h with hall
    · obtain rfl := Except.ok.inj h
      have hsize : Fragment.size node.content = 0 := by omega
      rw [hblocks.nil_of_size hsize]
      exact fun x hx => absurd hx (List.not_mem_nil)
    · obtain rfl := Except.ok.inj h
      exact fun x hx => absurd hx (List.not_mem_nil)

variable {change : Node → Node → Node}

/-- Mapping the marks of nodes leaves their names. -/
theorem mapNodes_names (h : Remarks change) (parent : Node) :
    names key (mapNodes S change parent nodes) = names key nodes := by
  induction nodes with
  | nil => rfl
  | cons child rest ih =>
    obtain ⟨marks, hmapped⟩ := mapNode_remarked (S := S) h parent child
    have hname : key (mapNode S change parent child) = key child := by rw [hmapped, hkey.withMarks, hkey.copy]
    rw [mapNodes, ← List.singleton_append, names_append, ih, ← @List.singleton_append _ child, names_append]
    simp only [names, List.filterMap_cons, hname]

theorem mapFragment_names (h : Remarks change) (parent : Node) (hnodes : Everywhere (Node.Texts S) nodes) :
    names key (mapFragment S nodes change parent) = names key nodes := by
  have hmapped : Everywhere (Node.Texts S) (mapNodes S change parent nodes) := mapNodes_lasts texts_lasting h parent hnodes
  have heq := fromArray_eq (mapNodes S change parent nodes)
  rw [mapFragment, heq, ← names_keyed, keyed_addAll hkey hmapped, keyed_nil, List.nil_append, names_keyed,
    mapNodes_names hkey h]

/-! ### One node of a document -/

omit hkey

theorem size_take_lt (h : Filled nodes) (hij : i < j) (hj : j ≤ nodes.length) :
    Fragment.size (nodes.take i) < Fragment.size (nodes.take j) := by
  have hsplit : nodes.take j = nodes.take i ++ (nodes.take j).drop i := by
    have := List.take_append_drop i (nodes.take j)
    rwa [List.take_take, Nat.min_eq_left hij.le, eq_comm] at this
  rw [hsplit, Fragment.size_append]
  have hfilled : Filled ((nodes.take j).drop i) := fun node hnode => h node (List.mem_of_mem_take (List.mem_of_mem_drop hnode))
  have hne : Fragment.size ((nodes.take j).drop i) ≠ 0 := fun hzero => by
    have := congrArg List.length (hfilled.nil_of_size hzero)
    simp only [List.length_drop, List.length_take, List.length_nil] at this
    omega
  omega

theorem size_take_le (h : Filled nodes) (hij : i ≤ j) (hj : j ≤ nodes.length) :
    Fragment.size (nodes.take i) ≤ Fragment.size (nodes.take j) := by
  rcases hij.lt_or_eq with hlt | rfl
  · exact (size_take_lt h hlt hj).le
  · exact le_rfl

theorem take_child {content : List Node} (hcontent : content = before ++ child :: after) :
    content.take before.length = before ∧ content.take (before.length + 1) = before ++ [child] ∧
      before.length + 1 ≤ content.length := by
  subst hcontent
  refine ⟨List.take_left, ?_, by simp only [List.length_append, List.length_cons]; omega⟩
  rw [List.append_cons, List.take_left' (by simp)]

/-- A position is before the end of the child that it is at. -/
theorem Stand.lt_take (h : Stand r d node s k) (hi : r.index d = .ok i) (hfilled : Filled node.content)
    (hlt : i < node.content.length) : k < Fragment.size (node.content.take (i + 1)) := by
  cases h with
  | @seam _ _ _ before after hlevel _ _ _ hcontent =>
    obtain rfl : before.length = i := Except.ok.inj ((index_of_level hlevel).symm.trans hi)
    have := size_take_lt hfilled (Nat.lt_succ_self before.length) hlt
    rwa [show node.content.take before.length = before by rw [hcontent, List.take_left]] at this
  | @inText _ _ _ before text after units off hlevel _ _ _ hcontent hunits _ hltUnits =>
    obtain rfl : before.length = i := Except.ok.inj ((index_of_level hlevel).symm.trans hi)
    rw [(take_child hcontent).2.1, Fragment.size_append, size_singleton, Node.nodeSize_text hunits]
    omega
  | @down _ _ _ before child after k hlevel _ hcontent hinner hle =>
    obtain rfl : before.length = i := Except.ok.inj ((index_of_level hlevel).symm.trans hi)
    rw [(take_child hcontent).2.1, Fragment.size_append, size_singleton, hinner.nodeSize]
    omega

/-- A position that a path goes on from is strictly inside of the child there. -/
theorem Stand.inside_child (h : Stand r d node s k) (hdeep : d < r.depth) (hi : r.index d = .ok i) :
    Fragment.size (node.content.take i) < k ∧ k < Fragment.size (node.content.take (i + 1)) ∧ i + 1 ≤ node.content.length := by
  cases h with
  | seam _ hdepth => omega
  | inText _ hdepth => omega
  | @down _ _ _ before child after k hlevel _ hcontent hinner hle =>
    obtain rfl : before.length = i := Except.ok.inj ((index_of_level hlevel).symm.trans hi)
    obtain ⟨hat, hbehind, hlength⟩ := take_child hcontent
    rw [hat, hbehind, Fragment.size_append, size_singleton, hinner.nodeSize]
    omega

/-- A position at the start of a child or inside of it has the index of that child. -/
theorem Stand.index_of_inside (h : Stand r d node s k) (hfilled : Filled node.content) (hi : r.index d = .ok i)
    (hcontent : node.content = before ++ child :: after) (hlo : Fragment.size before ≤ k)
    (hhi : k < Fragment.size before + child.nodeSize) : i = before.length := by
  obtain ⟨hat, hbehind, hle⟩ := take_child hcontent
  have hsize := congrArg Fragment.size hbehind
  rw [Fragment.size_append, size_singleton] at hsize
  rcases Nat.lt_trichotomy i before.length with hlt | heq | hlt
  · have hupper := h.lt_take hi hfilled (by omega)
    have := size_take_le hfilled (show i + 1 ≤ before.length from hlt) (by omega)
    rw [hat] at this
    omega
  · exact heq
  · have hlower := h.take_le hi
    by_cases hlong : i ≤ node.content.length
    · have := size_take_le hfilled (show before.length + 1 ≤ i from hlt) hlong
      omega
    · have := size_take_le hfilled hle le_rfl
      rw [List.take_of_length_le (by omega)] at hlower
      rw [List.take_length] at this
      omega

/-- Behind a position inside of a child or at its end is what stands behind that child. -/
theorem Stand.behind_of_inside (h : Stand r 0 doc 0 k) (hblocks : Blocks doc.content) (hi : r.index 0 = .ok i)
    (hcontent : doc.content = before ++ child :: after) (hlo : Fragment.size before < k)
    (hhi : k ≤ Fragment.size before + child.nodeSize) : r.behind 0 i = before.length + 1 := by
  obtain ⟨hat, hbehind, hle⟩ := take_child hcontent
  have hsize := congrArg Fragment.size hbehind
  rw [Fragment.size_append, size_singleton] at hsize
  by_cases hdepth : r.depth = 0
  · rw [ResolvedPos.behind, if_pos hdepth]
    obtain ⟨hk, -⟩ := h.seam_of_blocks hblocks hdepth hi
    have hlength : i ≤ doc.content.length := by
      cases h with
      | seam hlevel _ _ _ hcontent =>
        obtain rfl := Except.ok.inj ((index_of_level hlevel).symm.trans hi)
        rw [hcontent, List.length_append]
        exact Nat.le_add_right _ _
      | inText hlevel _ _ _ hcontent =>
        obtain rfl := Except.ok.inj ((index_of_level hlevel).symm.trans hi)
        rw [hcontent, List.length_append]
        exact Nat.le_add_right _ _
      | down _ hlt => omega
    rcases Nat.lt_trichotomy i (before.length + 1) with hlt | heq | hlt
    · have := size_take_le hblocks.filled (show i ≤ before.length by omega) (by omega)
      rw [hat] at this
      omega
    · exact heq
    · have := size_take_lt hblocks.filled hlt hlength
      omega
  · rw [ResolvedPos.behind, if_neg hdepth]
    obtain ⟨hlower, hupper, hlength⟩ := h.inside_child (Nat.pos_of_ne_zero hdepth) hi
    rcases Nat.lt_trichotomy i before.length with hlt | heq | hlt
    · have := size_take_le hblocks.filled (show i + 1 ≤ before.length from hlt) (by omega)
      rw [hat] at this
      omega
    · rw [heq]
    · have := size_take_le hblocks.filled (show before.length + 1 ≤ i from hlt) (by omega)
      omega

/-- A node that stands at a position is a child of blocks when the position is between them, and has one around it else. -/
theorem nodeAt_child (hblocks : Blocks doc.content) (h : doc.nodeAt pos = .ok (some node)) :
    ∃ before child after, doc.content = before ++ child :: after ∧ Fragment.size before ≤ pos ∧
      pos < Fragment.size before + child.nodeSize ∧ (pos = Fragment.size before → node = child) := by
  unfold Node.nodeAt at h
  obtain ⟨⟨i, o⟩, hfind, h⟩ := bind_ok h
  have hfound := findIndex_found hfind
  dsimp only at h
  split at h
  · cases Except.ok.inj h
  next child hchild =>
    have htext : child.isText = false := hblocks child (List.mem_of_getElem? hchild)
    have hpos : 0 < child.nodeSize := hblocks.filled child (List.mem_of_getElem? hchild)
    cases hfound with
    | @seam before after hcontent hat =>
      rw [if_pos (.inl hat.symm)] at h
      obtain rfl := Option.some.inj (Except.ok.inj h)
      have hhead : after[0]? = some child := by
        have hget : (before ++ after)[before.length]? = some child := hcontent ▸ hchild
        rwa [List.getElem?_append_right le_rfl, Nat.sub_self] at hget
      cases after with
      | nil => simp at hhead
      | cons first rest =>
        obtain rfl := Option.some.inj hhead
        exact ⟨before, first, rest, hcontent, hat.ge, by omega, fun _ => rfl⟩
    | @inside before found after hcontent hlo hhi =>
      exact ⟨before, found, after, hcontent, hlo.le, hhi, fun hat => absurd hat hlo.ne'⟩

/-! ### The blocks outside of a range -/

variable [DecidableEq ι] {x : ι} {added : Slice} {step : Step}

/-- The nodes of one name. -/
def holding (key : Node → Option ι) (x : ι) (nodes : List Node) : List Node := nodes.filter fun node => key node = some x

theorem holding_keyed (nodes : List Node) : holding key x (keyed key nodes) = holding key x nodes := by
  rw [holding, keyed, List.filter_filter]
  refine List.filter_congr fun node _ => ?_
  cases key node <;> simp

@[simp] theorem holding_append : holding key x (nodes ++ before) = holding key x nodes ++ holding key x before :=
  List.filter_append ..

theorem holding_nil_iff : holding key x nodes = [] ↔ x ∉ names key nodes := by
  simp only [holding, List.filter_eq_nil_iff, names, List.mem_filterMap, not_exists, not_and, decide_eq_true_eq]

theorem Put.holding {named : List ι} (h : Put key before after nodes named) (hx : x ∉ named) :
    Text.holding key x nodes = Text.holding key x before ++ Text.holding key x after := by
  obtain ⟨mid, hmid, hsub⟩ := h
  have hnone : Text.holding key x mid = [] := holding_nil_iff.mpr fun hmem => hx (hsub.mem hmem)
  rw [← holding_keyed, hmid, holding_append, holding_append, hnone, holding_keyed, holding_keyed, List.append_nil]

/-- A document without the children that a range touches has all of a name that none of those has. -/
theorem holding_outside (hij : i ≤ j) (hx : x ∉ names key (touching i j nodes)) :
    holding key x nodes = holding key x (nodes.take i) ++ holding key x (nodes.drop (j + 1)) := by
  have hsplit : nodes = nodes.take i ++ touching i j nodes ++ nodes.drop (j + 1) := by
    have hrest : touching i j nodes ++ nodes.drop (j + 1) = nodes.drop i := by
      have := List.take_append_drop (j + 1 - i) (nodes.drop i)
      rwa [List.drop_drop, show i + (j + 1 - i) = j + 1 by omega] at this
    rw [List.append_assoc, hrest, List.take_append_drop]
  conv_lhs => rw [hsplit]
  rw [holding_append, holding_append, holding_nil_iff.mpr hx, List.append_nil]

/-- The child that is at the end of a range is one that the range touches. -/
theorem holding_behind (hij : i ≤ j) (hx : x ∉ names key (touching i j nodes)) (r : ResolvedPos) :
    holding key x (nodes.drop (r.behind 0 j)) = holding key x (nodes.drop (j + 1)) := by
  rw [ResolvedPos.behind]
  split
  · have hnone : holding key x ((nodes.drop j).take 1) = [] := by
      refine holding_nil_iff.mpr fun hmem => hx ?_
      have hsub : ((nodes.drop j).take 1).Sublist (touching i j nodes) := by
        have : (nodes.drop j).take 1 = (touching i j nodes).drop (j - i) := by
          rw [touching, List.drop_take, List.drop_drop, show i + (j - i) = j by omega, show j + 1 - i - (j - i) = 1 by omega]
        rw [this]
        exact List.drop_sublist _ _
      exact (hsub.filterMap key).mem hmem
    have hsplit : nodes.drop j = (nodes.drop j).take 1 ++ nodes.drop (j + 1) := by
      have := List.take_append_drop 1 (nodes.drop j)
      rwa [List.drop_drop, eq_comm] at this
    rw [hsplit, holding_append, hnone, List.nil_append]
  · rfl

theorem opened_touching (hij : i ≤ j) : (opened fro i nodes).Sublist (touching i j nodes) := by
  rw [opened]
  split
  · exact List.nil_sublist _
  · rw [touching, show (nodes.drop i).take 1 = ((nodes.drop i).take (j + 1 - i)).take 1 by
      rw [List.take_take, Nat.min_eq_left (by omega)]]
    exact List.take_sublist _ _

include hkey

/-- A name that no block of a range has, and that its slice does not bring, stays with its nodes. -/
theorem ranged_keeps (hdoc : Everywhere (Node.Texts S) doc.content) (hblocks : Blocks doc.content)
    (hadded : Everywhere (Node.Texts S) added.content) (h : doc.replace S lo hi added = .ok out)
    (hfro : doc.resolve lo = .ok fro) (hto : doc.resolve hi = .ok to_) (hi' : fro.index 0 = .ok i) (hj : to_.index 0 = .ok j)
    (hij : i ≤ j) (hx : x ∉ names key (touching i j doc.content)) (hbrings : x ∉ added.brings key fro) :
    holding key x out.content = holding key x doc.content := by
  obtain ⟨fro', to', i', j', hfro', hto', hindex, hindex', -, -, hput⟩ := replace_top hkey hdoc hblocks hadded h
  obtain rfl := Except.ok.inj (hfro.symm.trans hfro')
  obtain rfl := Except.ok.inj (hto.symm.trans hto')
  obtain rfl := Except.ok.inj (hi'.symm.trans hindex)
  obtain rfl := Except.ok.inj (hj.symm.trans hindex')
  have hnamed : x ∉ names key (opened fro i doc.content) ++ added.brings key fro := by
    rw [List.mem_append, not_or]
    exact ⟨fun hmem => hx (((opened_touching hij).filterMap key).mem hmem), hbrings⟩
  rw [hput.holding hnamed, holding_behind hij hx, ← holding_outside hij hx]

/-- The same where a node is put in the place of one node. -/
theorem placed_keeps {updated : Node} {openEnd : Nat} (hdoc : Everywhere (Node.Texts S) doc.content)
    (hblocks : Blocks doc.content) (hupdated : Everywhere (Node.Texts S) [updated])
    (hnode : doc.nodeAt pos = .ok (some node)) (h : doc.replace S pos (pos + 1) ⟨[updated], 0, openEnd⟩ = .ok out)
    (hfro : doc.resolve pos = .ok fro) (hi : fro.index 0 = .ok i) (hx : x ∉ names key (touching i i doc.content))
    (hbrings : fro.depth = 0 → doc.content[i]? = some node → x ∉ names key [updated]) :
    holding key x out.content = holding key x doc.content := by
  obtain ⟨fro', to', i', j, hfro', hto', hindex, hj, -, -, hput⟩ := replace_top hkey hdoc hblocks hupdated h
  obtain rfl := Except.ok.inj (hfro.symm.trans hfro')
  obtain rfl := Except.ok.inj (hi.symm.trans hindex)
  obtain ⟨before, child, after, hcontent, hlo, hhi, hat⟩ := nodeAt_child hblocks hnode
  have hf := resolve_stand hfro
  obtain rfl : i = before.length := hf.index_of_inside hblocks.filled hi hcontent hlo hhi
  have hbehind : to'.behind 0 j = before.length + 1 :=
    (resolve_stand hto').behind_of_inside hblocks hj hcontent (by omega) (by omega)
  rw [hbehind] at hput
  have hnamed : x ∉ names key (opened fro before.length doc.content) ++ Slice.brings key ⟨[updated], 0, openEnd⟩ fro := by
    rw [List.mem_append, not_or]
    refine ⟨fun hmem => hx (((opened_touching le_rfl).filterMap key).mem hmem), ?_⟩
    rw [Slice.brings]
    split
    next hdepth =>
      have hseam := (hf.seam_of_blocks hblocks hdepth.symm hi).1
      rw [(take_child hcontent).1] at hseam
      obtain rfl := hat hseam
      rw [Slice.brought, if_pos (.inl rfl)]
      exact hbrings hdepth.symm (by simp [hcontent])
    next => exact List.not_mem_nil
  rw [hput.holding hnamed, ← holding_outside le_rfl hx]

omit [DecidableEq ι] in
/-- A slice of a document whose marks are changed brings names of the blocks that it was taken from. -/
theorem remarked_brings {old : Slice} (hchange : Remarks change) (parent : Node)
    (hdoc : Everywhere (Node.Texts S) doc.content) (hblocks : Blocks doc.content) (hold : doc.slice lo hi = .ok old)
    (hfro : doc.resolve lo = .ok fro) (hto : doc.resolve hi = .ok to_) (hi' : fro.index 0 = .ok i)
    (hj : to_.index 0 = .ok j) (hij : i ≤ j)
    (hx : x ∈ Slice.brings key ⟨mapFragment S old.content change parent, old.openStart, old.openEnd⟩ fro) :
    x ∈ names key (touching i j doc.content) := by
  have htexts : Everywhere (Node.Texts S) old.content := texts_lasting.steady.slice hdoc hold
  rw [Slice.brings] at hx
  split at hx
  next hdepth =>
    have hmem : x ∈ names key old.content := by
      rw [← mapFragment_names hkey hchange parent htexts]
      rw [Slice.brought] at hx
      split at hx
      · exact hx
      · exact ((List.tail_sublist _).filterMap key).mem hx
    by_cases hne : lo = hi
    · unfold Node.slice at hold
      rw [if_pos hne] at hold
      obtain rfl := Except.ok.inj hold
      exact absurd hmem List.not_mem_nil
    · obtain ⟨start, stop, depth, node, s, k, l, hstart, hstop, -, -, hstand, hstand', hcut, hopen, -⟩ := slice_ok hold hne
      obtain rfl := Except.ok.inj (hfro.symm.trans hstart)
      obtain rfl := Except.ok.inj (hto.symm.trans hstop)
      have hle := hstand.le_depth
      dsimp only at hdepth
      obtain rfl : depth = 0 := by omega
      obtain rfl := Except.ok.inj ((resolve_stand hfro).node_eq.symm.trans hstand.node_eq)
      exact cut_names hkey hdoc hblocks.filled hstand hstand' hi' hj hij hcut x hmem
  next => exact absurd hx List.not_mem_nil

end Kodosi.Text
