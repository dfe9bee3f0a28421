import Kodosi.Text.Lasting
import Kodosi.Text.StaysValid

/-! What a replacement does at the top level of a document: the children before its range and those behind it stay, and the
    named ones between them come from the child where the range starts and from the slice. -/

namespace Kodosi.Text

open Lib

variable {S : Schema} {ι : Type} {key : Node → Option ι} {r fro start stop to_ : ResolvedPos} {doc node child out : Node}
  {nodes target content before after : List Node} {slice : Slice} {d s k i j lo hi : Nat}

/-! ### Named nodes -/

/-- A node with text is of the text type. -/
def Node.Texts (S : Schema) (node : Node) : Prop := node.isText = true → node.kind = S.textNode

theorem texts_lasting : Lasting (Node.Texts S) where
  copy _ h := h
  withMarks _ h := h
  withUnits _ h htext := fun _ => h htext
  joined _ _ htext hisText hsame := fun _ => (sameMarkup_iff.mp hsame).1.trans (htext hisText)

theorem texts_bare : ∀ node : Node, node.isText = false → node.Texts S := fun _ hbare htext =>
  absurd (hbare.symm.trans htext) Bool.false_ne_true

mutual

theorem Node.texts_of_built {node : Node} (h : node.Built S) : node.Everywhere (Node.Texts S) := by
  cases node with
  | mk kind attrs content marks text leaf => exact ⟨fun htext => (h.1.text htext).1, texts_of_built h.2⟩

theorem texts_of_built {nodes : List Node} (h : Built S nodes) : Everywhere (Node.Texts S) nodes := by
  cases nodes with
  | nil => trivial
  | cons node rest => exact ⟨Node.texts_of_built h.1, texts_of_built h.2⟩

end

/-- A name that a node has whatever is in it, and that text does not have. -/
structure Names (S : Schema) (key : Node → Option ι) : Prop where
  copy : ∀ (node : Node) (content : Fragment), key (node.copy content) = key node
  withMarks : ∀ (node : Node) (marks : List Mark), key (node.withMarks marks) = key node
  text : ∀ node : Node, node.kind = S.textNode → key node = none

/-- The nodes that have a name. -/
def keyed (key : Node → Option ι) (nodes : List Node) : List Node := nodes.filter fun node => (key node).isSome

@[simp] theorem keyed_nil : keyed key [] = [] := rfl

@[simp] theorem keyed_append : keyed key (nodes ++ target) = keyed key nodes ++ keyed key target := List.filter_append ..

theorem keyed_cons (node : Node) (nodes : List Node) : keyed key (node :: nodes) = keyed key [node] ++ keyed key nodes :=
  (congrArg (keyed key) List.singleton_append.symm).trans keyed_append

theorem keyed_none (h : key node = none) : keyed key [node] = [] := by simp [keyed, h]

variable (hkey : Names S key)

include hkey

theorem keyed_isText (h : node.Texts S) (htext : node.isText = true) : keyed key [node] = [] :=
  keyed_none (hkey.text node (h htext))

theorem keyed_addNode (hnode : node.Texts S) : keyed key (addNode node target) = keyed key target ++ keyed key [node] := by
  rcases List.eq_nil_or_concat target with rfl | ⟨init, last, rfl⟩
  · rfl
  · rw [List.concat_eq_append, addNode_last]
    split
    next h =>
      obtain ⟨htext, hsame⟩ := Bool.and_eq_true_iff.mp h
      have hkind := hnode htext
      have hlast : last.kind = S.textNode := (sameMarkup_iff.mp hsame).1.symm.trans hkind
      have hjoined : key (last.joinedText node) = none := hkey.text _ hlast
      rw [keyed_append, keyed_append, keyed_none hjoined, keyed_none (hkey.text _ hlast), keyed_none (hkey.text _ hkind)]
      simp
    next => rw [keyed_append]

theorem keyed_addAll (hnodes : Everywhere (Node.Texts S) nodes) :
    keyed key (addAll target nodes) = keyed key target ++ keyed key nodes := by
  induction nodes generalizing target with
  | nil => simp
  | cons node rest ih =>
    rw [addAll_cons, ih hnodes.2, keyed_addNode hkey hnodes.1.here, keyed_cons node rest, List.append_assoc]

omit hkey in
/-- A node without a size is a text. -/
theorem isText_of_size (h : node.nodeSize = 0) : node.isText = true := by
  cases node with
  | mk kind attrs content marks text leaf =>
    cases text with
    | some units => rfl
    | none =>
      simp only [Node.nodeSize] at h
      split at h <;> omega

theorem keyed_of_size (hnodes : Everywhere (Node.Texts S) nodes) (h : Fragment.size nodes = 0) : keyed key nodes = [] := by
  induction nodes with
  | nil => rfl
  | cons node rest ih =>
    rw [size_cons] at h
    rw [keyed_cons, keyed_isText hkey hnodes.1.here (isText_of_size (by omega)), ih hnodes.2 (by omega)]
    rfl

theorem keyed_fragment {other : Fragment} (hcontent : Everywhere (Node.Texts S) content)
    (hother : Everywhere (Node.Texts S) other) :
    keyed key (Fragment.append content other) = keyed key content ++ keyed key other := by
  unfold Fragment.append
  split_ifs with hsize hsize'
  · rw [keyed_of_size hkey hother hsize, List.append_nil]
  · rw [keyed_of_size hkey hcontent hsize', List.nil_append]
  · rcases List.eq_nil_or_concat content with rfl | ⟨init, last, rfl⟩
    · exact keyed_append
    · cases other with
      | nil => exact absurd rfl hsize
      | cons first rest =>
        rw [List.concat_eq_append] at hcontent ⊢
        obtain ⟨-, hlast, -⟩ := everywhere_append.mp hcontent
        simp only [List.getLast?_concat, List.dropLast_concat]
        split
        next h =>
          obtain ⟨htext, hsame⟩ := Bool.and_eq_true_iff.mp h
          have hkind := hlast.here htext
          have hjoined : key (last.joinedText first) = none := hkey.text _ hkind
          have hfirst := hkey.text first ((sameMarkup_iff.mp hsame).1.symm.trans hkind)
          rw [keyed_append, keyed_append, keyed_cons, keyed_none hjoined, keyed_none (hkey.text _ hkind), keyed_cons,
            keyed_none hfirst]
          simp
        next => exact keyed_append

/-! ### The edges of a range -/

/-- The first child that is wholly behind a position, on a level. -/
def ResolvedPos.behind (r : ResolvedPos) (d i : Nat) : Nat := if r.depth = d then i else i + 1

/-- What a position takes and leaves at its own level, as far as names go. -/
structure Edge (key : Node → Option ι) (r : ResolvedPos) (d : Nat) (node : Node) (i : Nat) : Prop where
  index : r.index d = .ok i
  here : r.node d = .ok node
  le : i ≤ node.content.length
  start : ∀ {target begun : List Node} {first : Nat}, rangeStart (some r) d target = .ok (first, begun) →
    keyed key begun = keyed key target ∧ first ≤ node.content.length ∧ r.behind d i ≤ first ∧
      keyed key (node.content.drop first) = keyed key (node.content.drop (r.behind d i))
  stop : ∀ {target out : List Node}, rangeEnd (some r) d target = .ok out → keyed key out = keyed key target

theorem Stand.edge (h : Stand r d node s k) (hnode : Everywhere (Node.Texts S) node.content) : ∃ i, Edge key r d node i := by
  cases h with
  | @seam _ _ _ before after hlevel hdepth hpos hparent hcontent =>
    have hoffset : r.textOffset = .ok 0 := textOffset_of_level hlevel hdepth hpos
    have hle : before.length ≤ node.content.length := by rw [hcontent, List.length_append]; omega
    refine ⟨before.length, index_of_level hlevel, node_of_level hlevel, hle, fun hfirst => ?_, fun hend => ?_⟩
    · rw [rangeStart, ok_bind (index_of_level hlevel), if_neg (by omega), ok_bind hoffset, if_neg (by simp)] at hfirst
      obtain ⟨rfl, rfl⟩ := Prod.mk.inj (Except.ok.inj hfirst)
      have hbehind : r.behind d before.length = before.length := if_pos hdepth
      exact ⟨rfl, hle, hbehind.le, by rw [hbehind]⟩
    · rw [rangeEnd, if_pos hdepth, ok_bind hoffset, if_neg (by simp)] at hend
      obtain rfl := Except.ok.inj hend
      rfl
  | @inText _ _ _ before text after units off hlevel hdepth hpos hparent hcontent hunits hoff hlt =>
    have hpos' : r.pos = s + Fragment.size before + off := by omega
    have hoffset : r.textOffset = .ok off := textOffset_of_level hlevel hdepth hpos'
    have hchild : node.content[before.length]? = some text := by simp [hcontent]
    have hle : before.length + 1 ≤ node.content.length := by rw [hcontent, List.length_append, List.length_cons]; omega
    have hkind : text.kind = S.textNode := (hnode.child hcontent).here (by simp [Node.isText, hunits])
    have hpiece : ∀ (target : List Node) (units : List UInt16),
        keyed key (addNode (text.withUnits units) target) = keyed key target := by
      intro target units
      have hnone : key (text.withUnits units) = none := hkey.text _ hkind
      have htexts : (text.withUnits units).Texts S := fun _ => hkind
      rw [keyed_addNode hkey htexts, keyed_none hnone, List.append_nil]
    refine ⟨before.length, index_of_level hlevel, node_of_level hlevel, by omega, fun hfirst => ?_, fun hend => ?_⟩
    · rw [rangeStart, ok_bind (index_of_level hlevel), if_neg (by omega), ok_bind hoffset, if_pos hoff.ne',
        ok_bind (nodeAfter_of_level hlevel hdepth hpos' hchild hunits hoff hlt)] at hfirst
      obtain ⟨rfl, rfl⟩ := Prod.mk.inj (Except.ok.inj hfirst)
      have hbehind : r.behind d before.length = before.length := if_pos hdepth
      refine ⟨hpiece _ _, hle, hbehind.le.trans (Nat.le_succ _), ?_⟩
      rw [hbehind, drop_after_child hcontent, hcontent, List.drop_left, keyed_cons, keyed_none (hkey.text _ hkind)]
      rfl
    · rw [rangeEnd, if_pos hdepth, ok_bind hoffset, if_pos hoff.ne',
        ok_bind (nodeBefore_of_level hlevel hdepth hpos' hchild hunits hoff hlt)] at hend
      obtain rfl := Except.ok.inj hend
      exact hpiece _ _
  | @down _ _ _ before child after k hlevel hdepth hcontent hinner hle hstand =>
    have hlength : before.length + 1 ≤ node.content.length := by rw [hcontent, List.length_append, List.length_cons]; omega
    refine ⟨before.length, index_of_level hlevel, node_of_level hlevel, by omega, fun hfirst => ?_, fun hend => ?_⟩
    · rw [rangeStart, ok_bind (index_of_level hlevel), if_pos hdepth] at hfirst
      obtain ⟨rfl, rfl⟩ := Prod.mk.inj (Except.ok.inj hfirst)
      have hbehind : r.behind d before.length = before.length + 1 := if_neg hdepth.ne'
      exact ⟨rfl, hlength, hbehind.le, by rw [hbehind]⟩
    · rw [rangeEnd, if_neg hdepth.ne'] at hend
      obtain rfl := Except.ok.inj hend
      rfl

theorem Edge.front (h : Edge key r d node i) (hnode : Everywhere (Node.Texts S) node.content)
    (hout : addRange none (some r) d target = .ok content) :
    keyed key content = keyed key target ++ keyed key (node.content.take i) := by
  obtain ⟨last, first, begun, mid, hlast, hfirst, hmid, hout⟩ := addRange_ok rfl h.here hout
  obtain rfl := Except.ok.inj (h.index.symm.trans hlast)
  obtain ⟨rfl, rfl⟩ := Prod.mk.inj (Except.ok.inj hfirst)
  have hle := h.le
  rw [addChildren_ok (by omega)] at hmid
  obtain rfl := Except.ok.inj hmid
  have htaken : Everywhere (Node.Texts S) (node.content.take i) := hnode.sub fun _ hmem => List.mem_of_mem_take hmem
  rw [h.stop hout, Nat.sub_zero, List.drop_zero, keyed_addAll hkey htaken]

/-- The children from a position on, as far as a range takes them. -/
theorem Edge.upto {last first : Nat} {begun mid : List Node} (h : Edge key r d node i)
    (hnode : Everywhere (Node.Texts S) node.content) (hlast : last ≤ node.content.length)
    (hfirst : rangeStart (some r) d target = .ok (first, begun))
    (hmid : (List.range' first (last - first)).foldlM (fun target i => do
        let child ← node.child i
        pure (addNode child target)) begun = .ok mid) :
    keyed key mid = keyed key target ++ keyed key ((node.content.drop first).take (last - first)) := by
  obtain ⟨hbegun, hle, -, -⟩ := h.start hfirst
  rw [addChildren_ok (by omega)] at hmid
  obtain rfl := Except.ok.inj hmid
  have htaken : Everywhere (Node.Texts S) ((node.content.drop first).take (last - first)) :=
    hnode.sub fun _ hmem => List.mem_of_mem_drop (List.mem_of_mem_take hmem)
  rw [keyed_addAll hkey htaken, hbegun]

theorem Edge.back (h : Edge key r d node i) (hnode : Everywhere (Node.Texts S) node.content)
    (hout : addRange (some r) none d target = .ok content) :
    keyed key content = keyed key target ++ keyed key (node.content.drop (r.behind d i)) := by
  obtain ⟨last, first, begun, mid, hlast, hfirst, hmid, hout⟩ := addRange_ok rfl h.here hout
  obtain rfl : node.content.length = last := Except.ok.inj hlast
  obtain rfl : mid = content := Except.ok.inj hout
  obtain ⟨-, -, -, hdrop⟩ := h.start hfirst
  rw [h.upto hkey hnode le_rfl hfirst hmid, List.take_of_length_le (by rw [List.length_drop]), hdrop]

/-- Between two edges of one node, a range takes children that are behind the first one and before the second one. -/
theorem Edge.between {j : Nat} (hs : Edge key start d node i) (he : Edge key stop d node j)
    (hnode : Everywhere (Node.Texts S) node.content) (hout : addRange (some start) (some stop) d target = .ok content) :
    ∃ first, start.behind d i ≤ first ∧
      keyed key content = keyed key target ++ keyed key ((node.content.drop first).take (j - first)) := by
  obtain ⟨last, first, begun, mid, hlast, hfirst, hmid, hout⟩ := addRange_ok rfl he.here hout
  obtain rfl := Except.ok.inj (he.index.symm.trans hlast)
  obtain ⟨-, -, hle, -⟩ := hs.start hfirst
  exact ⟨first, hle, by rw [he.stop hout, hs.upto hkey hnode he.le hfirst hmid]⟩

/-! ### Replacing at the top level -/

omit hkey

/-- The names of nodes. -/
def names (key : Node → Option ι) (nodes : List Node) : List ι := nodes.filterMap key

@[simp] theorem names_append : names key (nodes ++ target) = names key nodes ++ names key target := List.filterMap_append ..

theorem names_keyed (nodes : List Node) : names key (keyed key nodes) = names key nodes := by
  rw [names, keyed, List.filterMap_filter]
  refine List.filterMap_congr fun node _ => ?_
  cases key node <;> rfl

/-- The child that a range starts in, when it starts inside one. -/
def opened (fro : ResolvedPos) (i : Nat) (content : List Node) : List Node :=
  if fro.depth = 0 then [] else (content.drop i).take 1

/-- The top-level nodes of a slice that come in as they are: without the first one when it is open to the left, unless its
    open sides overlap. -/
def Slice.brought (slice : Slice) : Fragment :=
  if slice.openStart = 0 ∨ Fragment.size slice.content < slice.openStart + slice.openEnd then slice.content
  else slice.content.tail

/-- The names that a slice brings to the top level where it goes in. -/
def Slice.brings (key : Node → Option ι) (slice : Slice) (fro : ResolvedPos) : List ι :=
  if slice.openStart = fro.depth then names key slice.brought else []

/-- The child that a path goes on in. -/
theorem Stand.child_at (h : Stand r d node s k) (hlt : d < r.depth) (hi : r.index d = .ok i) :
    ∃ child, r.node (d + 1) = .ok child ∧ node.content[i]? = some child ∧ child.Inner := by
  cases h with
  | seam _ hdepth => omega
  | inText _ hdepth => omega
  | @down _ _ _ before child after k hlevel hdepth hcontent hinner hle hstand =>
    obtain rfl : before.length = i := Except.ok.inj ((index_of_level hlevel).symm.trans hi)
    exact ⟨child, hstand.node_eq, by simp [hcontent], hinner⟩

theorem opened_eq (hlt : 0 < fro.depth) (hchild : nodes[i]? = some child) : opened fro i nodes = [child] := by
  obtain ⟨hi, hget⟩ := List.getElem?_eq_some_iff.mp hchild
  rw [opened, if_neg hlt.ne', List.drop_eq_getElem_cons hi, hget, List.take_succ_cons, List.take_zero]

/-- What is put in between two parts of a document, as far as names go. -/
structure Put (key : Node → Option ι) (before after out : List Node) (named : List ι) : Prop where
  intro ::
  put : ∃ mid, keyed key out = keyed key before ++ mid ++ keyed key after ∧ (names key mid).Sublist named

include hkey

theorem names_copy (node : Node) (content : Fragment) : names key [node.copy content] = names key [node] := by
  simp only [names, List.filterMap_cons, List.filterMap_nil, hkey.copy]

/-- A child of a path that is closed again stands in the place of that child. -/
theorem closed_child {inner : Fragment} {closed : Node} (hr : Stand r 0 node 0 k) (hi : Edge key r 0 node i)
    (hchild : r.node 1 = .ok child) (hclosed : close S child inner = .ok closed) :
    (∀ target, keyed key (addNode closed target) = keyed key target ++ keyed key [closed]) ∧
      names key [closed] = names key [child] ∧ node.content[i]? = some child ∧ 0 < r.depth := by
  have hlt : 0 < r.depth := node_depth_le hchild
  obtain ⟨rfl, -⟩ := close_ok hclosed
  obtain ⟨found, hfound, hget, hinner⟩ := hr.child_at hlt hi.index
  obtain rfl := Except.ok.inj (hfound.symm.trans hchild)
  have htexts : (found.copy inner).Texts S := texts_bare _ (hinner.copy inner).not_isText
  exact ⟨fun target => keyed_addNode hkey htexts, names_copy hkey found inner, hget, hlt⟩

theorem twoWay_top {kf : Nat} {content : Fragment} (hf : Stand fro 0 doc 0 kf) (hdoc : Everywhere (Node.Texts S) doc.content)
    (hi : Edge key fro 0 doc i) (hj : Edge key to_ 0 doc j) (h : replaceTwoWay S fro to_ 0 = .ok content) :
    Put key (doc.content.take i) (doc.content.drop (to_.behind 0 j)) content (names key (opened fro i doc.content)) := by
  unfold replaceTwoWay at h
  obtain ⟨begun, hbegun, h⟩ := bind_ok h
  have hbegun := hi.front hkey hdoc hbegun
  rw [keyed_nil, List.nil_append] at hbegun
  by_cases hlt : 0 < fro.depth
  · rw [dif_pos hlt] at h
    obtain ⟨kind, hkind, h⟩ := bind_ok h
    obtain ⟨inner, hinner, h⟩ := bind_ok h
    obtain ⟨closed, hclosed, h⟩ := bind_ok h
    obtain ⟨hadd, hnames, hget, -⟩ := closed_child hkey hf hi (joinable_ok hkind).1 hclosed
    refine ⟨keyed key [closed], ?_, ?_⟩
    · rw [hj.back hkey hdoc h, hadd, hbegun]
    · rw [names_keyed, hnames, opened_eq hlt hget]
  · rw [dif_neg hlt] at h
    refine ⟨[], ?_, List.nil_sublist _⟩
    rw [hj.back hkey hdoc h, hbegun, List.append_nil]

omit hkey in
/-- Children from one on, and the one at the end. -/
theorem sublist_between {first last : Nat} {rest : List Node} (hrest : rest = [] ∨ ∃ child, nodes[last]? = some child ∧ rest = [child]) :
    ((nodes.drop first).take (last - first) ++ rest).Sublist nodes := by
  rcases hrest with rfl | ⟨child, hchild, rfl⟩
  · rw [List.append_nil]
    exact (List.take_sublist _ _).trans (List.drop_sublist _ _)
  · obtain ⟨hlt, hget⟩ := List.getElem?_eq_some_iff.mp hchild
    by_cases hle : first ≤ last
    · have : (nodes.drop first).take (last - first) ++ [child] = (nodes.drop first).take (last - first + 1) := by
        rw [List.take_add_one, List.getElem?_drop, show first + (last - first) = last by omega, hchild]
        rfl
      rw [this]
      exact (List.take_sublist _ _).trans (List.drop_sublist _ _)
    · rw [show last - first = 0 by omega, List.take_zero, List.nil_append, List.singleton_sublist, ← hget]
      exact List.getElem_mem hlt

omit hkey in
theorem Stand.path {P : Node → Prop} (h : Stand r 0 doc 0 k) (hdoc : Everywhere P doc.content) : PathOf P r :=
  ⟨fun he => h.everywhere hdoc (Nat.zero_le _) he, fun he => h.lasts_below hdoc (Nat.succ_pos _) he⟩

/-- A level where the two sides of a slice are in different children. -/
theorem apart_top {kf s' : Nat} {outer : Node} {openStart openEnd : Option Node} {j' i' : Nat} {content next : List Node}
    (hf : Stand fro 0 doc 0 kf) (hi : Edge key fro 0 doc i) (hstop : Stand stop 0 outer 0 s')
    (houter : Everywhere (Node.Texts S) outer.content) (hi' : Edge key start 0 outer i') (hj' : Edge key stop 0 outer j')
    (hfirst : ∀ first ∈ openStart, fro.node 1 = .ok first) (hlast : ∀ last ∈ openEnd, stop.node 1 = .ok last)
    (h : replaceApart S fro start stop to_ 0 openStart openEnd content = .ok next) :
    ∃ mid rest first, keyed key next = keyed key content ++ mid ∧ start.behind 0 i' ≤ first ∧
      (rest = [] ∨ ∃ child, outer.content[j']? = some child ∧ rest = [child] ∧ openEnd.isSome = true) ∧
      (names key mid).Sublist (names key (opened fro i doc.content) ++
        names key ((outer.content.drop first).take (j' - first) ++ rest)) := by
  obtain ⟨begun, hbegun, h⟩ := bind_ok h
  obtain ⟨between, hbetween, h⟩ := bind_ok h
  obtain ⟨first, hle, hbetween⟩ := hi'.between hkey hj' houter hbetween
  have hstart : ∃ mid, keyed key begun = keyed key content ++ mid ∧
      (names key mid).Sublist (names key (opened fro i doc.content)) := by
    cases openStart with
    | none =>
      obtain rfl := Except.ok.inj hbegun
      exact ⟨[], (List.append_nil _).symm, List.nil_sublist _⟩
    | some node =>
      obtain ⟨inner, -, hbegun⟩ := bind_ok hbegun
      obtain ⟨closed, hclosed, hbegun⟩ := bind_ok hbegun
      obtain rfl := Except.ok.inj hbegun
      obtain ⟨hadd, hnames, hget, hlt⟩ := closed_child hkey hf hi (hfirst node rfl) hclosed
      exact ⟨keyed key [closed], hadd content, by rw [names_keyed, hnames, opened_eq hlt hget]⟩
  obtain ⟨mid, hmid, hsub⟩ := hstart
  rw [hmid] at hbetween
  cases openEnd with
  | none =>
    obtain rfl := Except.ok.inj h
    refine ⟨mid ++ keyed key ((outer.content.drop first).take (j' - first)), [], first, ?_, hle, .inl rfl, ?_⟩
    · rw [hbetween, List.append_assoc]
    · rw [names_append, names_keyed, List.append_nil]
      exact hsub.append (List.Sublist.refl _)
  | some node =>
    obtain ⟨inner, -, h⟩ := bind_ok h
    obtain ⟨closed, hclosed, h⟩ := bind_ok h
    obtain rfl := Except.ok.inj h
    obtain ⟨hadd, hnames, hget, -⟩ := closed_child hkey hstop hj' (hlast node rfl) hclosed
    refine ⟨mid ++ keyed key ((outer.content.drop first).take (j' - first)) ++ keyed key [closed], [node], first, ?_, hle,
      .inr ⟨node, hget, rfl, rfl⟩, ?_⟩
    · rw [hadd, hbetween]
      simp only [List.append_assoc]
    · rw [names_append, names_append, names_keyed, names_keyed, hnames, names_append, List.append_assoc]
      exact hsub.append (List.Sublist.refl _)

omit hkey in
/-- A position inside a later child is behind one inside the first child. -/
theorem later_child {k' s' : Nat} (h : Stand r 0 node 0 k) (hdeep : 0 < r.depth) (hi : r.index 0 = .ok i) (hpos : 0 < i)
    (h' : Stand to_ 0 node s' k') (hdeep' : 0 < to_.depth) (hj : to_.index 0 = .ok 0) : k' < k := by
  cases h with
  | seam _ hdepth => omega
  | inText _ hdepth => omega
  | @down _ _ _ before child after k hlevel _ hcontent =>
    cases h' with
    | seam _ hdepth => omega
    | inText _ hdepth => omega
    | @down _ _ _ before' child' after' k' hlevel' _ hcontent' hinner' hle' =>
      obtain rfl : before.length = i := Except.ok.inj ((index_of_level hlevel).symm.trans hi)
      have hnil : before' = [] := List.eq_nil_of_length_eq_zero (Except.ok.inj ((index_of_level hlevel').symm.trans hj))
      subst hnil
      cases before with
      | nil => simp at hpos
      | cons first before =>
        obtain ⟨rfl, -⟩ : first = child' ∧ _ := List.cons.inj (hcontent.symm.trans hcontent')
        rw [size_cons, hinner'.nodeSize, Fragment.size]
        omega

omit hkey in
/-- The nodes of a slice between its two edges, with the one that is open to the right, are those that it brings. -/
theorem between_brings {extra first i' j' : Nat} {outer : Node} {rest : List Node} {Q : NodeId → Prop}
    (hsum : slice.openStart + extra = fro.depth) (hshelled : Shelled Q slice.content extra outer)
    (hstart : Stand start 0 outer 0 fro.depth)
    (hsmall : slice.openEnd + extra ≤ Fragment.size outer.content)
    (hstop : Stand stop 0 outer 0 (Fragment.size outer.content - (slice.openEnd + extra)))
    (hi' : Edge key start 0 outer i') (hj' : Edge key stop 0 outer j') (hle : start.behind 0 i' ≤ first)
    (hdeep : 0 < fro.depth → 0 < start.depth)
    (hrest : rest = [] ∨ ∃ child, outer.content[j']? = some child ∧ rest = [child] ∧ 0 < stop.depth ∧ (0 < fro.depth → i' ≠ j')) :
    (names key ((outer.content.drop first).take (j' - first) ++ rest)).Sublist (slice.brings key fro) := by
  have hbehind : 0 < fro.depth → i' < first := fun hlt => by
    have : start.behind 0 i' = i' + 1 := if_neg (hdeep hlt).ne'
    omega
  have hplain : rest = [] ∨ ∃ child, outer.content[j']? = some child ∧ rest = [child] :=
    hrest.imp id fun ⟨child, hchild, hrest, _⟩ => ⟨child, hchild, hrest⟩
  cases hshelled with
  | core hcontent =>
    have hopen : slice.openStart = fro.depth := by omega
    rw [Slice.brings, if_pos hopen, Slice.brought]
    split
    next h => exact hcontent ▸ (sublist_between hplain).filterMap key
    next h =>
      obtain ⟨hpos, hsize⟩ : 0 < slice.openStart ∧ slice.openStart + slice.openEnd ≤ Fragment.size slice.content := by
        rw [not_or] at h
        omega
      rw [← hcontent] at hsize ⊢
      have hi := hbehind (by omega)
      obtain ⟨first, rfl⟩ : ∃ n, first = n + 1 := Nat.exists_eq_succ_of_ne_zero (by omega)
      cases hnodes : outer.content with
      | nil => rcases hrest with rfl | ⟨child, hchild, -⟩ <;> simp_all
      | cons node nodes =>
        rw [List.drop_succ_cons, List.tail_cons]
        rcases hrest with rfl | ⟨child, hchild, rfl, hstopDeep, hne⟩
        · have : j' - (first + 1) = (j' - 1) - first := by omega
          rw [this]
          exact (sublist_between (.inl rfl)).filterMap key
        · have hj : j' ≠ 0 := by
            rintro rfl
            have := later_child hstart (hdeep (by omega)) hi'.index (Nat.pos_of_ne_zero (hne (by omega))) hstop hstopDeep
              hj'.index
            omega
          obtain ⟨j', rfl⟩ := Nat.exists_eq_succ_of_ne_zero hj
          rw [hnodes, List.getElem?_cons_succ] at hchild
          rw [Nat.succ_sub_succ]
          exact (sublist_between (.inr ⟨child, hchild, rfl⟩)).filterMap key
  | @shell n _ inner hcontent =>
    have hi := hbehind (by omega)
    have hdrop : outer.content.drop first = [] := by
      rw [hcontent]
      exact List.drop_eq_nil_of_le (by simp only [List.length_singleton]; omega)
    rw [hdrop, List.take_nil, List.nil_append]
    rcases hrest with rfl | ⟨child, hchild, rfl, -, hne⟩
    · exact List.nil_sublist _
    · rw [hcontent] at hchild
      have hj : j' < 1 := (List.getElem?_eq_some_iff.mp hchild).1
      obtain ⟨found, -, hget, -⟩ := hstart.child_at (hdeep (by omega)) hi'.index
      rw [hcontent] at hget
      have hi : i' < 1 := (List.getElem?_eq_some_iff.mp hget).1
      exact absurd (by omega) (hne (by omega))

theorem threeWay_top {kf : Nat} {content : Fragment} (hf : Stand fro 0 doc 0 kf) (hdoc : Everywhere (Node.Texts S) doc.content)
    (hslice : Everywhere (Node.Texts S) slice.content) (hi : Edge key fro 0 doc i) (hj : Edge key to_ 0 doc j)
    (hprepare : prepareSlice slice fro = .ok (start, stop)) (h : replaceThreeWay S fro start stop to_ 0 = .ok content) :
    Put key (doc.content.take i) (doc.content.drop (to_.behind 0 j)) content
      (names key (opened fro i doc.content) ++ slice.brings key fro) := by
  have hpaths := prepareSlice_lasts texts_lasting (hf.path hdoc) hslice hprepare
  obtain ⟨extra, outer, hsum, hshelled, hstart, hsmall, hstop⟩ :=
    @prepareSlice_ok slice (fun _ => True) fro start stop (fun hj hnode => ⟨(hf.lower hj hnode).1, trivial⟩) hprepare
  have houter : Everywhere (Node.Texts S) outer.content := hpaths.1.content hstart.node_eq
  obtain ⟨i', hi'⟩ := hstart.edge hkey houter
  obtain ⟨j', hj'⟩ := hstop.edge hkey houter
  obtain ⟨openStart, openEnd, begun, hopenStart, hopenEnd, hbegun, h⟩ := threeWay_ok h
  have hbegun := hi.front hkey hdoc hbegun
  rw [keyed_nil, List.nil_append] at hbegun
  have hdeep : 0 < fro.depth → 0 < start.depth := fun hlt => by
    obtain ⟨-, first, -, hjoin⟩ | ⟨hno, -⟩ := openSide_ok hopenStart
    · exact (joinable_ok hjoin).2
    · exact absurd hlt hno
  rcases h with ⟨first, last, index, inner, closed, rfl, rfl, -, -, hlt, -, hclosed, h⟩ | ⟨next, hnext, h, hne⟩
  · obtain ⟨-, first', hsome, hjoin⟩ | ⟨hno, -⟩ := openSide_ok hopenStart
    · obtain rfl := Option.some.inj hsome
      obtain ⟨hadd, hnames, hget, -⟩ := closed_child hkey hf hi (joinable_ok hjoin).1 hclosed
      refine ⟨keyed key [closed], ?_, ?_⟩
      · rw [hj.back hkey hdoc h, hadd, hbegun]
      · rw [names_keyed, hnames, opened_eq hlt hget]
        exact List.sublist_append_left _ _
    · exact absurd hlt hno
  · have hfirst : ∀ first ∈ openStart, fro.node 1 = .ok first := fun first hfirst => by
      obtain ⟨-, found, rfl, hjoin⟩ | ⟨-, rfl⟩ := openSide_ok hopenStart
      · obtain rfl := Option.mem_some.mp hfirst
        exact (joinable_ok hjoin).1
      · cases hfirst
    have hlast : ∀ last ∈ openEnd, stop.node 1 = .ok last := fun last hlast => by
      obtain ⟨-, found, rfl, hjoin⟩ | ⟨-, rfl⟩ := openSide_ok hopenEnd
      · obtain rfl := Option.mem_some.mp hlast
        exact (joinable_ok hjoin).1
      · cases hlast
    obtain ⟨mid, rest, first, hmid, hle, hrest, hsub⟩ :=
      apart_top hkey hf hi hstop houter hi' hj' hfirst hlast hnext
    refine ⟨mid, by rw [hj.back hkey hdoc h, hmid, hbegun], hsub.trans (List.Sublist.append (List.Sublist.refl _) ?_)⟩
    refine between_brings hsum hshelled hstart hsmall hstop hi' hj' hle hdeep (hrest.imp id ?_)
    rintro ⟨child, hchild, rfl, hsome⟩
    obtain ⟨last, rfl⟩ := Option.isSome_iff_exists.mp hsome
    refine ⟨child, hchild, rfl, node_depth_le (hlast last rfl), fun hlt hij => hne ?_ rfl ?_⟩
    · obtain ⟨-, first, rfl, -⟩ | ⟨hno, -⟩ := openSide_ok hopenStart
      · rfl
      · exact absurd hlt hno
    · rw [hi'.index, hj'.index, hij]

omit hkey in
/-- A replacement keeps the kind, the attributes and the marks of each node on its path. -/
theorem ReplacedAt.same (h : ReplacedAt S fro to_ slice d out) : ∃ node, fro.node d = .ok node ∧ out = node.copy out.content := by
  cases h with
  | inside _ hnode => exact ⟨_, hnode, rfl⟩
  | closed hnode => exact ⟨_, hnode, rfl⟩

omit hkey in
/-- Children without text among them. -/
def Blocks (nodes : List Node) : Prop := ∀ node ∈ nodes, node.isText = false

omit hkey in
theorem Blocks.filled (h : Blocks nodes) : Filled nodes := fun node hnode => Nat.pos_of_ne_zero fun hsize =>
  Bool.false_ne_true ((h node hnode).symm.trans (isText_of_size hsize))

omit hkey in
theorem cutFrom_upto_seam {p : Nat} (h : Filled before) :
    cutFrom (before ++ after) p 0 (p + Fragment.size before) = .ok before := by
  induction before generalizing p with
  | nil => exact cutFrom_end le_rfl
  | cons node rest ih =>
    have hrest : Filled rest := fun other hother => h other (List.mem_cons_of_mem _ hother)
    rw [size_cons, List.cons_append, cutFrom_whole (Nat.zero_le _) (by omega) (h node (List.mem_cons_self ..)),
      ← Nat.add_assoc, ih hrest]
    rfl

omit hkey in
theorem cutFrom_from_seam {p : Nat} (h : Filled (before ++ after)) :
    cutFrom (before ++ after) p (p + Fragment.size before) (p + Fragment.size (before ++ after)) = .ok after := by
  induction before generalizing p with
  | nil => exact cutFrom_all h le_rfl
  | cons node rest ih =>
    have hpos := h node (List.mem_cons_self ..)
    have hrest : Filled (rest ++ after) := fun other hother => h other (List.mem_cons_of_mem _ hother)
    rw [size_cons, List.cons_append, size_cons, cutFrom_before (by omega) (by omega), ← Nat.add_assoc, ← Nat.add_assoc,
      ih hrest]

omit hkey in
/-- A cut of blocks at a seam. -/
theorem cut_seam (h : Filled (before ++ after)) : Fragment.cut (before ++ after) 0 (Fragment.size before) = .ok before ∧
    Fragment.cutEnd (before ++ after) (Fragment.size before) = .ok after := by
  have hhalves := (Halves.here after).behind before
  rw [Nat.add_zero, List.append_nil] at hhalves
  have hbefore : Filled before := fun node hnode => h node (List.mem_append_left _ hnode)
  refine ⟨hhalves.cut_front h ?_, hhalves.cut_back h ?_⟩
  · exact cutFrom_upto_seam hbefore
  · exact cutFrom_from_seam h

omit hkey in
/-- Between blocks, a position stands at a seam or inside of one of them. -/
theorem Stand.seam_of_blocks (h : Stand r d node s k) (hblocks : Blocks node.content) (hdepth : r.depth = d)
    (hi : r.index d = .ok i) : k = Fragment.size (node.content.take i) ∧ r.parentOffset = k := by
  cases h with
  | @seam _ _ _ before after hlevel _ hpos hparent hcontent =>
    obtain rfl : before.length = i := Except.ok.inj ((index_of_level hlevel).symm.trans hi)
    exact ⟨by rw [hcontent, List.take_left], hparent⟩
  | @inText _ _ _ before text after units off hlevel _ hpos hparent hcontent hunits =>
    have := hblocks text (by simp [hcontent])
    simp [Node.isText, hunits] at this
  | down _ hlt => omega

/-- Where a slice replaces a range of a document of blocks, the blocks before the range and those behind it stay, and the
    named ones between them come from the block where the range starts and from the slice. -/
theorem replace_top (hdoc : Everywhere (Node.Texts S) doc.content) (hblocks : Blocks doc.content)
    (hslice : Everywhere (Node.Texts S) slice.content) (h : doc.replace S lo hi slice = .ok out) :
    ∃ fro to_ i j, doc.resolve lo = .ok fro ∧ doc.resolve hi = .ok to_ ∧ fro.index 0 = .ok i ∧ to_.index 0 = .ok j ∧
      i ≤ doc.content.length ∧ j ≤ doc.content.length ∧
      Put key (doc.content.take i) (doc.content.drop (to_.behind 0 j)) out.content
        (names key (opened fro i doc.content) ++ slice.brings key fro) := by
  obtain ⟨fro, to_, hfro, hto, hopen, -, -, h⟩ := replace_ok h
  have hf := resolve_stand hfro
  have ht := resolve_stand hto
  obtain ⟨i, hi⟩ := hf.edge hkey hdoc
  obtain ⟨j, hj⟩ := ht.edge hkey hdoc
  refine ⟨fro, to_, i, j, hfro, hto, hi.index, hj.index, hi.le, hj.le, ?_⟩
  cases replaceOuter_at h with
  | @inside _ i' _ inner hi' hat hj' _ hdeep hlt hinner =>
    obtain rfl := Except.ok.inj (hf.node_eq.symm.trans hat)
    obtain rfl := Except.ok.inj (hi.index.symm.trans hi')
    obtain rfl := Except.ok.inj (hj.index.symm.trans hj')
    obtain ⟨node, hnode, hsame⟩ := hinner.same
    obtain ⟨child, hchild, hget, hcinner⟩ := hf.child_at (by omega) hi.index
    obtain rfl := Except.ok.inj (hnode.symm.trans hchild)
    have hbehind : to_.behind 0 j = j + 1 := if_neg hdeep.ne'
    have hname : names key [inner] = names key [node] := by
      rw [hsame]
      exact names_copy hkey node _
    refine ⟨keyed key [inner], ?_, ?_⟩
    · rw [Node.copy_content, hbehind, List.set_eq_take_append_cons_drop, if_pos hlt, keyed_append, keyed_cons inner,
        ← List.append_assoc]
    · rw [names_keyed, hname, opened_eq (by omega) hget]
      exact List.sublist_append_left _ _
  | closed hat hfilled _ =>
    obtain rfl := Except.ok.inj (hf.node_eq.symm.trans hat)
    cases hfilled with
    | joined _ htwo =>
      obtain ⟨mid, hmid, hsub⟩ := twoWay_top hkey hf hdoc hi hj htwo
      exact ⟨mid, hmid, hsub.trans (List.sublist_append_left _ _)⟩
    | between hos hoe hfd htd hbefore hafter =>
      obtain ⟨hk, hoff⟩ := hf.seam_of_blocks hblocks hfd hi.index
      obtain ⟨hk', hoff'⟩ := ht.seam_of_blocks hblocks htd hj.index
      rw [hoff, hk] at hbefore
      rw [hoff', hk'] at hafter
      have hcut := fun n => @cut_seam (doc.content.take n) (doc.content.drop n)
        (by rw [List.take_append_drop]; exact hblocks.filled)
      simp only [List.take_append_drop] at hcut
      obtain rfl := Except.ok.inj ((hcut i).1.symm.trans hbefore)
      obtain rfl := Except.ok.inj ((hcut j).2.symm.trans hafter)
      have htaken : Everywhere (Node.Texts S) (doc.content.take i) := hdoc.sub fun _ hmem => List.mem_of_mem_take hmem
      have hdropped : Everywhere (Node.Texts S) (doc.content.drop j) := hdoc.sub fun _ hmem => List.mem_of_mem_drop hmem
      have hbehind : to_.behind 0 j = j := if_pos htd
      refine ⟨keyed key slice.content, ?_, ?_⟩
      · rw [Node.copy_content, hbehind, keyed_fragment hkey (texts_lasting.steady.append htaken hslice) hdropped,
          keyed_fragment hkey htaken hslice]
      · rw [names_keyed, Slice.brings, if_pos (by omega), Slice.brought, if_pos (.inl hos)]
        exact List.sublist_append_right _ _
    | around _ hprepare hthree => exact threeWay_top hkey hf hdoc hslice hi hj hprepare hthree

omit hkey in
/-- A replacement keeps a document to the rule of its children. -/
theorem replace_rule (hrule : S.validContent doc.kind doc.content = true) (h : doc.replace S lo hi slice = .ok out) :
    S.validContent doc.kind out.content = true ∧ out.kind = doc.kind := by
  obtain ⟨fro, to_, hfro, hto, -, -, -, h⟩ := replace_ok h
  have hf := resolve_stand hfro
  cases replaceOuter_at h with
  | @inside _ i _ inner hi hat _ _ _ hlt hinner =>
    obtain rfl := Except.ok.inj (hf.node_eq.symm.trans hat)
    refine ⟨?_, rfl⟩
    obtain ⟨node, hnode, hsame⟩ := hinner.same
    have hinnerMarks : inner.marks = node.marks := (congrArg Node.marks hsame).trans rfl
    have hinnerKind : inner.kind = node.kind := (congrArg Node.kind hsame).trans rfl
    obtain ⟨child, hchild, hget, -⟩ := hf.child_at (by omega) hi
    obtain rfl := Except.ok.inj (hnode.symm.trans hchild)
    obtain ⟨_, hget⟩ := List.getElem?_eq_some_iff.mp hget
    have hsplit : doc.content = doc.content.take i ++ node :: doc.content.drop (i + 1) := by
      rw [← hget, List.cons_getElem_drop_succ, List.take_append_drop]
    rw [hsplit] at hrule
    rw [Node.copy_content, List.set_eq_take_append_cons_drop, if_pos hlt, ← hrule]
    exact validContent_replace hinnerKind hinnerMarks
  | closed hat _ hvalid =>
    obtain rfl := Except.ok.inj (hf.node_eq.symm.trans hat)
    exact ⟨hvalid, rfl⟩

end Kodosi.Text
