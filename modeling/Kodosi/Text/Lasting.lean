import Kodosi.Text.Joins
import Kodosi.Text.Total

/-! What cutting, joining and replacing keep of each node of a document: what does not depend on a node's children, on its
    marks or on the units of its text. -/

namespace Kodosi.Text

open Lib Documents

variable {S : Schema} {P : Node → Prop} {r fro start stop to_ along : ResolvedPos} {doc node child out : Node}
  {nodes target content : List Node} {slice added : Slice} {d lo hi pos : Nat}

/-- What holds of a node whatever its children, its marks and the units of its text are. -/
structure Lasting (P : Node → Prop) : Prop where
  copy : ∀ {node : Node} (content : Fragment), P node → P (node.copy content)
  withMarks : ∀ {node : Node} (marks : List Mark), P node → P (node.withMarks marks)
  withUnits : ∀ {node : Node} (units : List UInt16), P node → node.isText = true → P (node.withUnits units)
  joined : ∀ {node text : Node} (units : List UInt16), P node → P text → text.isText = true →
    node.sameMarkup text = true → P (node.withUnits units)

/-! ### Cutting and joining -/

theorem Lasting.steady (hP : Lasting P) : Steady P := ⟨fun content _ h => hP.copy content h, hP.withUnits, hP.joined⟩

variable (hP : Lasting P)

include hP

theorem addNode_lasts (htarget : Everywhere P target) (hnode : node.Everywhere P) : Everywhere P (addNode node target) := by
  rw [addNode_eq]
  exact hP.steady.pushJoined htarget hnode

omit hP in
theorem fromArray_eq (nodes : List Node) : Fragment.fromArray nodes = addAll [] nodes :=
  congrArg (fun push => nodes.foldl push []) (funext fun joined => funext fun node => (addNode_eq node joined).symm)

/-! ### Ranges -/

omit hP in
theorem Stand.lasts_below {s k e : Nat} {inside : Node} (h : Stand r d node s k) (hnode : Everywhere P node.content) (hde : d < e)
    (he : r.node e = .ok inside) : inside.Everywhere P := by
  induction h with
  | seam _ hdepth =>
    have := node_depth_le he
    omega
  | inText _ hdepth =>
    have := node_depth_le he
    omega
  | @down d _ _ before child after _ hlevel _ hcontent _ _ hstand ih =>
    have hchild := hnode.child hcontent
    by_cases hed : e = d + 1
    · subst hed
      obtain rfl := Except.ok.inj (hstand.node_eq.symm.trans he)
      exact hchild
    · exact ih hchild.content (by omega)

/-- Along a path, it holds of every node below the root. -/
structure PathOf (P : Node → Prop) (r : ResolvedPos) : Prop where
  content : ∀ {e : Nat} {node : Node}, r.node e = .ok node → Everywhere P node.content
  below : ∀ {e : Nat} {node : Node}, r.node (e + 1) = .ok node → node.Everywhere P

omit hP in
theorem resolve_path (hdoc : Everywhere P doc.content) (h : doc.resolve pos = .ok r) : PathOf P r :=
  ⟨fun he => (resolve_stand h).everywhere hdoc (Nat.zero_le _) he, fun he => (resolve_stand h).lasts_below hdoc (Nat.succ_pos _) he⟩

omit hP in
theorem PathOf.child_lasts (h : PathOf P r) {i : Nat} (hnode : r.node d = .ok node) (hchild : node.child i = .ok child) :
    child.Everywhere P :=
  everywhere_iff.mp (h.content hnode) child (List.mem_of_getElem? (require_ok.mp hchild))

theorem nodeAfter_lasts (h : PathOf P r) (hout : r.nodeAfter = .ok (some out)) : out.Everywhere P := by
  obtain ⟨parent, hparent, hout⟩ := bind_ok hout
  obtain ⟨i, -, hout⟩ := bind_ok hout
  split_ifs at hout
  · cases Except.ok.inj hout
  · obtain ⟨offset, -, hout⟩ := bind_ok hout
    obtain ⟨child, hchild, hout⟩ := bind_ok hout
    split_ifs at hout
    · obtain rfl := Option.some.inj (Except.ok.inj hout)
      exact h.child_lasts hparent hchild
    · cases hcut : child.cut offset child.nodeSize with
      | error e => simp [hcut, Except.map] at hout
      | ok kept =>
        rw [hcut] at hout
        obtain rfl := Option.some.inj (Except.ok.inj hout)
        exact hP.steady.nodeCut (h.child_lasts hparent hchild) hcut

theorem nodeBefore_lasts (h : PathOf P r) (hout : r.nodeBefore = .ok (some out)) : out.Everywhere P := by
  obtain ⟨i, -, hout⟩ := bind_ok hout
  obtain ⟨offset, -, hout⟩ := bind_ok hout
  obtain ⟨parent, hparent, hout⟩ := bind_ok hout
  split_ifs at hout
  · obtain ⟨child, hchild, hout⟩ := bind_ok hout
    cases hcut : child.cut 0 offset with
    | error e => simp [hcut, Except.map] at hout
    | ok kept =>
      rw [hcut] at hout
      obtain rfl := Option.some.inj (Except.ok.inj hout)
      exact hP.steady.nodeCut (h.child_lasts hparent hchild) hcut
  · cases Except.ok.inj hout
  · cases hchild : parent.child (i - 1) with
    | error e => simp [hchild, Except.map] at hout
    | ok child =>
      rw [hchild] at hout
      obtain rfl := Option.some.inj (Except.ok.inj hout)
      exact h.child_lasts hparent hchild

theorem addOption_lasts {child : Option Node} (htarget : Everywhere P target) (h : ∀ node ∈ child, node.Everywhere P) :
    Everywhere P (addOption child target) := by
  cases child with
  | none => exact htarget
  | some child => exact addNode_lasts hP htarget (h child rfl)

variable {from' : Option ResolvedPos}

theorem rangeStart_lasts {first : Nat} {begun : List Node} (h : ∀ r ∈ from', PathOf P r) (htarget : Everywhere P target)
    (hout : rangeStart from' d target = .ok (first, begun)) : Everywhere P begun := by
  cases from' with
  | none =>
    obtain ⟨-, rfl⟩ := Prod.mk.inj (Except.ok.inj hout)
    exact htarget
  | some r =>
    obtain ⟨i, -, hout⟩ := bind_ok hout
    split_ifs at hout
    · obtain ⟨-, rfl⟩ := Prod.mk.inj (Except.ok.inj hout)
      exact htarget
    · obtain ⟨offset, -, hout⟩ := bind_ok hout
      split_ifs at hout
      · obtain ⟨after, hafter, hout⟩ := bind_ok hout
        obtain ⟨-, rfl⟩ := Prod.mk.inj (Except.ok.inj hout)
        refine addOption_lasts hP htarget fun node hnode => ?_
        obtain rfl := Option.mem_def.mp hnode
        exact nodeAfter_lasts hP (h r rfl) hafter
      · obtain ⟨-, rfl⟩ := Prod.mk.inj (Except.ok.inj hout)
        exact htarget

variable {upto : Option ResolvedPos}

theorem rangeEnd_lasts {out : List Node} (h : ∀ r ∈ upto, PathOf P r) (htarget : Everywhere P target)
    (hout : rangeEnd upto d target = .ok out) : Everywhere P out := by
  cases upto with
  | none =>
    obtain rfl := Except.ok.inj hout
    exact htarget
  | some r =>
    dsimp only [rangeEnd] at hout
    split_ifs at hout
    · obtain ⟨offset, -, hout⟩ := bind_ok hout
      split_ifs at hout
      · obtain ⟨before, hbefore, hout⟩ := bind_ok hout
        obtain rfl := Except.ok.inj hout
        refine addOption_lasts hP htarget fun node hnode => ?_
        obtain rfl := Option.mem_def.mp hnode
        exact nodeBefore_lasts hP (h r rfl) hbefore
      · obtain rfl := Except.ok.inj hout
        exact htarget
    · obtain rfl := Except.ok.inj hout
      exact htarget

theorem addChildren_lasts {n first : Nat} (hnode : Everywhere P node.content) : ∀ {target out : List Node},
    Everywhere P target → (List.range' first n).foldlM (fun target i => do
      let child ← node.child i
      pure (addNode child target)) target = .ok out → Everywhere P out := by
  induction n generalizing first with
  | zero =>
    intro target out htarget hout
    obtain rfl : target = out := Except.ok.inj hout
    exact htarget
  | succ n ih =>
    intro target out htarget hout
    rw [List.range'_succ, List.foldlM_cons] at hout
    obtain ⟨next, hnext, hout⟩ := bind_ok hout
    obtain ⟨child, hchild, hnext⟩ := bind_ok hnext
    obtain rfl := Except.ok.inj hnext
    have hchild := everywhere_iff.mp hnode child (List.mem_of_getElem? (require_ok.mp hchild))
    exact ih (addNode_lasts hP htarget hchild) hout

theorem addRange_lasts {out : List Node} (hfrom : ∀ r ∈ from', PathOf P r) (hupto : ∀ r ∈ upto, PathOf P r)
    (htarget : Everywhere P target) (hout : addRange from' upto d target = .ok out) :
    Everywhere P out := by
  cases hany : upto.or from' with
  | none =>
    rw [addRange, hany] at hout
    obtain rfl := Except.ok.inj hout
    exact htarget
  | some r =>
    have hr : PathOf P r := (Option.or_eq_some_iff.mp hany).elim (hupto r) fun h => hfrom r h.2
    have hnode : ∃ node, r.node d = .ok node := by
      rw [addRange, hany] at hout
      obtain ⟨node, hnode, -⟩ := bind_ok hout
      exact ⟨node, hnode⟩
    obtain ⟨node, hnode⟩ := hnode
    obtain ⟨last, first, begun, mid, -, hfirst, hmid, hout⟩ := addRange_ok hany hnode hout
    exact rangeEnd_lasts hP hupto
      (addChildren_lasts hP (hr.content hnode) (rangeStart_lasts hP hfrom htarget hfirst) hmid) hout

/-! ### Replacing -/

theorem close_lasts {inner : Fragment} (hnode : P node) (hinner : Everywhere P inner) (h : close S node inner = .ok out) :
    out.Everywhere P := by
  obtain ⟨rfl, -⟩ := close_ok h
  exact ⟨hP.copy _ hnode, hinner⟩

omit hP in
theorem option_path (h : PathOf P r) : ∀ other ∈ some r, PathOf P other := fun other hother => by
  obtain rfl := Option.mem_some.mp hother
  exact h

omit hP in
theorem no_path : ∀ other ∈ (none : Option ResolvedPos), PathOf P other := nofun

theorem twoWay_lasts {out : Fragment} (hf : PathOf P fro) (ht : PathOf P to_)
    (h : replaceTwoWay S fro to_ d = .ok out) : Everywhere P out := by
  induction hn : fro.depth - d generalizing d out with
  | zero =>
    unfold replaceTwoWay at h
    obtain ⟨content, hcontent, h⟩ := bind_ok h
    rw [dif_neg (by omega)] at h
    exact addRange_lasts hP (option_path ht) no_path
      (addRange_lasts hP no_path (option_path hf) everywhere_nil hcontent) h
  | succ n ih =>
    unfold replaceTwoWay at h
    obtain ⟨content, hcontent, h⟩ := bind_ok h
    rw [dif_pos (by omega)] at h
    obtain ⟨kind, hkind, h⟩ := bind_ok h
    obtain ⟨inner, hinner, h⟩ := bind_ok h
    obtain ⟨closed, hclosed, h⟩ := bind_ok h
    have hclosed := close_lasts hP (hf.below (joinable_ok hkind).1).here (ih hinner (by omega)) hclosed
    exact addRange_lasts hP (option_path ht) no_path
      (addNode_lasts hP (addRange_lasts hP no_path (option_path hf) everywhere_nil hcontent) hclosed) h

/-- The part of `replaceApart` on one open side. -/
theorem sideClosed_lasts {left right : ResolvedPos} {first : Node} {result : List Node} (hl : PathOf P left)
    (hr : PathOf P right) (hfirst : first.Everywhere P) (htarget : Everywhere P target)
    (h : (do
      let inner ← replaceTwoWay S left right (d + 1)
      let closed ← close S first inner
      pure (addNode closed target) : Out (List Node)) = .ok result) : Everywhere P result := by
  obtain ⟨inner, hinner, h⟩ := bind_ok h
  obtain ⟨closed, hclosed, h⟩ := bind_ok h
  obtain rfl := Except.ok.inj h
  exact addNode_lasts hP htarget (close_lasts hP hfirst.here (twoWay_lasts hP hl hr hinner) hclosed)

theorem apart_lasts {openStart openEnd : Option Node} {out : List Node} (hf : PathOf P fro) (hs : PathOf P start)
    (he : PathOf P stop) (ht : PathOf P to_) (hfirst : ∀ node ∈ openStart, node.Everywhere P)
    (hlast : ∀ node ∈ openEnd, node.Everywhere P) (hcontent : Everywhere P content)
    (h : replaceApart S fro start stop to_ d openStart openEnd content = .ok out) : Everywhere P out := by
  obtain ⟨begun, hbegun, h⟩ := bind_ok h
  obtain ⟨mid, hmid, h⟩ := bind_ok h
  have hbegun : Everywhere P begun := by
    cases openStart with
    | none =>
      obtain rfl := Except.ok.inj hbegun
      exact hcontent
    | some first => exact sideClosed_lasts hP hf hs (hfirst first rfl) hcontent hbegun
  have hmid := addRange_lasts hP (option_path hs) (option_path he) hbegun hmid
  cases openEnd with
  | none =>
    obtain rfl := Except.ok.inj h
    exact hmid
  | some last => exact sideClosed_lasts hP he ht (hlast last rfl) hmid h

omit hP in
theorem openSide_lasts {deeper : Prop} [Decidable deeper] {before after : ResolvedPos} {side : Option Node}
    (hbefore : PathOf P before) (h : openSide deeper (joinable S before after (d + 1)) = .ok side) :
    ∀ node ∈ side, node.Everywhere P := by
  intro node hnode
  obtain ⟨-, found, rfl, hjoin⟩ | ⟨-, rfl⟩ := openSide_ok h
  · obtain rfl := Option.mem_some.mp hnode
    exact hbefore.below (joinable_ok hjoin).1
  · cases hnode

theorem threeWay_lasts {out : Fragment} (hf : PathOf P fro) (hs : PathOf P start) (he : PathOf P stop) (ht : PathOf P to_)
    (h : replaceThreeWay S fro start stop to_ d = .ok out) : Everywhere P out := by
  induction hn : fro.depth - d using Nat.strong_induction_on generalizing d out with
  | _ n ih =>
  obtain ⟨openStart, openEnd, content, hstart, hend, hcontent, h⟩ := threeWay_ok h
  have hcontent := addRange_lasts hP no_path (option_path hf) everywhere_nil hcontent
  rcases h with ⟨first, last, i, inner, closed, rfl, rfl, -, -, hlt, hinner, hclosed, h⟩ | ⟨next, hnext, h, -⟩
  · have hinner := ih (fro.depth - (d + 1)) (by omega) hinner rfl
    have hclosed := close_lasts hP (openSide_lasts hf hstart first rfl).here hinner hclosed
    exact addRange_lasts hP (option_path ht) no_path (addNode_lasts hP hcontent hclosed) h
  · have hnext := apart_lasts hP hf hs he ht (openSide_lasts hf hstart) (openSide_lasts he hend) hcontent hnext
    exact addRange_lasts hP (option_path ht) no_path hnext h

theorem wrap_lasts (halong : PathOf P along) (hcontent : Everywhere P node.content) (hnode : 0 < d → P node)
    (h : wrap along d node = .ok out) : Everywhere P out.content := by
  induction d generalizing node with
  | zero =>
    obtain rfl := Except.ok.inj h
    exact hcontent
  | succ d ih =>
    obtain ⟨outer, houter, h⟩ := bind_ok h
    have hinside : Everywhere P (outer.copy [node]).content :=
      ⟨Node.everywhere_iff.mpr ⟨hnode (Nat.succ_pos d), hcontent⟩, trivial⟩
    refine ih hinside (fun hd => ?_) h
    obtain ⟨e, rfl⟩ := Nat.exists_eq_succ_of_ne_zero hd.ne'
    exact hP.copy _ (halong.below houter).here

theorem prepareSlice_lasts (halong : PathOf P along) (hslice : Everywhere P slice.content)
    (h : prepareSlice slice along = .ok (start, stop)) : PathOf P start ∧ PathOf P stop := by
  obtain ⟨extra, -, h⟩ := bind_ok h
  obtain ⟨core, hcore, h⟩ := bind_ok h
  obtain ⟨outer, houter, h⟩ := bind_ok h
  obtain ⟨pos, -, h⟩ := bind_ok h
  obtain ⟨start', hstart, h⟩ := bind_ok h
  obtain ⟨sides, -, h⟩ := bind_ok h
  have hcopied : Everywhere P (core.copy slice.content).content := hslice
  have houter : Everywhere P outer.content := by
    refine wrap_lasts hP halong hcopied (fun hd => ?_) houter
    obtain ⟨e, rfl⟩ := Nat.exists_eq_succ_of_ne_zero hd.ne'
    exact hP.copy _ (halong.below hcore).here
  split_ifs at h
  · simp [failed] at h
  · obtain ⟨stop', hstop, h⟩ := bind_ok h
    obtain ⟨rfl, rfl⟩ := Prod.mk.inj (Except.ok.inj h)
    exact ⟨resolve_path houter hstart, resolve_path houter hstop⟩

theorem replaceOuter_lasts (hf : PathOf P fro) (ht : PathOf P to_) (hslice : Everywhere P slice.content)
    (h : replaceOuter S fro to_ slice d = .ok out) : Everywhere P out.content ∧ (0 < d → P out) := by
  have below : ∀ {d : Nat} {node : Node} (content : Fragment), fro.node d = .ok node → 0 < d → P (node.copy content) :=
    fun content hnode hd => by
      obtain ⟨e, rfl⟩ := Nat.exists_eq_succ_of_ne_zero hd.ne'
      exact hP.copy _ (hf.below hnode).here
  replace h := replaceOuter_at h
  induction h with
  | inside _ hnode _ _ _ _ _ ih =>
    refine ⟨everywhere_iff.mpr fun other hother => ?_, below _ hnode⟩
    rcases List.mem_or_eq_of_mem_set hother with hmem | rfl
    · exact everywhere_iff.mp (hf.content hnode) other hmem
    · exact Node.everywhere_iff.mpr ⟨ih.2 (Nat.succ_pos _), ih.1⟩
  | closed hnode hfilled _ =>
    refine ⟨?_, below _ hnode⟩
    have hcontent := hf.content hnode
    cases hfilled with
    | joined _ htwo => exact twoWay_lasts hP hf ht htwo
    | between _ _ _ _ hbefore hafter =>
      exact hP.steady.append (hP.steady.append (hP.steady.cut hcontent hbefore) hslice) (hP.steady.cut hcontent hafter)
    | around _ hprepare hthree =>
      obtain ⟨hs, he⟩ := prepareSlice_lasts hP hf hslice hprepare
      exact threeWay_lasts hP hf hs he ht hthree

theorem replace_lasts (hdoc : Everywhere P doc.content) (hslice : Everywhere P slice.content)
    (h : doc.replace S lo hi slice = .ok out) : Everywhere P out.content := by
  obtain ⟨fro, to_, hfro, hto, -, -, -, h⟩ := replace_ok h
  exact (replaceOuter_lasts hP (resolve_path hdoc hfro) (resolve_path hdoc hto) hslice h).1

/-! ### Steps -/

theorem insertAt_lasts {insert : Nat} {gap : Fragment} {inserted : Slice} (hslice : Everywhere P slice.content)
    (hgap : Everywhere P gap) (h : slice.insertAt S insert gap = .ok (some inserted)) : Everywhere P inserted.content := by
  obtain ⟨openStart, openEnd, -, -, hin⟩ := insertAt_ok h
  exact hP.steady.insertInto hslice hgap hin

omit hP in
mutual

theorem mapNode_lasts {change : Node → Node → Node} {child : Node} (hP : Lasting P) (h : Remarks change) (parent : Node)
    (hchild : child.Everywhere P) : (mapNode S change parent child).Everywhere P := by
  obtain ⟨marks, hmapped⟩ := mapNode_remarked (S := S) h parent child
  rw [hmapped]
  cases child with
  | mk kind attrs content marks text leaf =>
    refine ⟨hP.withMarks _ (hP.copy _ hchild.1), ?_⟩
    unfold mappedContent
    split
    · exact hP.steady.fromArray (mapNodes_lasts hP h _ hchild.2)
    · exact hchild.2

theorem mapNodes_lasts {change : Node → Node → Node} {nodes : List Node} (hP : Lasting P) (h : Remarks change)
    (parent : Node) (hnodes : Everywhere P nodes) : Everywhere P (mapNodes S change parent nodes) := by
  cases nodes with
  | nil => exact trivial
  | cons child rest => exact ⟨mapNode_lasts hP h parent hnodes.1, mapNodes_lasts hP h parent hnodes.2⟩

end

omit hP in
/-- The range that a step replaces, and the slice that it puts there. -/
inductive Step.Puts (S : Schema) (doc : Node) : Step → Nat → Nat → Slice → Prop
  | replace {lo hi : Nat} {slice : Slice} {structure_ : Bool} : Puts S doc (.replace lo hi slice structure_) lo hi slice
  | around {lo hi gapFrom gapTo insert : Nat} {slice gap inserted : Slice} {structure_ : Bool} :
      doc.slice gapFrom gapTo = .ok gap → slice.insertAt S insert gap.content = .ok (some inserted) →
      Puts S doc (.replaceAround lo hi gapFrom gapTo slice insert structure_) lo hi inserted
  | addMark {lo hi : Nat} {mark : Mark} {old : Slice} (parent : Node) : doc.slice lo hi = .ok old →
      Puts S doc (.addMark lo hi mark) lo hi
        ⟨mapFragment S old.content (markInline S mark) parent, old.openStart, old.openEnd⟩
  | removeMark {lo hi : Nat} {mark : Mark} {old : Slice} : doc.slice lo hi = .ok old →
      Puts S doc (.removeMark lo hi mark) lo hi
        ⟨mapFragment S old.content (fun node _ => node.withMarks (mark.removeFromSet node.marks)) doc, old.openStart,
          old.openEnd⟩
  | addNodeMark {pos : Nat} {mark : Mark} {node updated : Node} {marks : List Mark} :
      doc.nodeAt pos = .ok (some node) → Node.new S node.kind (some (.object node.attrs)) [] marks = .ok updated →
      Puts S doc (.addNodeMark pos mark) pos (pos + 1) ⟨[updated], 0, if node.isLeaf then 0 else 1⟩
  | removeNodeMark {pos : Nat} {mark : Mark} {node updated : Node} {marks : List Mark} :
      doc.nodeAt pos = .ok (some node) → Node.new S node.kind (some (.object node.attrs)) [] marks = .ok updated →
      Puts S doc (.removeNodeMark pos mark) pos (pos + 1) ⟨[updated], 0, if node.isLeaf then 0 else 1⟩
  | attr {pos : Nat} {name : String} {value : Value} {node updated : Node} :
      doc.nodeAt pos = .ok (some node) → node.withAttrs S (setField node.attrs name value) = .ok updated →
      Puts S doc (.attr pos name value) pos (pos + 1) ⟨[updated], 0, if node.isLeaf then 0 else 1⟩

variable {step : Step}

omit hP in
/-- A step puts a slice in the place of a range, or sets an attribute of the document itself. -/
theorem apply_puts (h : step.apply S doc = .ok out) :
    (∃ lo hi added, step.Puts S doc lo hi added ∧ doc.replace S lo hi added = .ok out) ∨
      (∃ name value, step = .docAttr name value) ∧ out.content = doc.content ∧ out.kind = doc.kind := by
  cases step with
  | replace lo hi slice structure_ =>
    obtain ⟨between, -, h⟩ := bind_ok h
    split_ifs at h
    · simp [failed] at h
    · exact .inl ⟨lo, hi, slice, .replace, h⟩
  | replaceAround lo hi gapFrom gapTo slice insert structure_ =>
    obtain ⟨gap, inserted, -, hgap, -, -, hinserted, h⟩ := replaceAround_ok h
    exact .inl ⟨lo, hi, inserted, .around hgap hinserted, h⟩
  | addMark lo hi mark =>
    obtain ⟨old, hold, h⟩ := bind_ok h
    obtain ⟨start, -, h⟩ := bind_ok h
    obtain ⟨depth, -, h⟩ := bind_ok h
    obtain ⟨parent, -, h⟩ := bind_ok h
    exact .inl ⟨lo, hi, _, .addMark parent hold, h⟩
  | removeMark lo hi mark =>
    obtain ⟨old, hold, h⟩ := bind_ok h
    exact .inl ⟨lo, hi, _, .removeMark hold, h⟩
  | addNodeMark pos mark =>
    obtain ⟨node, updated, hnode, hupdated, h⟩ := markNode_ok h
    exact .inl ⟨pos, pos + 1, _, .addNodeMark hnode hupdated, putNode_ok h⟩
  | removeNodeMark pos mark =>
    obtain ⟨node, updated, hnode, hupdated, h⟩ := markNode_ok h
    exact .inl ⟨pos, pos + 1, _, .removeNodeMark hnode hupdated, putNode_ok h⟩
  | attr pos name value =>
    obtain ⟨node, updated, hnode, hupdated, h⟩ := setAttr_ok h
    exact .inl ⟨pos, pos + 1, _, .attr hnode hupdated, putNode_ok h⟩
  | docAttr name value =>
    obtain ⟨attrs, -, h⟩ := bind_ok h
    obtain rfl := Except.ok.inj h
    exact .inr ⟨⟨name, value, rfl⟩, rfl, rfl⟩

/-- What lasts and holds of every node without text holds of what a step puts in. -/
theorem puts_lasts (hbare : ∀ node : Node, node.isText = false → P node) (hdoc : Everywhere P doc.content)
    (hslice : ∀ slice ∈ step.slice, Everywhere P slice.content) (h : step.Puts S doc lo hi added) :
    Everywhere P added.content := by
  have bare : ∀ {updated : Node}, (∃ kind attrs marks leaf, updated = .mk kind attrs [] marks none leaf) →
      Everywhere P [updated] := by
    rintro _ ⟨kind, attrs, marks, leaf, rfl⟩
    exact ⟨⟨hbare _ rfl, trivial⟩, trivial⟩
  have new : ∀ {kind : NodeId} {attrs : Option Value} {marks : List Mark} {updated : Node},
      Node.new S kind attrs [] marks = .ok updated → Everywhere P [updated] := by
    intro kind attrs marks updated hupdated
    obtain ⟨attrs, -, hupdated⟩ := bind_ok hupdated
    exact bare ⟨_, _, _, _, (Except.ok.inj hupdated).symm⟩
  cases h with
  | replace => exact hslice _ rfl
  | around hgap hinserted => exact insertAt_lasts hP (hslice _ rfl) (hP.steady.slice hdoc hgap) hinserted
  | addMark parent hold =>
    exact hP.steady.fromArray (mapNodes_lasts hP (markInline_remarks _) parent (hP.steady.slice hdoc hold))
  | removeMark hold => exact hP.steady.fromArray (mapNodes_lasts hP (fun node _ => ⟨_, rfl⟩) doc (hP.steady.slice hdoc hold))
  | addNodeMark _ hupdated => exact new hupdated
  | removeNodeMark _ hupdated => exact new hupdated
  | attr _ hupdated =>
    obtain ⟨attrs, -, hupdated⟩ := bind_ok hupdated
    exact bare ⟨_, _, _, _, (Except.ok.inj hupdated).symm⟩

/-- A step keeps of a document what lasts and holds of every node without text. -/
theorem apply_lasts (hbare : ∀ node : Node, node.isText = false → P node) (hdoc : Everywhere P doc.content)
    (hslice : ∀ slice ∈ step.slice, Everywhere P slice.content) (h : step.apply S doc = .ok out) :
    Everywhere P out.content := by
  obtain ⟨lo, hi, added, hputs, h⟩ | ⟨-, hsame, -⟩ := apply_puts h
  · exact replace_lasts hP hdoc (puts_lasts hP hbare hdoc hslice hputs) h
  · rwa [hsame]

end Kodosi.Text
