import Kodosi.Text.KeptSides

/-! Nodes as `from_json` and the edits build them, and the open sides that mapping a fragment and
    inserting into one keep. -/

namespace Kodosi.Text

open Lib

variable {S : Schema} {lo hi n p : Nat} {node kept : Node} {nodes out before after : List Node}

/-! ### Everywhere -/

mutual

/-- What holds of a node and of every node below it. -/
def Node.Everywhere (P : Node → Prop) : Node → Prop
  | .mk kind attrs content marks text leaf =>
    P (.mk kind attrs content marks text leaf) ∧ Everywhere P content

def Everywhere (P : Node → Prop) : List Node → Prop
  | [] => True
  | node :: rest => node.Everywhere P ∧ Everywhere P rest

end

variable {P : Node → Prop}

theorem everywhere_nil : Everywhere P [] := trivial

theorem everywhere_iff : Everywhere P nodes ↔ ∀ node ∈ nodes, node.Everywhere P := by
  induction nodes with
  | nil => simp [Everywhere]
  | cons node rest ih => simp [Everywhere, ih]

theorem everywhere_append : Everywhere P (before ++ after) ↔ Everywhere P before ∧ Everywhere P after := by
  simp [everywhere_iff, or_imp, forall_and]

theorem Everywhere.sub (h : Everywhere P nodes) (hsub : ∀ node ∈ out, node ∈ nodes) : Everywhere P out :=
  everywhere_iff.mpr fun node hnode => everywhere_iff.mp h node (hsub node hnode)

theorem Everywhere.child (h : Everywhere P nodes) (hnodes : nodes = before ++ node :: after) : node.Everywhere P :=
  everywhere_iff.mp h node (by simp [hnodes])

theorem Node.everywhere_iff : node.Everywhere P ↔ P node ∧ Text.Everywhere P node.content := by
  cases node
  rfl

theorem Node.Everywhere.here (h : node.Everywhere P) : P node := (Node.everywhere_iff.mp h).1

theorem Node.Everywhere.content (h : node.Everywhere P) : Text.Everywhere P node.content :=
  (Node.everywhere_iff.mp h).2

/-! ### Nodes as they are built -/

/-- A node with text is a leaf of the text type, without children; one with an inside is of a type that
    has one. -/
structure Node.Shaped (S : Schema) (node : Node) : Prop where
  text : node.isText = true → node.kind = S.textNode ∧ node.isLeaf = true ∧ node.content = []
  inside : node.isLeaf = false → node.kind ≠ S.textNode ∧ S.isLeaf node.kind = false
  leaf : node.isText = false → node.isLeaf = true → S.isLeaf node.kind = true

abbrev Node.Built (S : Schema) : Node → Prop := Node.Everywhere (Node.Shaped S)

abbrev Built (S : Schema) : List Node → Prop := Everywhere (Node.Shaped S)

theorem copy_built (h : node.Shaped S) (htext : node.isText = true → nodes = [])
    (hnodes : Built S nodes) : (node.copy nodes).Built S :=
  ⟨⟨fun hcopied => ⟨(h.text hcopied).1, (h.text hcopied).2.1, htext hcopied⟩, h.inside, h.leaf⟩, hnodes⟩

theorem withMarks_built (h : node.Built S) (marks : List Mark) : (node.withMarks marks).Built S :=
  ⟨⟨h.here.text, h.here.inside, h.here.leaf⟩, h.content⟩

theorem withUnits_built (hkind : node.kind = S.textNode) (units : List UInt16) : (node.withUnits units).Built S :=
  ⟨⟨fun _ => ⟨hkind, rfl, rfl⟩, nofun, nofun⟩, trivial⟩

theorem kind_of_inner (h : node.Built S) (hinner : node.Inner) : node.kind ≠ S.textNode :=
  (h.here.inside hinner.noLeaf).1

theorem kind_of_text (h : node.Built S) (htext : node.isText = true) : node.kind = S.textNode :=
  (h.here.text htext).1

/-- A text and a node with an inside do not have the same markup. -/
theorem not_sameMarkup {a b : Node} (ha : a.Built S) (hb : b.Built S) (hinner : a.Inner)
    (htext : b.isText = true) : a.sameMarkup b = false ∧ b.sameMarkup a = false := by
  have hkind : a.kind ≠ b.kind := fun h => kind_of_inner ha hinner (h.trans (kind_of_text hb htext))
  simp [Node.sameMarkup, hkind, Ne.symm hkind]

/-! ### Joining and cutting -/

/-- What holds of a text whatever its units are, and of any other node whatever its children are. -/
structure Steady (P : Node → Prop) : Prop where
  copy : ∀ {node : Node} (content : Fragment), node.isText = false → P node → P (node.copy content)
  withUnits : ∀ {node : Node} (units : List UInt16), P node → node.isText = true → P (node.withUnits units)
  joined : ∀ {node text : Node} (units : List UInt16), P node → P text → text.isText = true →
    node.sameMarkup text = true → P (node.withUnits units)

theorem shaped_steady : Steady (Node.Shaped S) where
  copy _ hbare h := ⟨fun htext => absurd (hbare.symm.trans htext) Bool.false_ne_true, h.inside, h.leaf⟩
  withUnits units h htext := (withUnits_built (h.text htext).1 units).here
  joined units _ h htext hsame := (withUnits_built ((sameMarkup_iff.mp hsame).1.trans (h.text htext).1) units).here

theorem Steady.pushJoined (hP : Steady P) (hnodes : Everywhere P nodes) (hnode : node.Everywhere P) :
    Everywhere P (Fragment.pushJoined nodes node) := by
  rcases List.eq_nil_or_concat nodes with rfl | ⟨init, last, rfl⟩
  · exact ⟨hnode, trivial⟩
  · rw [List.concat_eq_append] at hnodes ⊢
    obtain ⟨hinit, hlast, -⟩ := everywhere_append.mp hnodes
    simp only [Fragment.pushJoined, List.getLast?_concat, List.dropLast_concat]
    split
    next h =>
      obtain ⟨htext, hsame⟩ := Bool.and_eq_true_iff.mp h
      exact everywhere_append.mpr ⟨hinit, ⟨hP.joined _ hlast.here hnode.here htext hsame, trivial⟩, trivial⟩
    next => exact everywhere_append.mpr ⟨hnodes, hnode, trivial⟩

theorem Steady.fromArray (hP : Steady P) (h : Everywhere P nodes) : Everywhere P (Fragment.fromArray nodes) := by
  have push : ∀ {nodes joined : List Node}, Everywhere P joined → Everywhere P nodes →
      Everywhere P (nodes.foldl Fragment.pushJoined joined) := by
    intro nodes
    induction nodes with
    | nil => exact fun hjoined _ => hjoined
    | cons node rest ih => exact fun hjoined hnodes => ih (hP.pushJoined hjoined hnodes.1) hnodes.2
  exact push everywhere_nil h

theorem Steady.cutUnits (hP : Steady P) {units : List UInt16} (h : node.Everywhere P) (htext : node.isText = true)
    (hout : Text.cutUnits node units lo hi = .ok kept) : kept.Everywhere P := by
  unfold Text.cutUnits at hout
  split_ifs at hout
  · obtain rfl := Except.ok.inj hout
    exact h
  · obtain rfl := Except.ok.inj hout
    exact ⟨hP.withUnits _ h.here htext, trivial⟩
  · simp [failed] at hout

mutual

theorem Steady.nodeCut (hP : Steady P) {node out : Node} {lo hi : Nat} (h : node.Everywhere P)
    (hout : node.cut lo hi = .ok out) : out.Everywhere P := by
  cases node with
  | mk kind attrs content marks text leaf =>
    cases text with
    | some units =>
      unfold Node.cut at hout
      exact hP.cutUnits h rfl hout
    | none =>
      unfold Node.cut at hout
      by_cases hall : lo = 0 ∧ hi = Fragment.size content
      · rw [if_pos hall] at hout
        obtain rfl := Except.ok.inj hout
        exact h
      · rw [if_neg hall] at hout
        obtain ⟨cut, hcut, hout⟩ := bind_ok hout
        obtain rfl := Except.ok.inj hout
        refine ⟨hP.copy cut rfl h.here, ?_⟩
        unfold cutWith at hcut
        rw [if_neg hall] at hcut
        split_ifs at hcut
        · exact hP.cutFrom h.2 hcut
        · obtain rfl := Except.ok.inj hcut
          trivial

theorem Steady.cutFrom (hP : Steady P) {nodes out : List Node} {p lo hi : Nat} (h : Everywhere P nodes)
    (hout : Text.cutFrom nodes p lo hi = .ok out) : Everywhere P out := by
  cases nodes with
  | nil =>
    unfold Text.cutFrom at hout
    split_ifs at hout
    · simp [failed] at hout
    · obtain rfl := Except.ok.inj hout
      trivial
  | cons child rest =>
    unfold Text.cutFrom at hout
    split_ifs at hout
    · obtain rfl := Except.ok.inj hout
      trivial
    · obtain ⟨kept, hkept, hout⟩ := bind_ok hout
      obtain ⟨tail, htail, hout⟩ := bind_ok hout
      obtain rfl := Except.ok.inj hout
      refine ⟨?_, hP.cutFrom h.2 htail⟩
      cases hunits : child.units with
      | some text =>
        rw [hunits] at hkept
        exact hP.nodeCut h.1 hkept
      | none =>
        rw [hunits] at hkept
        exact hP.nodeCut h.1 hkept
    · obtain ⟨kept, hkept, hout⟩ := bind_ok hout
      obtain ⟨tail, htail, hout⟩ := bind_ok hout
      obtain rfl := Except.ok.inj hout
      obtain rfl := Except.ok.inj hkept
      exact ⟨h.1, hP.cutFrom h.2 htail⟩
    · exact hP.cutFrom h.2 hout

end

theorem Steady.cut (hP : Steady P) (h : Everywhere P nodes) (hout : Fragment.cut nodes lo hi = .ok out) :
    Everywhere P out := by
  unfold Fragment.cut cutWith at hout
  split_ifs at hout
  · obtain rfl := Except.ok.inj hout
    exact h
  · exact hP.cutFrom h hout
  · obtain rfl := Except.ok.inj hout
    trivial

/-! ### Mapping -/

variable {change : Node → Node → Node} {first last : Node} {tail : List Node}

/-- A change of a node's marks only. -/
def Remarks (change : Node → Node → Node) : Prop :=
  ∀ node parent, ∃ marks, change node parent = node.withMarks marks

/-- The content of a child that is mapped. -/
def mappedContent (S : Schema) (change : Node → Node → Node) (child : Node) : Fragment :=
  if 0 < Fragment.size child.content then mapFragment S child.content change child else child.content

/-- What mapping does with one child. -/
theorem mapNode_eq (parent child : Node) : mapNode S change parent child =
    if S.isInline child.kind then change (child.copy (mappedContent S change child)) parent
    else child.copy (mappedContent S change child) := by
  cases child with
  | mk kind attrs content marks text leaf =>
    unfold mapNode
    dsimp only
    by_cases hsize : 0 < Fragment.size content
    · rw [show mappedContent S change (.mk kind attrs content marks text leaf) = _ from if_pos hsize,
        if_pos hsize]
      rfl
    · rw [show mappedContent S change (.mk kind attrs content marks text leaf) = _ from if_neg hsize,
        if_neg hsize]
      rfl

theorem mapNode_remarked (h : Remarks change) (parent child : Node) :
    ∃ marks, mapNode S change parent child = (child.copy (mappedContent S change child)).withMarks marks := by
  rw [mapNode_eq]
  split
  · exact h _ _
  · exact ⟨child.marks, rfl⟩

mutual

theorem mapNode_built {child : Node} (h : Remarks change) (parent : Node) (hchild : child.Built S) :
    (mapNode S change parent child).Built S := by
  obtain ⟨marks, hmapped⟩ := mapNode_remarked (S := S) h parent child
  rw [hmapped]
  cases child with
  | mk kind attrs content marks text leaf =>
    refine withMarks_built (copy_built hchild.here (fun htext => ?_) ?_) _
    · have hcontent := (hchild.here.text htext).2.2
      unfold mappedContent
      rw [hcontent]
      rfl
    · unfold mappedContent
      split
      · exact shaped_steady.fromArray (mapNodes_built h _ hchild.2)
      · exact hchild.2

theorem mapNodes_built {nodes : List Node} (h : Remarks change) (parent : Node)
    (hnodes : Built S nodes) : Built S (mapNodes S change parent nodes) := by
  cases nodes with
  | nil => exact trivial
  | cons child rest => exact ⟨mapNode_built h parent hnodes.1, mapNodes_built h parent hnodes.2⟩

end

theorem mapNode_inner (h : Remarks change) (parent : Node) (hinner : node.Inner) :
    (mapNode S change parent node).Inner ∧ (mapNode S change parent node).content = mappedContent S change node := by
  obtain ⟨marks, hmapped⟩ := mapNode_remarked (S := S) h parent node
  rw [hmapped]
  exact ⟨⟨hinner.noText, hinner.noLeaf⟩, rfl⟩

theorem pushJoined_first (hinner : first.Inner) (hjoined : Built S (first :: tail))
    (hnode : node.Built S) : ∃ tail', Fragment.pushJoined (first :: tail) node = first :: tail' := by
  rcases List.eq_nil_or_concat tail with rfl | ⟨init, last, rfl⟩
  · unfold Fragment.pushJoined
    simp only [List.getLast?_singleton]
    rw [if_neg]
    · exact ⟨[node], rfl⟩
    · intro h
      obtain ⟨htext, hsame⟩ := Bool.and_eq_true_iff.mp h
      rw [(not_sameMarkup hjoined.1 hnode hinner htext).1] at hsame
      cases hsame
  · rw [List.concat_eq_append, ← List.cons_append]
    simp only [Fragment.pushJoined, List.getLast?_concat, List.dropLast_concat]
    split
    · exact ⟨init ++ [last.joinedText node], rfl⟩
    · exact ⟨init ++ [last] ++ [node], rfl⟩

/-- Joining text leaves a first node that has an inside where it is. -/
theorem fromArray_first (hinner : first.Inner) (h : Built S (first :: tail)) :
    ∃ tail', Fragment.fromArray (first :: tail) = first :: tail' := by
  have push : ∀ {nodes joined : List Node}, Built S (first :: joined) → Built S nodes →
      ∃ tail', nodes.foldl Fragment.pushJoined (first :: joined) = first :: tail' := by
    intro nodes
    induction nodes with
    | nil => exact fun _ _ => ⟨_, rfl⟩
    | cons node rest ih =>
      intro joined hjoined hnodes
      obtain ⟨joined', hpush⟩ := pushJoined_first hinner hjoined hnodes.1
      have hbuilt := shaped_steady.pushJoined hjoined hnodes.1
      rw [hpush] at hbuilt
      rw [List.foldl_cons, hpush]
      exact ih hbuilt hnodes.2
  have hfirst : Built S [first] := ⟨h.1, trivial⟩
  exact push hfirst h.2

/-- Joining text leaves a last node that has an inside where it is. -/
theorem fromArray_last (hinner : last.Inner) (before : List Node) :
    ∃ init, Fragment.fromArray (before ++ [last]) = init ++ [last] := by
  rw [Fragment.fromArray, List.foldl_append, List.foldl_cons, List.foldl_nil]
  unfold Fragment.pushJoined
  split
  · rw [hinner.not_isText, Bool.false_and, if_neg (by simp)]
    exact ⟨_, rfl⟩
  · exact ⟨[], rfl⟩

theorem mappedContent_opens (h : Opens n (mapFragment S node.content change node))
    (hopens : Opens n node.content) : Opens n (mappedContent S change node) := by
  unfold mappedContent
  split
  · exact h
  · exact hopens

theorem mappedContent_closes (h : Closes n (mapFragment S node.content change node))
    (hcloses : Closes n node.content) : Closes n (mappedContent S change node) := by
  unfold mappedContent
  split
  · exact h
  · exact hcloses

/-- A mapped fragment is open to the left as deep as it was. -/
theorem mapFragment_opens (h : Remarks change) (hnodes : Built S nodes) (hopens : Opens n nodes)
    (parent : Node) : Opens n (mapFragment S nodes change parent) := by
  induction n generalizing nodes parent with
  | zero => trivial
  | succ n ih =>
    cases nodes with
    | nil => exact hopens.elim
    | cons first rest =>
      obtain ⟨hinner, hopens⟩ := hopens
      obtain ⟨hminner, hmcontent⟩ := mapNode_inner (S := S) h parent hinner
      obtain ⟨tail, hfirst⟩ := fromArray_first hminner
        (show Built S (mapNode S change parent first :: mapNodes S change parent rest) from
          ⟨mapNode_built h parent hnodes.1, mapNodes_built h parent hnodes.2⟩)
      rw [mapFragment, mapNodes, hfirst]
      refine ⟨hminner, ?_⟩
      rw [hmcontent]
      exact mappedContent_opens (ih hnodes.1.content hopens first) hopens

theorem mapNodes_append (parent : Node) :
    mapNodes S change parent (before ++ after) = mapNodes S change parent before ++ mapNodes S change parent after := by
  induction before with
  | nil => rfl
  | cons first rest ih => rw [List.cons_append, mapNodes, ih, mapNodes, List.cons_append]

/-- A mapped fragment is open to the right as deep as it was. -/
theorem mapFragment_closes (h : Remarks change) (hcloses : Closes n nodes) (parent : Node) :
    Closes n (mapFragment S nodes change parent) := by
  induction n generalizing nodes parent with
  | zero => trivial
  | succ n ih =>
    obtain ⟨before, last, rfl, hinner, hcloses⟩ := closes_succ.mp hcloses
    obtain ⟨hminner, hmcontent⟩ := mapNode_inner (S := S) h parent hinner
    obtain ⟨init, hlast⟩ := fromArray_last hminner (mapNodes S change parent before)
    refine closes_succ.mpr ⟨init, mapNode S change parent last, ?_, hminner, ?_⟩
    · rw [mapFragment, mapNodes_append]
      exact hlast
    · rw [hmcontent]
      exact mappedContent_closes (ih hcloses last) hcloses

end Kodosi.Text
