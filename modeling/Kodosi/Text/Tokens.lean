import Kodosi.Text.Step

/-! A text as one flat sequence of tokens: where a node opens and closes, its leaves, and the units of
    its text. Positions are counted along it. -/

namespace Kodosi.Text

open Lib

/-- One step of a position. -/
inductive Token where
  | opening (kind : NodeId) (attrs : Attrs) (marks : List Mark)
  | closing
  | leaf (kind : NodeId) (attrs : Attrs) (marks : List Mark)
  | unit (value : UInt16) (marks : List Mark)
  deriving DecidableEq

mutual

def Node.tokens : Node → List Token
  | .mk kind attrs content marks text leaf =>
    match text with
    | some units => units.map fun value => .unit value marks
    | none =>
      if leaf then [.leaf kind attrs marks]
      else .opening kind attrs marks :: (tokens content ++ [.closing])

def tokens : List Node → List Token
  | [] => []
  | node :: rest => node.tokens ++ tokens rest

end

mutual

theorem Node.length_tokens (node : Node) : node.tokens.length = node.nodeSize := by
  cases node with
  | mk kind attrs content marks text leaf =>
    cases text with
    | some units => simp [Node.tokens, Node.nodeSize]
    | none =>
      cases leaf with
      | true => simp [Node.tokens, Node.nodeSize]
      | false =>
        have := length_tokens content
        simp [Node.tokens, Node.nodeSize]
        omega

/-- A fragment has as many tokens as its size says. -/
theorem length_tokens (nodes : List Node) : (tokens nodes).length = Fragment.size nodes := by
  cases nodes with
  | nil => rfl
  | cons node rest =>
    rw [tokens, List.length_append, Node.length_tokens node, length_tokens rest, Fragment.size]

end

@[simp] theorem tokens_nil : tokens [] = [] := rfl

@[simp] theorem tokens_cons (node : Node) (rest : List Node) : tokens (node :: rest) = node.tokens ++ tokens rest := rfl

@[simp] theorem tokens_append (left right : List Node) : tokens (left ++ right) = tokens left ++ tokens right := by
  induction left with
  | nil => rfl
  | cons node rest ih => simp [ih]

theorem Fragment.size_append (left right : List Node) :
    Fragment.size (left ++ right) = Fragment.size left + Fragment.size right := by
  rw [← length_tokens, tokens_append, List.length_append, length_tokens, length_tokens]

variable {nodes : List Node}

theorem tokens_of_size_zero (h : Fragment.size nodes = 0) : tokens nodes = [] :=
  List.eq_nil_of_length_eq_zero ((length_tokens nodes).trans h)

/-! ### Nodes of one kind -/

variable {node : Node}

variable {units : List UInt16}

theorem Node.tokens_text (h : node.units = some units) :
    node.tokens = units.map fun value => .unit value node.marks := by
  cases node
  cases h
  rfl

theorem Node.nodeSize_text (h : node.units = some units) : node.nodeSize = units.length := by
  rw [← Node.length_tokens, Node.tokens_text h, List.length_map]

theorem Node.nodeSize_leaf (h : node.units = none) (hleaf : node.isLeaf = true) : node.nodeSize = 1 := by
  cases node
  cases h
  cases hleaf
  simp [Node.nodeSize]

/-- A node that has an inside. -/
structure Node.Inner (node : Node) : Prop where
  noText : node.units = none
  noLeaf : node.isLeaf = false

def Node.openToken (node : Node) : Token := .opening node.kind node.attrs node.marks

theorem Node.Inner.tokens (h : node.Inner) :
    node.tokens = node.openToken :: (Text.tokens node.content ++ [.closing]) := by
  obtain ⟨htext, hleaf⟩ := h
  cases node
  cases htext
  cases hleaf
  rfl

theorem Node.Inner.nodeSize (h : node.Inner) : node.nodeSize = Fragment.size node.content + 2 := by
  rw [← Node.length_tokens, h.tokens, List.length_cons, List.length_append, Text.length_tokens]
  rfl

theorem Node.Inner.copy (h : node.Inner) (content : Fragment) : (node.copy content).Inner := ⟨h.noText, h.noLeaf⟩

@[simp] theorem Node.copy_content (node : Node) (content : Fragment) : (node.copy content).content = content := rfl

theorem Node.Inner.copy_tokens (h : node.Inner) (content : Fragment) :
    (node.copy content).tokens = node.openToken :: (Text.tokens content ++ [.closing]) :=
  (h.copy content).tokens

theorem Node.Inner.not_isText (h : node.Inner) : node.isText = false := by
  simp [Node.isText, h.noText]

/-! ### Text where the schema has text -/

mutual

/-- The nodes of the text type are those that hold text. -/
def Node.HoldsText (S : Schema) : Node → Prop
  | .mk kind _ content _ text _ => (text.isSome ↔ kind = S.textNode) ∧ HoldsText S content

def HoldsText (S : Schema) : List Node → Prop
  | [] => True
  | node :: rest => node.HoldsText S ∧ HoldsText S rest

end

variable {S : Schema}

theorem holdsText_iff : HoldsText S nodes ↔ ∀ node ∈ nodes, node.HoldsText S := by
  induction nodes with
  | nil => simp [HoldsText]
  | cons node rest ih => simp [HoldsText, ih]

theorem holdsText_append {left right : List Node} :
    HoldsText S (left ++ right) ↔ HoldsText S left ∧ HoldsText S right := by
  simp [holdsText_iff, or_imp, forall_and]

theorem holdsText_nil : HoldsText S [] := trivial

theorem HoldsText.child {before after : List Node} {child : Node} (h : HoldsText S nodes)
    (hnodes : nodes = before ++ child :: after) : child.HoldsText S :=
  holdsText_iff.mp h child (by simp [hnodes])

theorem Node.holdsText_iff :
    node.HoldsText S ↔ (node.isText = true ↔ node.kind = S.textNode) ∧ Text.HoldsText S node.content := by
  cases node
  rfl

theorem Node.HoldsText.content (h : node.HoldsText S) : Text.HoldsText S node.content :=
  (Node.holdsText_iff.mp h).2

theorem Node.HoldsText.copy (h : node.HoldsText S) {content : Fragment} (hcontent : Text.HoldsText S content) :
    (node.copy content).HoldsText S :=
  ⟨(Node.holdsText_iff.mp h).1, hcontent⟩

theorem Node.HoldsText.withUnits (h : node.HoldsText S) (htext : node.isText = true) (units : List UInt16) :
    (node.withUnits units).HoldsText S :=
  ⟨⟨fun _ => (Node.holdsText_iff.mp h).1.mp htext, fun _ => rfl⟩, trivial⟩

theorem Node.tokens_withUnits (node : Node) (units : List UInt16) :
    (node.withUnits units).tokens = units.map fun value => .unit value node.marks := rfl

theorem sameMarkup_iff {a b : Node} :
    a.sameMarkup b = true ↔ a.kind = b.kind ∧ a.attrs = b.attrs ∧ a.marks = b.marks := by
  simp [Node.sameMarkup, and_assoc]

/-! ### Joining text -/

/-- Two pieces of text with the same marks join to the tokens of both. -/
theorem joinedText_tokens {a b : Node} (ha : a.HoldsText S) (hb : b.HoldsText S)
    (htext : b.isText = true) (hsame : a.sameMarkup b = true) :
    (a.joinedText b).tokens = a.tokens ++ b.tokens ∧ (a.joinedText b).HoldsText S := by
  obtain ⟨hkind, -, hmarks⟩ := sameMarkup_iff.mp hsame
  have hatext : a.isText = true :=
    (Node.holdsText_iff.mp ha).1.mpr (hkind.trans ((Node.holdsText_iff.mp hb).1.mp htext))
  obtain ⟨left, hleft⟩ := Option.isSome_iff_exists.mp hatext
  obtain ⟨right, hright⟩ := Option.isSome_iff_exists.mp htext
  refine ⟨?_, ha.withUnits hatext _⟩
  rw [Node.joinedText, Node.tokens_withUnits, Node.tokens_text hleft, Node.tokens_text hright, hleft,
    hright, hmarks, Option.getD_some, Option.getD_some, List.map_append]

theorem pushJoined_tokens {joined : List Node} (hjoined : HoldsText S joined) (hnode : node.HoldsText S) :
    tokens (Fragment.pushJoined joined node) = tokens joined ++ node.tokens ∧
      HoldsText S (Fragment.pushJoined joined node) := by
  rcases List.eq_nil_or_concat joined with rfl | ⟨init, last, rfl⟩
  · exact ⟨by simp [Fragment.pushJoined], hnode, trivial⟩
  · obtain ⟨hinit, hlast, -⟩ := holdsText_append.mp (List.concat_eq_append ▸ hjoined)
    simp only [Fragment.pushJoined, List.concat_eq_append, List.getLast?_concat,
      List.dropLast_concat]
    split
    next h =>
      obtain ⟨htext, hsame⟩ := Bool.and_eq_true_iff.mp h
      obtain ⟨htokens, hholds⟩ := joinedText_tokens hlast hnode htext hsame
      exact ⟨by simp [htokens], holdsText_append.mpr ⟨hinit, hholds, trivial⟩⟩
    next h =>
      exact ⟨by simp, holdsText_append.mpr ⟨List.concat_eq_append ▸ hjoined, hnode, trivial⟩⟩

/-- Joining text leaves the tokens as they are. -/
theorem fromArray_tokens (h : HoldsText S nodes) :
    tokens (Fragment.fromArray nodes) = tokens nodes ∧ HoldsText S (Fragment.fromArray nodes) := by
  have push : ∀ {nodes joined : List Node}, HoldsText S joined → HoldsText S nodes →
      tokens (nodes.foldl Fragment.pushJoined joined) = tokens joined ++ tokens nodes ∧
        HoldsText S (nodes.foldl Fragment.pushJoined joined) := by
    intro nodes
    induction nodes with
    | nil => exact fun hjoined _ => ⟨by simp, hjoined⟩
    | cons node rest ih =>
      intro joined hjoined hnodes
      obtain ⟨htokens, hholds⟩ := pushJoined_tokens hjoined hnodes.1
      obtain ⟨hall, hholds⟩ := ih hholds hnodes.2
      exact ⟨by simp [hall, htokens], hholds⟩
  obtain ⟨htokens, hholds⟩ := push holdsText_nil h
  exact ⟨htokens.trans (List.nil_append _), hholds⟩

theorem addNode_eq (child : Node) (target : List Node) : addNode child target = Fragment.pushJoined target child := by
  unfold addNode Fragment.pushJoined
  have hsymm : ∀ last : Node, child.sameMarkup last = last.sameMarkup child := fun last =>
    Bool.eq_iff_iff.mpr (by simp only [sameMarkup_iff]; constructor <;> simp_all)
  cases target.getLast? with
  | none => rfl
  | some last => simp only [hsymm]

theorem addNode_tokens {child : Node} {target : List Node} (htarget : HoldsText S target)
    (hchild : child.HoldsText S) :
    tokens (addNode child target) = tokens target ++ child.tokens ∧ HoldsText S (addNode child target) := by
  rw [addNode_eq]
  exact pushJoined_tokens htarget hchild

theorem append_tokens {left right : Fragment} (hleft : HoldsText S left) (hright : HoldsText S right) :
    tokens (Fragment.append left right) = tokens left ++ tokens right ∧ HoldsText S (Fragment.append left right) := by
  unfold Fragment.append
  split_ifs with h h'
  · exact ⟨by simp [tokens_of_size_zero h], hleft⟩
  · exact ⟨by simp [tokens_of_size_zero h'], hright⟩
  · rcases List.eq_nil_or_concat left with rfl | ⟨init, last, rfl⟩
    · exact ⟨by simp, holdsText_append.mpr ⟨hleft, hright⟩⟩
    · cases right with
      | nil => exact absurd rfl h
      | cons first rest =>
        obtain ⟨hinit, hlast, -⟩ := holdsText_append.mp (List.concat_eq_append ▸ hleft)
        simp only [List.concat_eq_append, List.getLast?_concat, List.dropLast_concat]
        split
        next hjoin =>
          obtain ⟨htext, hsame⟩ := Bool.and_eq_true_iff.mp hjoin
          have hkind := (sameMarkup_iff.mp hsame).1
          have hfirst : first.isText = true :=
            (Node.holdsText_iff.mp hright.1).1.mpr
              (hkind.symm.trans ((Node.holdsText_iff.mp hlast).1.mp htext))
          obtain ⟨htokens, hholds⟩ := joinedText_tokens hlast hright.1 hfirst hsame
          exact ⟨by simp [htokens], holdsText_append.mpr ⟨hinit, hholds, hright.2⟩⟩
        next hjoin =>
          exact ⟨by simp,
            holdsText_append.mpr ⟨List.concat_eq_append ▸ hleft, hright⟩⟩

end Kodosi.Text
