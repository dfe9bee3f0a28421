import Kodosi.Text.Built

/-! Nodes that keep to their schema, and slices whose nodes keep to it off their open sides. -/

namespace Kodosi.Text

open Lib

variable {S : Schema} {lo hi n m p : Nat} {node kept : Node} {nodes out before after target : List Node}

/-! ### Keeping to the schema -/

/-- A node satisfies its content rule and its allowed marks; a text among them has no children. -/
structure Node.Keeps (S : Schema) (node : Node) : Prop where
  rule : S.validContent node.kind node.content = true
  bare : node.isText = true → node.content = []

abbrev Node.Proper (S : Schema) : Node → Prop := Node.Everywhere (Node.Keeps S)

abbrev Proper (S : Schema) : List Node → Prop := Everywhere (Node.Keeps S)

theorem allValid_iff : allValid S nodes = true ↔ ∀ node ∈ nodes, node.valid S = true := by
  induction nodes with
  | nil => simp [allValid]
  | cons node rest ih => simp [allValid, ih]

theorem valid_iff : node.valid S = true ↔
    S.validContent node.kind node.content = true ∧ allValid S node.content = true := by
  cases node
  simp [Node.valid, Node.kind, Node.content]

mutual

theorem Node.proper_of_valid {node : Node} (h : node.valid S = true) (hbuilt : node.Built S) : node.Proper S := by
  cases node with
  | mk kind attrs content marks text leaf =>
    obtain ⟨hrule, hcontent⟩ := valid_iff.mp h
    exact ⟨⟨hrule, fun htext => (hbuilt.here.text htext).2.2⟩, proper_of_valid hcontent hbuilt.2⟩

theorem proper_of_valid {nodes : List Node} (h : allValid S nodes = true) (hbuilt : Built S nodes) :
    Proper S nodes := by
  cases nodes with
  | nil => exact trivial
  | cons node rest =>
    obtain ⟨hnode, hrest⟩ := Bool.and_eq_true_iff.mp h
    exact ⟨Node.proper_of_valid hnode hbuilt.1, proper_of_valid hrest hbuilt.2⟩

end

mutual

theorem Node.Everywhere.isValid {node : Node} (h : node.Proper S) : node.valid S = true := by
  cases node with
  | mk kind attrs content marks text leaf =>
    exact valid_iff.mpr ⟨h.here.rule, Everywhere.allValid h.2⟩

theorem Everywhere.allValid {nodes : List Node} (h : Proper S nodes) : Text.allValid S nodes = true := by
  cases nodes with
  | nil => rfl
  | cons node rest => exact Bool.and_eq_true_iff.mpr ⟨h.1.isValid, Everywhere.allValid h.2⟩

end

/-- A part of a text that keeps to the schema keeps to it too. -/
theorem withUnits_proper {other : Node} (h : node.Proper S) (htext : node.isText = true)
    (hkind : other.kind = node.kind) (units : List UInt16) : (other.withUnits units).Proper S := by
  have hrule := h.here.rule
  rw [h.here.bare htext, ← hkind] at hrule
  exact ⟨⟨hrule, fun _ => rfl⟩, trivial⟩

theorem pushJoined_proper (hnodes : Proper S nodes) (hnode : node.Proper S) :
    Proper S (Fragment.pushJoined nodes node) := by
  rcases List.eq_nil_or_concat nodes with rfl | ⟨init, last, rfl⟩
  · exact ⟨hnode, trivial⟩
  · rw [List.concat_eq_append] at hnodes ⊢
    obtain ⟨hinit, -, -⟩ := everywhere_append.mp hnodes
    simp only [Fragment.pushJoined, List.getLast?_concat, List.dropLast_concat]
    split
    next h =>
      obtain ⟨htext, hsame⟩ := Bool.and_eq_true_iff.mp h
      exact everywhere_append.mpr
        ⟨hinit, withUnits_proper hnode htext (sameMarkup_iff.mp hsame).1 _, trivial⟩
    next => exact everywhere_append.mpr ⟨hnodes, hnode, trivial⟩

theorem addNode_proper (htarget : Proper S target) (hnode : node.Proper S) : Proper S (addNode node target) := by
  rw [addNode_eq]
  exact pushJoined_proper htarget hnode

theorem append_proper (hbefore : Proper S before) (hafter : Proper S after) :
    Proper S (Fragment.append before after) := by
  unfold Fragment.append
  split_ifs with ha hb
  · exact hbefore
  · exact hafter
  · rcases List.eq_nil_or_concat before with rfl | ⟨init, last, rfl⟩
    · exact everywhere_append.mpr ⟨hbefore, hafter⟩
    · cases after with
      | nil => exact absurd rfl ha
      | cons first rest =>
        rw [List.concat_eq_append] at hbefore ⊢
        obtain ⟨hinit, hlast, -⟩ := everywhere_append.mp hbefore
        simp only [List.getLast?_concat, List.dropLast_concat]
        split
        next h =>
          have htext := (Bool.and_eq_true_iff.mp h).1
          exact everywhere_append.mpr ⟨hinit, withUnits_proper hlast htext rfl _, hafter.2⟩
        next => exact everywhere_append.mpr ⟨hbefore, hafter⟩

/-! ### Off the open sides -/

mutual

/-- Whether a node is valid, apart from its sides that are open so deep. -/
def Node.validOff (S : Schema) (n m : Nat) : Node → Bool
  | .mk kind attrs content marks text leaf =>
    (Node.mk kind attrs content marks text leaf).valid S ||
      ((decide (0 < n) || decide (0 < m)) && text.isNone && !leaf && validOff S (n - 1) (m - 1) content)

/-- Whether every node of a fragment is valid, apart from those on its sides that are open so deep. -/
def validOff (S : Schema) (n m : Nat) : List Node → Bool
  | [] => true
  | node :: rest => node.validOff S n (if rest = [] then m else 0) && validOff S 0 m rest

end

mutual

/-- A node at a position keeps to the schema, or has an inside that is cut by one of two bounds. -/
def Node.Within (S : Schema) (lo hi p : Nat) : Node → Prop
  | .mk kind attrs content marks text leaf =>
    (Node.mk kind attrs content marks text leaf).Proper S ∨
      (Node.mk kind attrs content marks text leaf).Inner ∧
        (p < lo ∨ hi < p + (Node.mk kind attrs content marks text leaf).nodeSize) ∧
        Within S lo hi (p + 1) content

/-- Every node between two bounds keeps to the schema, for nodes that start at a position. -/
def Within (S : Schema) (lo hi : Nat) (p : Nat) : List Node → Prop
  | [] => True
  | node :: rest => node.Within S lo hi p ∧ Within S lo hi (p + node.nodeSize) rest

end

theorem Node.within_iff : node.Within S lo hi p ↔ node.Proper S ∨
    node.Inner ∧ (p < lo ∨ hi < p + node.nodeSize) ∧ Text.Within S lo hi (p + 1) node.content := by
  cases node
  rfl

theorem within_of_proper : ∀ {nodes : List Node} {p : Nat}, Proper S nodes → Within S lo hi p nodes
  | [], _, _ => trivial
  | _ :: _, _, h => ⟨Node.within_iff.mpr (.inl h.1), within_of_proper h.2⟩

theorem within_append : Within S lo hi p (before ++ after) ↔
    Within S lo hi p before ∧ Within S lo hi (p + Fragment.size before) after := by
  induction before generalizing p with
  | nil => simp [Within, Fragment.size]
  | cons node rest ih => simp [Within, Fragment.size, ih, and_assoc, Nat.add_assoc]

/-- Nodes that lie between the bounds keep to the schema. -/
theorem Within.proper : ∀ {nodes : List Node} {p : Nat}, Within S lo hi p nodes → lo ≤ p →
    p + Fragment.size nodes ≤ hi → Proper S nodes
  | [], _, _, _, _ => trivial
  | node :: rest, p, h, hlo, hhi => by
    rw [Fragment.size] at hhi
    refine ⟨?_, h.2.proper (by omega) (by omega)⟩
    rcases Node.within_iff.mp h.1 with h | ⟨-, hcut, -⟩
    · exact h
    · omega

theorem Node.Within.text (h : node.Within S lo hi p) (htext : node.isText = true) : node.Proper S := by
  rcases Node.within_iff.mp h with h | ⟨hinner, -, -⟩
  · exact h
  · rw [hinner.not_isText] at htext
    cases htext

theorem Node.Within.content (h : node.Within S lo hi p) : Text.Within S lo hi (p + 1) node.content := by
  rcases Node.within_iff.mp h with h | ⟨-, -, h⟩
  · exact within_of_proper h.content
  · exact h

mutual

theorem Node.within_of_validOff {node : Node} {n m p : Nat} (h : node.validOff S n m = true)
    (hbuilt : node.Built S) (hn : n = 0 ∨ p + n ≤ lo) (hm : m = 0 ∨ hi + m ≤ p + node.nodeSize) :
    node.Within S lo hi p := by
  cases node with
  | mk kind attrs content marks text leaf =>
    rcases Bool.or_eq_true_iff.mp h with h | h
    · exact .inl (Node.proper_of_valid h hbuilt)
    · simp only [Bool.and_eq_true, Bool.or_eq_true, decide_eq_true_eq, Option.isNone_iff_eq_none,
        Bool.not_eq_true'] at h
      obtain ⟨⟨⟨hopen, htext⟩, hleaf⟩, hcontent⟩ := h
      have hinner : (Node.mk kind attrs content marks text leaf).Inner := ⟨htext, hleaf⟩
      have hsize := hinner.nodeSize
      refine .inr ⟨hinner, by omega, within_of_validOff hcontent hbuilt.2 (by omega) ?_⟩
      rw [hsize] at hm
      simp only [Node.content] at hm
      omega

theorem within_of_validOff {nodes : List Node} {n m p : Nat} (h : validOff S n m nodes = true)
    (hbuilt : Built S nodes) (hn : n = 0 ∨ p + n ≤ lo) (hm : m = 0 ∨ hi + m ≤ p + Fragment.size nodes) :
    Within S lo hi p nodes := by
  cases nodes with
  | nil => exact trivial
  | cons node rest =>
    rw [Fragment.size] at hm
    obtain ⟨hnode, hrest⟩ := Bool.and_eq_true_iff.mp h
    refine ⟨Node.within_of_validOff hnode hbuilt.1 hn ?_,
      within_of_validOff hrest hbuilt.2 (.inl rfl) (by omega)⟩
    by_cases hlast : rest = []
    · rw [if_pos hlast]
      rw [hlast, Fragment.size] at hm
      omega
    · rw [if_neg hlast]
      exact .inl rfl

end

end Kodosi.Text
