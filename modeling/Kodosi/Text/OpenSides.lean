import Kodosi.Text.Cuts

/-! The open sides of a slice, and the nodes it is put under to stand beside a document's path. -/

namespace Kodosi.Text

open Lib

variable {S : Schema} {r : ResolvedPos} {d s k n : Nat} {node child : Node} {content : Fragment}

instance : Decidable child.Inner :=
  decidable_of_iff (child.units = none ∧ child.isLeaf = false)
    ⟨fun h => ⟨h.1, h.2⟩, fun h => ⟨h.noText, h.noLeaf⟩⟩

/-- A fragment's left side is open to a depth: its first child has an inside, that one's first child
    too, and so on. -/
def Opens : Nat → Fragment → Prop
  | 0, _ => True
  | _ + 1, [] => False
  | n + 1, first :: _ => first.Inner ∧ Opens n first.content

/-- A fragment's right side is open to a depth. -/
def Closes : Nat → Fragment → Prop
  | 0, _ => True
  | n + 1, content =>
    match content.getLast? with
    | none => False
    | some last => last.Inner ∧ Closes n last.content

instance decideOpens : (n : Nat) → (content : Fragment) → Decidable (Opens n content)
  | 0, _ => .isTrue trivial
  | _ + 1, [] => .isFalse id
  | n + 1, first :: _ => @instDecidableAnd _ _ inferInstance (decideOpens n first.content)

instance decideCloses : (n : Nat) → (content : Fragment) → Decidable (Closes n content)
  | 0, _ => .isTrue trivial
  | n + 1, content =>
    match h : content.getLast? with
    | none => .isFalse (by simp [Closes, h])
    | some last =>
      @decidable_of_iff _ (last.Inner ∧ Closes n last.content) (by simp [Closes, h])
        (@instDecidableAnd _ _ inferInstance (decideCloses n last.content))

theorem closes_succ : Closes (n + 1) content ↔
    ∃ before last, content = before ++ [last] ∧ last.Inner ∧ Closes n last.content := by
  rcases List.eq_nil_or_concat content with rfl | ⟨before, last, rfl⟩
  · simp [Closes]
  · rw [Closes, List.concat_eq_append, List.getLast?_concat]
    refine ⟨fun h => ⟨before, last, rfl, h⟩, ?_⟩
    rintro ⟨before', last', heq, h⟩
    obtain ⟨-, hlast⟩ := List.append_inj' heq rfl
    obtain rfl := List.singleton_inj.mp hlast
    exact h

theorem opens_le : ∀ {n : Nat} {content : Fragment}, Opens n content → n ≤ Fragment.size content
  | 0, _, _ => Nat.zero_le _
  | n + 1, first :: rest, ⟨hinner, h⟩ => by
    have := opens_le h
    rw [Fragment.size, hinner.nodeSize]
    omega

theorem closes_le (h : Closes n content) : n ≤ Fragment.size content := by
  induction n generalizing content with
  | zero => exact Nat.zero_le _
  | succ n ih =>
    obtain ⟨before, last, rfl, hinner, h⟩ := closes_succ.mp h
    have := ih h
    rw [Fragment.size_append, Fragment.size, hinner.nodeSize]
    omega

/-! ### How deep a position beside an open side is -/

/-- Two ways to cut a list before one of its elements, the one before its last. -/
theorem split_last {α : Type} {before before' after : List α} {x y : α}
    (h : before ++ [x] = before' ++ y :: after) :
    (before = before' ∧ x = y ∧ after = []) ∨ ∃ mid, before = before' ++ y :: mid := by
  rcases List.eq_nil_or_concat after with rfl | ⟨mid, z, rfl⟩
  · obtain ⟨hbefore, hlast⟩ := List.append_inj' h rfl
    exact .inl ⟨hbefore, List.singleton_inj.mp hlast, rfl⟩
  · rw [List.concat_eq_append, ← List.cons_append, ← List.append_assoc] at h
    exact .inr ⟨mid, (List.append_inj' h rfl).1⟩

/-- As many tokens before the end as the right side is open, a position is that deep. -/
theorem closes_depth (h : Stand r d node s k) (hcloses : Closes n node.content)
    (hk : k + n = Fragment.size node.content) : r.depth = d + n := by
  induction n generalizing d node s k with
  | zero =>
    have := h.depth_le_rest
    have := h.le_depth
    omega
  | succ n ih =>
    obtain ⟨before, last, hlast, hinner, hcloses⟩ := closes_succ.mp hcloses
    have hle := closes_le hcloses
    have hsize := congrArg Fragment.size hlast
    rw [Fragment.size_append, Fragment.size, hinner.nodeSize, Fragment.size] at hsize
    cases h with
    | @seam _ _ _ before' after hlevel hdepth hpos hparent hcontent =>
      rcases List.eq_nil_or_concat after with rfl | ⟨mid, y, rfl⟩
      · rw [List.append_nil] at hcontent
        rw [hcontent] at hk
        omega
      · rw [hlast, List.concat_eq_append, ← List.append_assoc] at hcontent
        have hbefore := congrArg Fragment.size (List.append_inj' hcontent rfl).1
        rw [Fragment.size_append] at hbefore
        omega
    | @inText _ _ _ before' piece after units off hlevel hdepth hpos hparent hcontent hunits hoff hlt =>
      rcases split_last (hlast.symm.trans hcontent) with ⟨-, rfl, -⟩ | ⟨mid, rfl⟩
      · exact absurd hunits (by simp [hinner.noText])
      · rw [Fragment.size_append, Fragment.size, Node.nodeSize_text hunits] at hsize
        omega
    | @down _ _ _ before' child after k' hlevel hdepth hcontent hcinner hle' hstand =>
      rcases split_last (hlast.symm.trans hcontent) with ⟨rfl, rfl, -⟩ | ⟨mid, rfl⟩
      · have := ih hstand hcloses (by omega)
        omega
      · rw [Fragment.size_append, Fragment.size, hcinner.nodeSize] at hsize
        omega

/-- As many tokens in as the left side is open, a position is that deep. -/
theorem opens_depth (h : Stand r d node s k) (hopens : Opens n node.content) (hk : k = n) : r.depth = d + n := by
  induction n generalizing d node s k with
  | zero =>
    have := h.depth_le
    have := h.le_depth
    omega
  | succ n ih =>
    cases hnode : node.content with
    | nil =>
      rw [hnode] at hopens
      exact hopens.elim
    | cons first rest =>
      rw [hnode] at hopens
      obtain ⟨hinner, hopens⟩ := hopens
      have hle := opens_le hopens
      cases h with
      | @seam _ _ _ before after hlevel hdepth hpos hparent hcontent =>
        rw [hnode] at hcontent
        cases before with
        | nil => simp [Fragment.size] at hk
        | cons first' rest' =>
          obtain ⟨rfl, -⟩ := List.cons.inj hcontent
          rw [Fragment.size, hinner.nodeSize] at hk
          omega
      | @inText _ _ _ before piece after units off hlevel hdepth hpos hparent hcontent hunits hoff hlt =>
        rw [hnode] at hcontent
        cases before with
        | nil =>
          obtain ⟨rfl, -⟩ := List.cons.inj hcontent
          exact absurd hunits (by simp [hinner.noText])
        | cons first' rest' =>
          obtain ⟨rfl, -⟩ := List.cons.inj hcontent
          rw [Fragment.size, hinner.nodeSize] at hk
          omega
      | @down _ _ _ before child after k' hlevel hdepth hcontent hcinner hle' hstand =>
        rw [hnode] at hcontent
        cases before with
        | nil =>
          obtain ⟨rfl, -⟩ := List.cons.inj hcontent
          have := ih hstand hopens (by simp [Fragment.size] at hk; omega)
          omega
        | cons first' rest' =>
          obtain ⟨rfl, -⟩ := List.cons.inj hcontent
          rw [Fragment.size, hinner.nodeSize] at hk
          omega

/-! ### The shells of a path around a slice -/

/-- A node that holds a fragment under so many nodes with one child each, all of these kinds. -/
inductive Shelled (Q : NodeId → Prop) (content : Fragment) : Nat → Node → Prop
  | core {node : Node} : node.content = content → Shelled Q content 0 node
  | shell {n : Nat} {node inner : Node} : node.content = [inner] → inner.Inner → Q inner.kind →
      Shelled Q content n inner → Shelled Q content (n + 1) node

variable {Q : NodeId → Prop}

theorem Shelled.size (h : Shelled Q content n node) : Fragment.size node.content = Fragment.size content + 2 * n := by
  induction h with
  | core h => rw [h, Nat.mul_zero, Nat.add_zero]
  | shell h hinner _ _ ih =>
    rw [h, Fragment.size, hinner.nodeSize, ih, Fragment.size]
    omega

theorem Shelled.holdsText (h : Shelled Q content n node) (hkind : ∀ kind, Q kind → kind ≠ S.textNode)
    (hcontent : HoldsText S content) : HoldsText S node.content := by
  induction h with
  | core h => rwa [h]
  | shell h hinner hq _ ih =>
    rw [h]
    refine ⟨Node.holdsText_iff.mpr ⟨?_, ih⟩, holdsText_nil⟩
    simp [hinner.not_isText, hkind _ hq]

theorem Shelled.closes {m : Nat} (h : Shelled Q content n node) (hcloses : Closes m content) :
    Closes (m + n) node.content := by
  induction h with
  | core h => rwa [h, Nat.add_zero]
  | shell h hinner _ _ ih => exact closes_succ.mpr ⟨[], _, h, hinner, ih⟩

theorem Shelled.opens {m : Nat} (h : Shelled Q content n node) (hopens : Opens m content) :
    Opens (m + n) node.content := by
  induction h with
  | core h => rwa [h, Nat.add_zero]
  | shell h hinner _ _ ih =>
    rw [h]
    exact ⟨hinner, ih⟩

/-- Without the tokens of its shells and its open sides, a shelled slice is the inside of the slice. -/
theorem Shelled.inside {openStart openEnd : Nat} (h : Shelled Q content n node) :
    ((tokens node.content).take (Fragment.size node.content - (openEnd + n))).drop (openStart + n) =
      ((tokens content).take (Fragment.size content - openEnd)).drop openStart := by
  induction h with
  | core h => rw [h, Nat.add_zero, Nat.add_zero]
  | @shell n node inner h hinner hholds hrest ih =>
    have hsize : Fragment.size node.content = Fragment.size inner.content + 2 := by
      rw [h, Fragment.size, hinner.nodeSize, Fragment.size]
    have htokens : tokens node.content = inner.openToken :: (tokens inner.content ++ [.closing]) := by
      rw [h, tokens_cons, hinner.tokens, tokens_nil, List.append_nil]
    rw [hsize, htokens, ← Nat.add_assoc openStart]
    by_cases hle : openEnd + n ≤ Fragment.size inner.content
    · rw [show Fragment.size inner.content + 2 - (openEnd + (n + 1)) =
          Fragment.size inner.content - (openEnd + n) + 1 by omega, List.take_succ_cons,
        List.drop_succ_cons, List.take_append_of_le_length (by rw [length_tokens]; omega), ih]
    · rw [show Fragment.size inner.content + 2 - (openEnd + (n + 1)) = 0 by omega, ← ih,
        Nat.sub_eq_zero_of_le (by omega)]
      simp

/-- A position between the ends of a shell's only child stands in that child. -/
theorem Stand.shelled (h : Stand r d node s k) (hnode : node.content = [child])
    (hinner : child.Inner) (hpos : 0 < k) (hlt : k < Fragment.size node.content) :
    ∃ s', Stand r (d + 1) child s' (k - 1) := by
  cases h with
  | @seam _ _ _ before after hlevel hdepth hpos' hparent hcontent =>
    rw [hnode] at hcontent
    cases before with
    | nil => simp [Fragment.size] at hpos
    | cons first rest =>
      obtain ⟨rfl, hrest⟩ := List.cons.inj hcontent
      obtain ⟨rfl, rfl⟩ := List.append_eq_nil_iff.mp hrest.symm
      rw [hnode] at hlt
      omega
  | @inText _ _ _ before piece after units off hlevel hdepth hpos' hparent hcontent hunits hoff hlt' =>
    rw [hnode] at hcontent
    rcases split_last ((List.nil_append _).trans hcontent) with ⟨rfl, rfl, -⟩ | ⟨mid, hmid⟩
    · exact absurd hunits (by simp [hinner.noText])
    · simp at hmid
  | @down _ _ _ before inner after k' hlevel hdepth hcontent hcinner hle hstand =>
    rw [hnode] at hcontent
    rcases split_last ((List.nil_append _).trans hcontent) with ⟨rfl, rfl, -⟩ | ⟨mid, hmid⟩
    · rw [show Fragment.size [] + 1 + k' - 1 = k' by simp [Fragment.size]]
      exact ⟨_, hstand⟩
    · simp at hmid

end Kodosi.Text
