import Kodosi.Text.Tokens

/-! Where a resolved position stands on each level of its path. -/

namespace Kodosi.Text

open Lib

variable {r : ResolvedPos} {d s k : Nat} {node child : Node}

/-- What `findIndex` finds: a seam between two children, or the child that the position is inside. -/
inductive Found (content : Fragment) (position : Nat) : Nat → Nat → Prop
  | seam {before after} : content = before ++ after → position = Fragment.size before →
      Found content position before.length (Fragment.size before)
  | inside {before child after} : content = before ++ child :: after →
      Fragment.size before < position → position < Fragment.size before + child.nodeSize →
      Found content position before.length (Fragment.size before)

variable {content : Fragment}

theorem findFrom_found {position : Nat} : ∀ {rest before : List Node} {i o : Nat},
    content = before ++ rest → Fragment.size before < position →
    Fragment.findFrom position rest before.length (Fragment.size before) = .ok (i, o) →
    Found content position i o
  | [], before, i, o, _, _, h => by simp [Fragment.findFrom, failed] at h
  | child :: rest, before, i, o, hcontent, hlt, h => by
    have hsize : Fragment.size (before ++ [child]) = Fragment.size before + child.nodeSize := by
      rw [Fragment.size_append]
      rfl
    have hsplit : content = (before ++ [child]) ++ rest := by simp [hcontent]
    unfold Fragment.findFrom at h
    split_ifs at h with hle heq
    · obtain ⟨rfl, rfl⟩ := Prod.mk.inj (Except.ok.inj h)
      have := Found.seam hsplit (by omega : position = _)
      rwa [hsize, List.length_append] at this
    · obtain ⟨rfl, rfl⟩ := Prod.mk.inj (Except.ok.inj h)
      exact .inside hcontent hlt (by omega)
    · refine findFrom_found hsplit (by omega) ?_
      rw [hsize, List.length_append]
      exact h

theorem findIndex_found {position i o : Nat} (h : Fragment.findIndex content position = .ok (i, o)) :
    Found content position i o := by
  unfold Fragment.findIndex at h
  split_ifs at h with hzero hall hout
  · obtain ⟨rfl, rfl⟩ := Prod.mk.inj (Except.ok.inj h)
    subst hzero
    exact .seam (List.nil_append _).symm rfl
  · obtain ⟨rfl, rfl⟩ := Prod.mk.inj (Except.ok.inj h)
    subst hall
    exact .seam (List.append_nil _).symm rfl
  · simp [failed] at h
  · exact findFrom_found (List.nil_append _).symm (by simp [Fragment.size]; omega) h

/-! ### Standing -/

/-- How a position stands on one level of its path, `k` into the content of a node that starts at
    `s`: at a seam of the node's children, inside a text, or somewhere in an inner child. -/
inductive Stand (r : ResolvedPos) : (d : Nat) → (node : Node) → (s k : Nat) → Prop
  | seam {d node s before after} :
      r.level d = .ok ⟨node, before.length, s + Fragment.size before⟩ → r.depth = d →
      r.pos = s + Fragment.size before → r.parentOffset = Fragment.size before →
      node.content = before ++ after → Stand r d node s (Fragment.size before)
  | inText {d node s before piece after units off} :
      r.level d = .ok ⟨node, before.length, s + Fragment.size before⟩ → r.depth = d →
      r.pos = s + (Fragment.size before + off) → r.parentOffset = Fragment.size before + off →
      node.content = before ++ piece :: after → piece.units = some units → 0 < off →
      off < units.length → Stand r d node s (Fragment.size before + off)
  | down {d node s before child after k} :
      r.level d = .ok ⟨node, before.length, s + Fragment.size before⟩ → d < r.depth →
      node.content = before ++ child :: after → child.Inner → k ≤ Fragment.size child.content →
      Stand r (d + 1) child (s + Fragment.size before + 1) k →
      Stand r d node s (Fragment.size before + 1 + k)

theorem Stand.level (h : Stand r d node s k) : ∃ i o, r.level d = .ok ⟨node, i, o⟩ := by
  cases h with
  | seam hlevel => exact ⟨_, _, hlevel⟩
  | inText hlevel => exact ⟨_, _, hlevel⟩
  | down hlevel => exact ⟨_, _, hlevel⟩

theorem Stand.node_eq (h : Stand r d node s k) : r.node d = .ok node := by
  obtain ⟨i, o, hlevel⟩ := h.level
  rw [ResolvedPos.node, hlevel]
  rfl

theorem level_depth_lt {l : Level} (h : r.level d = .ok l) : d ≤ r.depth := by
  have hlt : d < r.path.length := (List.getElem?_eq_some_iff.mp (index_ok.mp h)).1
  unfold ResolvedPos.depth
  omega

theorem Stand.le_depth (h : Stand r d node s k) : d ≤ r.depth := by
  obtain ⟨i, o, hlevel⟩ := h.level
  exact level_depth_lt hlevel

theorem Stand.pos_eq (h : Stand r d node s k) : r.pos = s + k := by
  induction h with
  | seam _ _ hpos => exact hpos
  | inText _ _ hpos => exact hpos
  | down _ _ _ _ _ _ ih => omega

/-- A position is inside the content of each node on its path. -/
theorem Stand.le_size (h : Stand r d node s k) : k ≤ Fragment.size node.content := by
  cases h with
  | seam _ _ _ _ hcontent =>
    rw [hcontent, Fragment.size_append]
    omega
  | inText _ _ _ _ hcontent hunits _ hlt =>
    rw [hcontent, Fragment.size_append, Fragment.size, Node.nodeSize_text hunits]
    omega
  | down _ _ hcontent hinner hle =>
    rw [hcontent, Fragment.size_append, Fragment.size, hinner.nodeSize]
    omega

/-- Each level below takes at least one token of what is before the position. -/
theorem Stand.depth_le (h : Stand r d node s k) : r.depth ≤ d + k := by
  induction h with
  | seam _ hdepth => omega
  | inText _ hdepth => omega
  | down _ _ _ _ _ _ ih => omega

/-- Each level below takes at least one token of what is behind the position. -/
theorem Stand.depth_le_rest (h : Stand r d node s k) : r.depth + k ≤ d + Fragment.size node.content := by
  induction h with
  | seam _ hdepth _ _ hcontent =>
    rw [hcontent, Fragment.size_append]
    omega
  | inText _ hdepth _ _ hcontent hunits _ hlt =>
    rw [hcontent, Fragment.size_append, Fragment.size, Node.nodeSize_text hunits]
    omega
  | down _ _ hcontent hinner hle _ ih =>
    rw [hcontent, Fragment.size_append, Fragment.size, hinner.nodeSize]
    omega

/-! ### Resolving -/

theorem child_ok {i : Nat} (hcontent : node.content = content) (h : node.child i = .ok child) :
    content[i]? = some child := by
  rw [← hcontent]
  exact require_ok.mp h

/-- A child that holds a position strictly inside it, and is no text, has an inside. -/
theorem inner_of_inside {n : Nat} (htext : child.isText = false) (hpos : 0 < n)
    (hlt : n < child.nodeSize) : child.Inner := by
  have hunits : child.units = none := by simpa [Node.isText] using htext
  refine ⟨hunits, ?_⟩
  by_contra hleaf
  have := Node.nodeSize_leaf hunits (by simpa using hleaf)
  omega

theorem resolveFrom_stand {start po : Nat} {path levels : List Level} {po' : Nat}
    (h : resolveFrom node start po path = .ok (levels, po')) :
    path <+: levels ∧ path.length < levels.length ∧ Stand ⟨start + po, levels, po'⟩ path.length node start po := by
  induction node, start, po, path using resolveFrom.induct generalizing levels po' with
  | case1 node start po path ih =>
    unfold resolveFrom at h
    obtain ⟨⟨i, o⟩, hfind, h⟩ := bind_ok h
    have hfound := findIndex_found hfind
    dsimp only at h
    split_ifs at h with hlt hrest
    · simp [panics] at h
    · obtain ⟨rfl, rfl⟩ := Prod.mk.inj (Except.ok.inj h)
      refine ⟨List.prefix_append _ _, by simp, ?_⟩
      cases hfound with
      | seam hcontent hpos =>
        subst hpos
        exact .seam (by simp [ResolvedPos.level, Lib.index]) (by simp [ResolvedPos.depth]) rfl rfl
          hcontent
      | inside hcontent hlo hhi => omega
    · obtain ⟨child, hchild, h⟩ := bind_ok h
      cases hfound with
      | seam hcontent hpos => omega
      | @inside before here after hcontent hlo hhi =>
        obtain rfl : here = child := by simpa using child_ok hcontent hchild
        obtain ⟨off, rfl⟩ := Nat.exists_eq_add_of_lt hlo
        split_ifs at h with htext
        · obtain ⟨rfl, rfl⟩ := Prod.mk.inj (Except.ok.inj h)
          refine ⟨List.prefix_append _ _, by simp, ?_⟩
          obtain ⟨units, hunits⟩ := Option.isSome_iff_exists.mp htext
          rw [Node.nodeSize_text hunits] at hhi
          exact .inText (by simp [ResolvedPos.level, Lib.index]) (by simp [ResolvedPos.depth]) rfl
            rfl hcontent hunits (Nat.succ_pos off) (by omega)
        · obtain ⟨hstarts, hlen, hstand⟩ := ih _ _ hlt hrest here h
          obtain ⟨below, rfl⟩ := hstarts
          have hinner : here.Inner :=
            inner_of_inside (by simpa using htext) (Nat.succ_pos off) (by omega)
          rw [hinner.nodeSize] at hhi
          have hk : Fragment.size before + off + 1 - Fragment.size before - 1 = off := by omega
          have hpos : start + Fragment.size before + 1 + off = start + (Fragment.size before + off + 1) := by
            omega
          rw [hk, hpos, List.length_append] at hstand
          have hdown := Stand.down (s := start) (by simp [ResolvedPos.level, Lib.index])
            (by simp [ResolvedPos.depth] at hlen ⊢; omega) hcontent hinner (by omega) hstand
          rw [show Fragment.size before + off + 1 = Fragment.size before + 1 + off by omega]
          refine ⟨(List.prefix_append _ _).trans (List.prefix_append _ _), by simp at hlen ⊢, ?_⟩
          rwa [show Fragment.size before + off + 1 = Fragment.size before + 1 + off by omega] at hdown

/-- A resolved position stands in its document, as far in as it says. -/
theorem resolve_stand {doc : Node} {pos : Nat} (h : doc.resolve pos = .ok r) : Stand r 0 doc 0 pos := by
  unfold Node.resolve at h
  split_ifs at h with hout
  · simp [failed] at h
  · obtain ⟨⟨levels, po⟩, hfrom, h⟩ := bind_ok h
    obtain ⟨-, -, hstand⟩ := resolveFrom_stand hfrom
    rw [← Except.ok.inj h]
    simpa using hstand

end Kodosi.Text
