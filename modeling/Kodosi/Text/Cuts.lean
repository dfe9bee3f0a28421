import Kodosi.Text.Splice

/-! Cutting the children of a node at a position that is not inside an inner child: what is kept are the
    tokens on one side of it. -/

namespace Kodosi.Text

open Lib

variable {S : Schema} {lo hi p : Nat} {before after out : List Node} {piece : Node}
  {units : List UInt16} {off : Nat}

/-! ### The loop -/

theorem cutFrom_done (hle : hi ≤ p) (h : cutFrom after p lo hi = .ok out) : out = [] := by
  cases after with
  | nil =>
    unfold cutFrom at h
    rw [if_neg (by omega)] at h
    exact (Except.ok.inj h).symm
  | cons child rest =>
    unfold cutFrom at h
    rw [if_pos hle] at h
    exact (Except.ok.inj h).symm

/-- Children that are all before the cut are passed over. -/
theorem cutFrom_skip (hlo : p + Fragment.size before ≤ lo) (hlt : lo < hi)
    (h : cutFrom (before ++ after) p lo hi = .ok out) :
    cutFrom after (p + Fragment.size before) lo hi = .ok out := by
  induction before generalizing p with
  | nil => exact h
  | cons child rest ih =>
    rw [Fragment.size] at hlo ⊢
    rw [List.cons_append] at h
    unfold cutFrom at h
    rw [if_neg (by omega), if_neg (by omega)] at h
    have := ih (by omega) h
    rwa [Nat.add_assoc] at this

/-- Children that are all inside the cut are kept as they are; one without size may be left out. -/
theorem cutFrom_keep (hlo : lo ≤ p) (hhi : p + Fragment.size before ≤ hi) (hbefore : HoldsText S before)
    (h : cutFrom (before ++ after) p lo hi = .ok out) :
    ∃ kept, tokens out = tokens before ++ tokens kept ∧ (HoldsText S kept → HoldsText S out) ∧
      (cutFrom after (p + Fragment.size before) lo hi = .ok kept ∨
        kept = [] ∧ hi ≤ p + Fragment.size before) := by
  induction before generalizing p out with
  | nil => exact ⟨out, rfl, id, .inl h⟩
  | cons child rest ih =>
    rw [Fragment.size] at hhi ⊢
    rw [← Nat.add_assoc] at hhi ⊢
    rw [List.cons_append] at h
    unfold cutFrom at h
    split_ifs at h with hend hstart hpart
    · refine ⟨[], ?_, fun _ => Except.ok.inj h ▸ holdsText_nil, .inr ⟨rfl, by omega⟩⟩
      rw [← Except.ok.inj h, tokens_of_size_zero (show Fragment.size (child :: rest) = 0 by
        rw [Fragment.size]; omega)]
      rfl
    · omega
    · obtain ⟨kept, hkept, h⟩ := bind_ok h
      obtain rfl := Except.ok.inj hkept
      obtain ⟨next, hnext, h⟩ := bind_ok h
      obtain rfl := Except.ok.inj h
      obtain ⟨kept, htokens, hholds, hrest⟩ := ih (by omega) hhi hbefore.2 hnext
      refine ⟨kept, ?_, fun hk => ⟨hbefore.1, hholds hk⟩, hrest⟩
      rw [tokens_cons, htokens, tokens_cons, List.append_assoc]
    · obtain ⟨kept, htokens, hholds, hrest⟩ := ih (by omega) hhi hbefore.2 h
      have hzero : child.tokens = [] := by
        rw [← List.length_eq_zero_iff, Node.length_tokens]
        omega
      exact ⟨kept, by rw [htokens, tokens_cons, hzero]; rfl, hholds, hrest⟩

/-! ### At a position -/

variable {r : ResolvedPos} {d s k : Nat} {node : Node}

theorem cut_before (h : Stand r d node s k) (hdepth : r.depth = d) (hnode : HoldsText S node.content)
    (hout : Fragment.cut node.content 0 k = .ok out) :
    tokens out = (tokens node.content).take k ∧ HoldsText S out := by
  unfold Fragment.cut cutWith at hout
  split_ifs at hout with hall hlt
  · obtain rfl := Except.ok.inj hout
    rw [hall.2, ← length_tokens, List.take_length]
    exact ⟨rfl, hnode⟩
  · cases h with
    | down hdown => omega
    | @seam _ _ _ before after hlevel _ hpos hparent hcontent =>
      rw [hcontent] at hnode hout ⊢
      obtain ⟨kept, htokens, hholds, hrest⟩ := cutFrom_keep (Nat.le_refl 0) (by omega)
        (holdsText_append.mp hnode).1 hout
      obtain rfl : kept = [] := by
        rcases hrest with hrest | ⟨rfl, -⟩
        · exact cutFrom_done (by omega) hrest
        · rfl
      refine ⟨?_, hholds holdsText_nil⟩
      rw [htokens, tokens_append, List.take_left' (length_tokens _)]
      simp
    | @inText _ _ _ before piece after units off hlevel _ hpos hparent hcontent hunits hoff hoffs =>
      rw [hcontent] at hnode hout ⊢
      have hsize := Node.nodeSize_text hunits
      obtain ⟨hbefore, hpiece, -⟩ := holdsText_append.mp hnode
      obtain ⟨kept, htokens, hholds, hrest⟩ := cutFrom_keep (Nat.le_refl 0) (by omega) hbefore hout
      rcases hrest with hrest | ⟨-, hle⟩
      · unfold cutFrom at hrest
        rw [if_neg (by omega), if_pos (by omega), if_pos (.inr (by omega)), hunits] at hrest
        dsimp only at hrest
        rw [show 0 - (0 + Fragment.size before) = 0 by omega,
          show min units.length (Fragment.size before + off - (0 + Fragment.size before)) = off by omega,
          cut_front hunits hoffs] at hrest
        obtain ⟨cut, hcut, hrest⟩ := bind_ok hrest
        obtain rfl := Except.ok.inj hcut
        obtain ⟨none_, hnone, hrest⟩ := bind_ok hrest
        obtain rfl := cutFrom_done (by omega) hnone
        obtain rfl := Except.ok.inj hrest
        refine ⟨?_, hholds ⟨hpiece.withUnits (isText_of_units hunits) _, trivial⟩⟩
        rw [htokens, tokens_cons, front_tokens hunits, tokens_append, tokens_cons, tokens_nil,
          List.append_nil, ← length_tokens before, List.take_length_add_append,
          List.take_append_of_le_length (by rw [Node.length_tokens]; omega)]
      · omega
  · obtain rfl : k = 0 := by omega
    obtain rfl := Except.ok.inj hout
    exact ⟨rfl, holdsText_nil⟩

theorem cut_after (h : Stand r d node s k) (hdepth : r.depth = d) (hnode : HoldsText S node.content)
    (hout : Fragment.cutEnd node.content k = .ok out) :
    tokens out = (tokens node.content).drop k ∧ HoldsText S out := by
  unfold Fragment.cutEnd Fragment.cut cutWith at hout
  split_ifs at hout with hall hlt
  · obtain rfl := Except.ok.inj hout
    exact ⟨by rw [hall.1]; rfl, hnode⟩
  · -- from the first child that is kept whole on, all are
    have keep : ∀ {p : Nat} {rest out : List Node}, k ≤ p → HoldsText S rest →
        Fragment.size node.content = p + Fragment.size rest →
        cutFrom rest p k (Fragment.size node.content) = .ok out →
        tokens out = tokens rest ∧ HoldsText S out := fun {p rest out} hle hrest hsize hout => by
      rw [← List.append_nil rest] at hout
      obtain ⟨kept, htokens, hholds, hdone⟩ := cutFrom_keep hle hsize.ge hrest hout
      obtain rfl : kept = [] := by
        rcases hdone with hdone | ⟨rfl, -⟩
        · exact cutFrom_done hsize.le hdone
        · rfl
      exact ⟨by rw [htokens]; simp, hholds holdsText_nil⟩
    cases h with
    | down hdown => omega
    | @seam _ _ _ before after hlevel _ hpos hparent hcontent =>
      have hsize := congrArg Fragment.size hcontent
      rw [Fragment.size_append] at hsize
      have hafter := (holdsText_append.mp (hcontent ▸ hnode)).2
      have hrest : cutFrom after (0 + Fragment.size before) _ _ = .ok out :=
        cutFrom_skip (by omega) hlt (by rw [← hcontent]; exact hout)
      rw [Nat.zero_add] at hrest
      obtain ⟨htokens, hholds⟩ := keep (Nat.le_refl _) hafter hsize hrest
      refine ⟨?_, hholds⟩
      rw [htokens, hcontent, tokens_append, List.drop_left' (length_tokens _)]
    | @inText _ _ _ before piece after units off hlevel _ hpos hparent hcontent hunits hoff hoffs =>
      have hsize := congrArg Fragment.size hcontent
      have hpsize := Node.nodeSize_text hunits
      rw [Fragment.size_append, Fragment.size] at hsize
      obtain ⟨-, hpiece, hafter⟩ := holdsText_append.mp (hcontent ▸ hnode)
      have hrest : cutFrom (piece :: after) (0 + Fragment.size before) _ _ = .ok out :=
        cutFrom_skip (by omega) hlt (by rw [← hcontent]; exact hout)
      rw [Nat.zero_add] at hrest
      unfold cutFrom at hrest
      rw [if_neg (by omega), if_pos (by omega), if_pos (.inl (by omega)), hunits] at hrest
      dsimp only at hrest
      rw [show Fragment.size before + off - Fragment.size before = off by omega,
        show min units.length (Fragment.size node.content - Fragment.size before) = piece.nodeSize by
          omega, cut_back hunits hoff hoffs] at hrest
      obtain ⟨cut, hcut, hrest⟩ := bind_ok hrest
      obtain rfl := Except.ok.inj hcut
      obtain ⟨next, hnext, hrest⟩ := bind_ok hrest
      obtain rfl := Except.ok.inj hrest
      obtain ⟨htokens, hholds⟩ := keep (by omega) hafter (by omega) hnext
      refine ⟨?_, hpiece.withUnits (isText_of_units hunits) _, hholds⟩
      rw [tokens_cons, htokens, back_tokens hunits, hcontent, tokens_append, tokens_cons,
        ← length_tokens before, List.drop_length_add_append,
        List.drop_append_of_le_length (by rw [Node.length_tokens]; omega)]
  · obtain rfl := Except.ok.inj hout
    refine ⟨?_, holdsText_nil⟩
    rw [List.drop_of_length_le (by rw [length_tokens]; omega)]
    rfl

end Kodosi.Text
