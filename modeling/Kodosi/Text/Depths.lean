import Kodosi.Text.OffSides

/-! How deep a position is in a fragment, and that what is cut between two positions is valid off its
    sides that are open so deep. -/

namespace Kodosi.Text

open Lib

variable {S : Schema} {r : ResolvedPos} {d s k n m n' m' p lo hi : Nat} {node child : Node}
  {nodes out before after : List Node}

/-! ### Depths -/

mutual

/-- How deep a position inside a node is, the node counted. -/
def Node.depthAt : Node → Nat → Nat
  | .mk _ _ content _ text _, k =>
    match text with
    | some _ => 0
    | none => depthAt content (k - 1) + 1

/-- How many nodes of a fragment a position is inside of. -/
def depthAt : List Node → Nat → Nat
  | [], _ => 0
  | node :: rest, k =>
    if k = 0 then 0
    else if k < node.nodeSize then node.depthAt k
    else depthAt rest (k - node.nodeSize)

end

theorem depthAt_zero (nodes : List Node) : depthAt nodes 0 = 0 := by
  cases nodes with
  | nil => rfl
  | cons node rest => rw [depthAt, if_pos rfl]

theorem depthAt_skip (h : Fragment.size before ≤ k) :
    depthAt (before ++ after) k = depthAt after (k - Fragment.size before) := by
  induction before generalizing k with
  | nil => rfl
  | cons node rest ih =>
    rw [Fragment.size] at h ⊢
    rw [List.cons_append, depthAt]
    by_cases hk : k = 0
    · rw [if_pos hk, hk, Nat.zero_sub, depthAt_zero]
    · rw [if_neg hk, if_neg (by omega), ih (by omega), Nat.sub_sub]

theorem depthAt_cons (h : node.nodeSize ≤ k) : depthAt (node :: after) k = depthAt after (k - node.nodeSize) := by
  have hskip : depthAt ([node] ++ after) k = _ := depthAt_skip (by simpa [Fragment.size] using h)
  simpa [Fragment.size] using hskip

theorem depthAt_size (nodes : List Node) : depthAt nodes (Fragment.size nodes) = 0 := by
  have hskip : depthAt (nodes ++ []) (Fragment.size nodes) = _ := depthAt_skip le_rfl
  rwa [List.append_nil, Nat.sub_self, depthAt_zero] at hskip

theorem Node.Inner.depthAt (h : node.Inner) (k : Nat) : node.depthAt k = Text.depthAt node.content (k - 1) + 1 := by
  obtain ⟨htext, -⟩ := h
  cases node
  cases htext
  rfl

theorem depthAt_inner (hinner : node.Inner) (hpos : 0 < k) (hlt : k < node.nodeSize) :
    depthAt (node :: after) k = depthAt node.content (k - 1) + 1 := by
  rw [depthAt, if_neg (by omega), if_pos hlt, hinner.depthAt]

/-- A path goes as deep as its position is. -/
theorem Stand.depthAt (h : Stand r d node s k) : Text.depthAt node.content k + d = r.depth := by
  induction h with
  | seam _ hdepth _ _ hcontent =>
    rw [hcontent, depthAt_skip le_rfl, Nat.sub_self, depthAt_zero, Nat.zero_add, hdepth]
  | @inText _ _ _ before piece after units off _ hdepth _ _ hcontent hunits hoff hlt =>
    rw [hcontent, depthAt_skip (by omega), Nat.add_sub_cancel_left, Text.depthAt, if_neg (by omega),
      Node.nodeSize_text hunits, if_pos hlt, ← hdepth]
    cases piece
    cases hunits
    exact Nat.zero_add _
  | @down d _ _ before child after k _ _ hcontent hinner hle _ ih =>
    have hsize := hinner.nodeSize
    rw [hcontent, depthAt_skip (by omega), depthAt_inner hinner (by omega) (by omega),
      show Fragment.size before + 1 + k - Fragment.size before - 1 = k by omega]
    omega

/-! ### Off the open sides -/

theorem validOff_of_valid (h : node.valid S = true) : node.validOff S n m = true := by
  cases node
  simp [Node.validOff, h]

theorem validOff_of_allValid (h : allValid S nodes = true) : validOff S n m nodes = true := by
  induction nodes generalizing n m with
  | nil => rfl
  | cons node rest ih =>
    obtain ⟨hnode, hrest⟩ := Bool.and_eq_true_iff.mp h
    exact Bool.and_eq_true_iff.mpr ⟨validOff_of_valid hnode, ih hrest⟩

theorem Node.validOff_iff : node.validOff S n m = true ↔ node.valid S = true ∨
    ((0 < n ∨ 0 < m) ∧ node.Inner ∧ Text.validOff S (n - 1) (m - 1) node.content = true) := by
  cases node with
  | mk kind attrs content marks text leaf =>
    simp only [Node.validOff, Bool.or_eq_true, Bool.and_eq_true, decide_eq_true_eq,
      Option.isNone_iff_eq_none, Bool.not_eq_true', and_assoc]
    refine or_congr_right (and_congr_right fun _ => ?_)
    constructor
    · rintro ⟨htext, hleaf, h⟩
      exact ⟨⟨htext, hleaf⟩, h⟩
    · rintro ⟨hinner, h⟩
      exact ⟨hinner.1, hinner.2, h⟩

theorem validOff_zero : validOff S 0 0 nodes = true ↔ allValid S nodes = true := by
  refine ⟨fun h => ?_, validOff_of_allValid⟩
  induction nodes with
  | nil => rfl
  | cons node rest ih =>
    obtain ⟨hnode, hrest⟩ := Bool.and_eq_true_iff.mp h
    refine Bool.and_eq_true_iff.mpr ⟨?_, ih hrest⟩
    rw [ite_self] at hnode
    rcases Node.validOff_iff.mp hnode with h | ⟨h, -⟩
    · exact h
    · omega

mutual

theorem Node.validOff_mono {node : Node} {n m n' m' : Nat} (h : node.validOff S n m = true)
    (hn : n ≤ n') (hm : m ≤ m') : node.validOff S n' m' = true := by
  cases node with
  | mk kind attrs content marks text leaf =>
    rcases Node.validOff_iff.mp h with h | ⟨hopen, hinner, h⟩
    · exact validOff_of_valid h
    · exact Node.validOff_iff.mpr (.inr ⟨by omega, hinner,
        Text.validOff_mono h (by omega) (by omega)⟩)

theorem validOff_mono {nodes : List Node} {n m n' m' : Nat} (h : validOff S n m nodes = true)
    (hn : n ≤ n') (hm : m ≤ m') : validOff S n' m' nodes = true := by
  cases nodes with
  | nil => rfl
  | cons node rest =>
    obtain ⟨hnode, hrest⟩ := Bool.and_eq_true_iff.mp h
    refine Bool.and_eq_true_iff.mpr ⟨Node.validOff_mono hnode hn ?_, validOff_mono hrest le_rfl hm⟩
    split
    · exact hm
    · exact le_rfl

end

/-! ### Cutting -/

theorem cutUnits_valid {units : List UInt16} (h : node.valid S = true) (hbuilt : node.Built S)
    (htext : node.isText = true) (hout : cutUnits node units lo hi = .ok child) :
    child.valid S = true := by
  have hproper := Node.proper_of_valid h hbuilt
  unfold cutUnits at hout
  split_ifs at hout
  · obtain rfl := Except.ok.inj hout
    exact h
  · obtain rfl := Except.ok.inj hout
    exact (withUnits_proper hproper htext rfl _).isValid
  · simp [failed] at hout

mutual

theorem nodeCut_validOff {node out : Node} {lo hi : Nat} (hinner : node.Inner) (h : node.valid S = true)
    (hbuilt : node.Built S) (hhi : hi ≤ Fragment.size node.content) (hout : node.cut lo hi = .ok out) :
    out.valid S = true ∨ out.Inner ∧
      validOff S (depthAt node.content lo) (depthAt node.content hi) out.content = true := by
  cases node with
  | mk kind attrs content marks text leaf =>
    obtain ⟨htext, hleaf⟩ := hinner
    cases htext
    cases hleaf
    unfold Node.cut at hout
    by_cases hall : lo = 0 ∧ hi = Fragment.size content
    · rw [if_pos hall] at hout
      obtain rfl := Except.ok.inj hout
      exact .inl h
    · rw [if_neg hall] at hout
      obtain ⟨cut, hcut, hout⟩ := bind_ok hout
      obtain rfl := Except.ok.inj hout
      refine .inr ⟨⟨rfl, rfl⟩, ?_⟩
      unfold cutWith at hcut
      rw [if_neg hall] at hcut
      by_cases hlt : lo < hi
      · rw [if_pos hlt] at hcut
        exact cutFrom_validOff (p := 0) (valid_iff.mp h).2 hbuilt.2 hcut
      · rw [if_neg hlt] at hcut
        obtain rfl := Except.ok.inj hcut
        rfl

theorem cutFrom_validOff {nodes out : List Node} {p lo hi : Nat} (h : allValid S nodes = true)
    (hbuilt : Built S nodes) (hout : cutFrom nodes p lo hi = .ok out) :
    validOff S (depthAt nodes (lo - p)) (depthAt nodes (hi - p)) out = true := by
  cases nodes with
  | nil =>
    unfold cutFrom at hout
    split_ifs at hout
    · simp [failed] at hout
    · obtain rfl := Except.ok.inj hout
      rfl
  | cons child rest =>
    obtain ⟨hchild, hrest⟩ := Bool.and_eq_true_iff.mp h
    unfold cutFrom at hout
    by_cases hend : hi ≤ p
    · rw [if_pos hend] at hout
      obtain rfl := Except.ok.inj hout
      rfl
    rw [if_neg hend] at hout
    by_cases hstart : lo < p + child.nodeSize
    · rw [if_pos hstart] at hout
      obtain ⟨kept, hkept, hout⟩ := bind_ok hout
      obtain ⟨tail, htail, hout⟩ := bind_ok hout
      obtain rfl := Except.ok.inj hout
      have htailoff := cutFrom_validOff hrest hbuilt.2 htail
      rw [show lo - (p + child.nodeSize) = 0 by omega, depthAt_zero] at htailoff
      have hshort : hi < p + child.nodeSize → tail = [] := fun hlt => cutFrom_done (by omega) htail
      refine Bool.and_eq_true_iff.mpr ⟨?_, ?_⟩
      · by_cases hpart : p < lo ∨ hi < p + child.nodeSize
        · rw [if_pos hpart] at hkept
          cases hunits : child.units with
          | some units =>
            rw [hunits] at hkept
            dsimp only at hkept
            rw [cut_text hunits] at hkept
            exact validOff_of_valid (cutUnits_valid hchild hbuilt.1 (isText_of_units hunits) hkept)
          | none =>
            rw [hunits] at hkept
            dsimp only at hkept
            have hinner : child.Inner := by
              refine ⟨hunits, ?_⟩
              by_contra hleaf
              have := Node.nodeSize_leaf hunits (by simpa using hleaf)
              omega
            have hsize := hinner.nodeSize
            rcases nodeCut_validOff hinner hchild hbuilt.1 (Nat.min_le_left _ _) hkept with h | ⟨hkinner, h⟩
            · exact validOff_of_valid h
            · -- the open depth on each side that the cut goes through
              have hleft : p < lo → depthAt (child :: rest) (lo - p) =
                  depthAt child.content (lo - (p + 1)) + 1 := fun hlt => by
                rw [depthAt_inner hinner (by omega) (by omega), Nat.sub_sub]
              have hright : hi < p + child.nodeSize → depthAt (child :: rest) (hi - p) =
                  depthAt child.content (hi - (p + 1)) + 1 := fun hlt => by
                rw [depthAt_inner hinner (by omega) (by omega), Nat.sub_sub]
              refine Node.validOff_iff.mpr (.inr ⟨?_, hkinner, validOff_mono h ?_ ?_⟩)
              · rcases hpart with hlt | hlt
                · rw [hleft hlt]
                  exact .inl (Nat.succ_pos _)
                · rw [hright hlt, if_pos (hshort hlt)]
                  exact .inr (Nat.succ_pos _)
              · by_cases hlt : p < lo
                · rw [hleft hlt, Nat.add_sub_cancel]
                · rw [show lo - (p + 1) = 0 by omega, depthAt_zero]
                  exact Nat.zero_le _
              · by_cases hlt : hi < p + child.nodeSize
                · rw [hright hlt, if_pos (hshort hlt), Nat.add_sub_cancel, Nat.min_eq_right (by omega)]
                · rw [Nat.min_eq_left (by omega), depthAt_size]
                  exact Nat.zero_le _
        · rw [if_neg hpart] at hkept
          obtain rfl := Except.ok.inj hkept
          exact validOff_of_valid hchild
      · by_cases hlt : hi < p + child.nodeSize
        · rw [hshort hlt]
          rfl
        · rwa [depthAt_cons (by omega), Nat.sub_sub]
    · rw [if_neg hstart] at hout
      have hoff := cutFrom_validOff hrest hbuilt.2 hout
      by_cases hlt : hi < p + child.nodeSize
      · rw [cutFrom_done (by omega) hout]
        rfl
      · rwa [depthAt_cons (by omega), depthAt_cons (by omega), Nat.sub_sub, Nat.sub_sub]

end

/-- What is cut between two positions is valid off its sides, which are open as deep as the positions
    are. -/
theorem cut_validOff (h : allValid S nodes = true) (hbuilt : Built S nodes)
    (hout : Fragment.cut nodes lo hi = .ok out) :
    validOff S (depthAt nodes lo) (depthAt nodes hi) out = true := by
  unfold Fragment.cut cutWith at hout
  split_ifs at hout
  · obtain rfl := Except.ok.inj hout
    exact validOff_of_allValid h
  · exact cutFrom_validOff (p := 0) h hbuilt hout
  · obtain rfl := Except.ok.inj hout
    rfl

end Kodosi.Text
