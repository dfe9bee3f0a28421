import Kodosi.Text.Calm

/-! The open sides of what a document is cut into, and of fragments whose nodes are mapped or that
    something is inserted into. -/

namespace Kodosi.Text

open Lib

variable {S : Schema} {r : ResolvedPos} {d s k n lo hi p : Nat} {node child : Node}
  {content before after out : List Node}

/-! ### Cutting -/

theorem inner_cut {kept : Node} (hinner : child.Inner) (h : child.cut lo hi = .ok kept) :
    kept.Inner ∧ (kept.content = child.content ∧ lo = 0 ∧ hi = Fragment.size child.content ∨
      Fragment.cut child.content lo hi = .ok kept.content) := by
  obtain ⟨htext, hleaf⟩ := hinner
  cases child with
  | mk kind attrs content marks text leaf =>
    cases htext
    cases hleaf
    unfold Node.cut at h
    by_cases hall : lo = 0 ∧ hi = Fragment.size content
    · rw [if_pos hall] at h
      obtain rfl := Except.ok.inj h
      exact ⟨⟨rfl, rfl⟩, .inl ⟨rfl, hall⟩⟩
    · rw [if_neg hall] at h
      obtain ⟨cut, hcut, h⟩ := bind_ok h
      obtain rfl := Except.ok.inj h
      exact ⟨⟨rfl, rfl⟩, .inr hcut⟩

/-- A cut that starts inside an inner child keeps that child as its first one. -/
theorem cut_from_inner (hcontent : content = before ++ child :: after) (hinner : child.Inner)
    (hk : k ≤ Fragment.size child.content) (hlt : Fragment.size before + 1 + k < hi)
    (h : Fragment.cut content (Fragment.size before + 1 + k) hi = .ok out) :
    ∃ kept rest, out = kept :: rest ∧
      child.cut k (min (Fragment.size child.content) (hi - (Fragment.size before + 1))) = .ok kept := by
  unfold Fragment.cut cutWith at h
  rw [if_neg (by omega), if_pos hlt, hcontent] at h
  have h := cutFrom_skip (p := 0) (by omega) hlt h
  rw [Nat.zero_add] at h
  unfold cutFrom at h
  rw [if_neg (by omega), hinner.nodeSize, if_pos (by omega), if_pos (.inl (by omega)), hinner.noText] at h
  obtain ⟨kept, hkept, h⟩ := bind_ok h
  obtain ⟨rest, -, h⟩ := bind_ok h
  refine ⟨kept, rest, (Except.ok.inj h).symm, ?_⟩
  rwa [show Fragment.size before + 1 + k - (Fragment.size before + 1) = k by omega] at hkept

/-- What is cut off from a position on is open to the left as deep as the position is below its node. -/
theorem opens_of_cut (h : Stand r d node s k) (hlt : k < hi)
    (hout : Fragment.cut node.content k hi = .ok out) : Opens (r.depth - d) out := by
  induction h generalizing hi out with
  | seam _ hdepth =>
    rw [hdepth, Nat.sub_self]
    trivial
  | inText _ hdepth =>
    rw [hdepth, Nat.sub_self]
    trivial
  | @down d _ _ before child after k _ hdepth hcontent hinner hle hstand ih =>
    obtain ⟨kept, rest, rfl, hkept⟩ := cut_from_inner hcontent hinner hle hlt hout
    obtain ⟨hkinner, hcut⟩ := inner_cut hinner hkept
    rw [show r.depth - d = r.depth - (d + 1) + 1 by omega]
    refine ⟨hkinner, ?_⟩
    have hdown := hstand.depth_le
    have hrest := hstand.depth_le_rest
    by_cases hzero : r.depth = d + 1
    · rw [hzero, Nat.sub_self]
      trivial
    · rcases hcut with ⟨-, hk, -⟩ | hcut
      · omega
      · exact ih (by omega) hcut

/-- A cut that ends inside an inner child keeps that child as its last one. -/
theorem cutFrom_upto (hinner : child.Inner) (hk : k ≤ Fragment.size child.content)
    (hhi : hi = p + Fragment.size before + 1 + k) (hlo : lo < hi)
    (h : cutFrom (before ++ child :: after) p lo hi = .ok out) :
    ∃ init kept, out = init ++ [kept] ∧ child.cut (lo - (p + Fragment.size before + 1)) k = .ok kept := by
  induction before generalizing p out with
  | nil =>
    rw [Fragment.size, Nat.add_zero] at hhi ⊢
    rw [List.nil_append] at h
    unfold cutFrom at h
    rw [if_neg (by omega), hinner.nodeSize, if_pos (by omega), if_pos (.inr (by omega)),
      hinner.noText] at h
    obtain ⟨kept, hkept, h⟩ := bind_ok h
    obtain ⟨rest, hrest, h⟩ := bind_ok h
    obtain rfl := cutFrom_done (by omega) hrest
    dsimp only at hkept
    rw [show hi - (p + 1) = k by omega, Nat.min_eq_right hk] at hkept
    exact ⟨[], kept, (Except.ok.inj h).symm, hkept⟩
  | cons first before ih =>
    rw [Fragment.size] at hhi ⊢
    rw [← Nat.add_assoc p] at hhi ⊢
    rw [List.cons_append] at h
    unfold cutFrom at h
    rw [if_neg (by omega)] at h
    by_cases hstart : lo < p + first.nodeSize
    · rw [if_pos hstart] at h
      obtain ⟨front, -, h⟩ := bind_ok h
      obtain ⟨rest, hrest, h⟩ := bind_ok h
      obtain ⟨init, kept, rfl, hkept⟩ := ih hhi hrest
      exact ⟨front :: init, kept, (Except.ok.inj h).symm, hkept⟩
    · rw [if_neg hstart] at h
      exact ih hhi h

/-- What is cut off up to a position is open to the right as deep as the position is below its node. -/
theorem closes_of_cut (h : Stand r d node s k) (hlt : lo < k)
    (hout : Fragment.cut node.content lo k = .ok out) : Closes (r.depth - d) out := by
  induction h generalizing lo out with
  | seam _ hdepth =>
    rw [hdepth, Nat.sub_self]
    trivial
  | inText _ hdepth =>
    rw [hdepth, Nat.sub_self]
    trivial
  | @down d _ _ before child after k _ hdepth hcontent hinner hle hstand ih =>
    have hsize := congrArg Fragment.size hcontent
    rw [Fragment.size_append, Fragment.size, hinner.nodeSize] at hsize
    unfold Fragment.cut cutWith at hout
    rw [if_neg (by omega), if_pos hlt, hcontent] at hout
    obtain ⟨init, kept, rfl, hkept⟩ := cutFrom_upto (p := 0) hinner hle (by omega) hlt hout
    obtain ⟨hkinner, hcut⟩ := inner_cut hinner hkept
    rw [show r.depth - d = r.depth - (d + 1) + 1 by omega]
    refine closes_succ.mpr ⟨init, kept, rfl, hkinner, ?_⟩
    have hdown := hstand.depth_le
    have hrest := hstand.depth_le_rest
    by_cases hzero : r.depth = d + 1
    · rw [hzero, Nat.sub_self]
      trivial
    · rcases hcut with ⟨-, -, hk⟩ | hcut
      · omega
      · exact ih (by omega) hcut

/-! ### The levels that two positions share -/

theorem size_lt_of_split {before' after' : List Node} (h : before ++ child :: after = before' ++ after') :
    Fragment.size before' ≤ Fragment.size before ∨ Fragment.size before + child.nodeSize ≤ Fragment.size before' := by
  rcases List.append_eq_append_iff.mp h with ⟨mid, rfl, hmid⟩ | ⟨mid, rfl, -⟩
  · cases mid with
    | nil => exact .inl (by rw [List.append_nil])
    | cons first rest =>
      obtain ⟨rfl, -⟩ := List.cons.inj hmid
      refine .inr ?_
      rw [Fragment.size_append, Fragment.size]
      omega
  · refine .inl ?_
    rw [Fragment.size_append]
    omega

/-- Two places in one list: they are the same, or one is before the other. -/
theorem split_trichotomy {α : Type} {before before' after after' : List α} {x y : α}
    (h : before ++ x :: after = before' ++ y :: after') :
    (before = before' ∧ x = y ∧ after = after') ∨ (∃ mid, before = before' ++ y :: mid) ∨
      ∃ mid, before' = before ++ x :: mid := by
  rcases List.append_eq_append_iff.mp h with ⟨mid, rfl, hmid⟩ | ⟨mid, rfl, hmid⟩
  · cases mid with
    | nil =>
      obtain ⟨rfl, rfl⟩ := List.cons.inj hmid
      exact .inl ⟨by simp, rfl, rfl⟩
    | cons z mid =>
      obtain ⟨rfl, -⟩ := List.cons.inj hmid
      exact .inr (.inr ⟨mid, rfl⟩)
  · cases mid with
    | nil =>
      obtain ⟨rfl, rfl⟩ := List.cons.inj hmid
      exact .inl ⟨by simp, rfl, rfl⟩
    | cons z mid =>
      obtain ⟨rfl, -⟩ := List.cons.inj hmid
      exact .inr (.inl ⟨mid, rfl⟩)

theorem size_split (before mid : List Node) (child : Node) :
    Fragment.size before + child.nodeSize ≤ Fragment.size (before ++ child :: mid) := by
  rw [Fragment.size_append, Fragment.size]
  omega

/-- A position within the content of an inner child stands in that child. -/
theorem Stand.into_child (h : Stand r d node s k) (hcontent : node.content = before ++ child :: after)
    (hinner : child.Inner) (hlo : Fragment.size before + 1 ≤ k)
    (hhi : k ≤ Fragment.size before + 1 + Fragment.size child.content) :
    d < r.depth ∧ Stand r (d + 1) child (s + Fragment.size before + 1) (k - (Fragment.size before + 1)) := by
  cases h with
  | @seam _ _ _ before' after' hlevel hdepth hpos hparent hcontent' =>
    rcases size_lt_of_split (hcontent.symm.trans hcontent') with h | h
    · omega
    · rw [hinner.nodeSize] at h
      omega
  | @inText _ _ _ before' piece after' units off hlevel hdepth hpos hparent hcontent' hunits hoff hlt =>
    rcases split_trichotomy (hcontent.symm.trans hcontent') with ⟨-, rfl, -⟩ | ⟨mid, rfl⟩ | ⟨mid, rfl⟩
    · exact absurd hunits (by simp [hinner.noText])
    · have := size_split before' mid piece
      rw [Node.nodeSize_text hunits] at this
      omega
    · have := size_split before mid child
      rw [hinner.nodeSize] at this
      omega
  | @down _ _ _ before' child' after' k' hlevel hdepth hcontent' hinner' hle hstand =>
    rcases split_trichotomy (hcontent.symm.trans hcontent') with ⟨rfl, rfl, -⟩ | ⟨mid, rfl⟩ | ⟨mid, rfl⟩
    · rw [Nat.add_sub_cancel_left]
      exact ⟨hdepth, hstand⟩
    · have := size_split before' mid child'
      rw [hinner'.nodeSize] at this
      omega
    · have := size_split before mid child
      rw [hinner.nodeSize] at this
      omega

/-- A position within the content of a node on another's path stands in that node too. -/
theorem Stand.within {to_ : ResolvedPos} (h : Stand r d node s k) (hstart : r.start d = .ok s)
    (hto : s ≤ to_.pos → to_.pos ≤ s + Fragment.size node.content → ∃ k', Stand to_ d node s k') :
    ∀ {e : Nat}, d ≤ e → e ≤ r.depth →
      ∃ inside t j, Stand r e inside t j ∧ r.start e = .ok t ∧
        (t ≤ to_.pos → to_.pos ≤ t + Fragment.size inside.content → ∃ j', Stand to_ e inside t j') := by
  induction h with
  | @seam d _ _ _ _ hlevel hdepth hpos hparent hcontent =>
    intro e hde hedepth
    obtain rfl : e = d := by omega
    exact ⟨_, _, _, .seam hlevel hdepth hpos hparent hcontent, hstart, hto⟩
  | @inText d _ _ _ _ _ _ _ hlevel hdepth hpos hparent hcontent hunits hoff hlt =>
    intro e hde hedepth
    obtain rfl : e = d := by omega
    exact ⟨_, _, _, .inText hlevel hdepth hpos hparent hcontent hunits hoff hlt, hstart, hto⟩
  | @down d node s before child after k hlevel hdepth hcontent hinner hle hstand ih =>
    intro e hde hedepth
    by_cases he : e = d
    · subst he
      exact ⟨_, _, _, .down hlevel hdepth hcontent hinner hle hstand, hstart, hto⟩
    · refine ih ?_ (fun hlo hhi => ?_) (by omega) hedepth
      · rw [ResolvedPos.start, hlevel]
        rfl
      · have hsize := size_split before after child
        rw [← hcontent, hinner.nodeSize] at hsize
        obtain ⟨k', hstand'⟩ := hto (by omega) (by omega)
        have hpos := hstand'.pos_eq
        exact ⟨_, (hstand'.into_child hcontent hinner (by omega) (by omega)).2⟩

variable {doc : Node}

/-- Each level that two positions may share, and the one that `sharedFrom` finds. -/
theorem sharedFrom_ok {to_ : ResolvedPos} (h : doc.resolve lo = .ok r) (hto : doc.resolve hi = .ok to_) {e : Nat}
    (he : e ≤ r.depth) :
    ∃ shared inside s k j, r.sharedFrom hi e = .ok shared ∧ shared ≤ e ∧ r.start shared = .ok s ∧
      Stand r shared inside s k ∧ Stand to_ shared inside s j := by
  have hroot := resolve_stand hto
  have hpos : to_.pos = hi := hroot.pos_eq.trans (Nat.zero_add hi)
  induction e with
  | zero => exact ⟨0, doc, 0, lo, hi, rfl, le_rfl, rfl, resolve_stand h, hroot⟩
  | succ e ih =>
    obtain ⟨inside, s, k, hstand, hstart, hwithin⟩ :=
      (resolve_stand h).within rfl (fun _ _ => ⟨hi, hroot⟩) (Nat.zero_le _) he
    have hstop : r.stop (e + 1) = .ok (s + Fragment.size inside.content) := by
      rw [ResolvedPos.stop, ok_bind hstart, ok_bind hstand.node_eq]
      rfl
    rw [ResolvedPos.sharedFrom, ok_bind hstart, ok_bind hstop]
    by_cases hin : s ≤ hi ∧ hi ≤ s + Fragment.size inside.content
    · rw [if_pos hin]
      obtain ⟨j, hj⟩ := hwithin (by omega) (by omega)
      exact ⟨e + 1, inside, s, k, j, rfl, le_rfl, hstart, hstand, hj⟩
    · rw [if_neg hin]
      obtain ⟨shared, inside, s, k, j, hshared, hle, hrest⟩ := ih (by omega)
      exact ⟨shared, inside, s, k, j, hshared, by omega, hrest⟩

/-! ### Slices of a document -/

/-- What `Node::slice` takes between two positions: a cut of a node that holds them both, open as deep
    as each is below it. -/
theorem slice_ok {slice : Slice} (h : doc.slice lo hi = .ok slice) (hne : lo ≠ hi) :
    ∃ start stop depth node s k j, doc.resolve lo = .ok start ∧ doc.resolve hi = .ok stop ∧
      start.sharedDepth hi = .ok depth ∧ start.node depth = .ok node ∧ Stand start depth node s k ∧
      Stand stop depth node s j ∧ Fragment.cut node.content k j = .ok slice.content ∧
      slice.openStart = start.depth - depth ∧ slice.openEnd = stop.depth - depth := by
  unfold Node.slice at h
  rw [if_neg hne] at h
  obtain ⟨start, hstart, h⟩ := bind_ok h
  obtain ⟨stop, hstop, h⟩ := bind_ok h
  obtain ⟨depth, hdepth, h⟩ := bind_ok h
  obtain ⟨nodeStart, hnodeStart, h⟩ := bind_ok h
  obtain ⟨node, hnode, h⟩ := bind_ok h
  obtain ⟨k, hk, h⟩ := bind_ok h
  obtain ⟨j, hj, h⟩ := bind_ok h
  obtain ⟨content, hcontent, h⟩ := bind_ok h
  obtain ⟨openStart, hopenStart, h⟩ := bind_ok h
  obtain ⟨openEnd, hopenEnd, h⟩ := bind_ok h
  obtain rfl := Except.ok.inj h
  obtain ⟨shared, inside, s, k', j', hshared, -, hs, hstandStart, hstandStop⟩ :=
    sharedFrom_ok hstart hstop (le_refl start.depth)
  obtain rfl := Except.ok.inj (hdepth.symm.trans hshared)
  obtain rfl := Except.ok.inj (hnodeStart.symm.trans hs)
  obtain rfl := Except.ok.inj (hnode.symm.trans hstandStart.node_eq)
  have hposk := hstandStart.pos_eq
  have hposj := hstandStop.pos_eq
  obtain rfl : k = k' := by
    have := (sub64_ok.mp hk).2
    omega
  obtain rfl : j = j' := by
    have := (sub64_ok.mp hj).2
    omega
  exact ⟨start, stop, depth, node, nodeStart, k, j, hstart, hstop, hdepth, hnode, hstandStart,
    hstandStop, hcontent, (sub64_ok.mp hopenStart).2.symm, (sub64_ok.mp hopenEnd).2.symm⟩

/-- Taking a slice does not stop short. -/
theorem calm_slice (doc : Node) (lo hi : Nat) : Calm (doc.slice lo hi) := by
  refine calm_ite (fun _ => calm_ok _) fun _ => ?_
  refine calm_bind (calm_resolve _ _) fun start hstart => calm_bind (calm_resolve _ _) fun stop hstop => ?_
  obtain ⟨depth, inside, s, k, j, hshared, -, hs, hstandStart, hstandStop⟩ :=
    sharedFrom_ok hstart hstop (le_refl start.depth)
  have hposk := hstandStart.pos_eq
  have hposj := hstandStop.pos_eq
  rw [ResolvedPos.sharedDepth, ok_bind hshared, ok_bind hs, ok_bind hstandStart.node_eq,
    ok_bind (sub64_ok.mpr ⟨by omega, rfl⟩), ok_bind (sub64_ok.mpr ⟨by omega, rfl⟩)]
  refine calm_bind (calm_cut _ _ _) fun content _ => ?_
  rw [ok_bind (sub64_ok.mpr ⟨hstandStart.le_depth, rfl⟩),
    ok_bind (sub64_ok.mpr ⟨hstandStop.le_depth, rfl⟩)]
  exact calm_pure _

/-- A slice that is taken forwards is open as deep as it says. -/
theorem slice_whole {slice : Slice} (h : doc.slice lo hi = .ok slice) (hlt : lo < hi) : slice.Whole := by
  obtain ⟨start, stop, depth, node, s, k, j, hstart, hstop, -, -, hs, ht, hcut, hos, hoe⟩ :=
    slice_ok h (by omega)
  have hposk := hs.pos_eq
  have hposj := ht.pos_eq
  have := (resolve_stand hstart).pos_eq
  have := (resolve_stand hstop).pos_eq
  rw [Slice.Whole, hos, hoe]
  exact ⟨opens_of_cut hs (by omega) hcut, closes_of_cut ht (by omega) hcut⟩

end Kodosi.Text
