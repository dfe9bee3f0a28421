import Kodosi.Text.Depths
import Kodosi.Text.Inserts

/-! What a cut keeps, as tokens: the nodes that its left end is inside of open, then comes what lies between its ends, and
    the nodes that its right end is inside of close. -/

namespace Kodosi.Text

open Lib

variable {S : Schema} {lo hi p k n : Nat} {node child kept : Node} {nodes before after out : List Node}

mutual

/-- The openings of the nodes that a position inside a node is inside of, from the outside in. -/
def Node.openers : Node → Nat → List Token
  | .mk kind attrs content marks text _, k =>
    match text with
    | some _ => []
    | none => .opening kind attrs marks :: openers content (k - 1)

/-- The openings of the nodes of a fragment that a position is inside of. -/
def openers : List Node → Nat → List Token
  | [], _ => []
  | node :: rest, k =>
    if k = 0 then []
    else if k < node.nodeSize then node.openers k
    else openers rest (k - node.nodeSize)

end

theorem openers_zero (nodes : List Node) : openers nodes 0 = [] := by
  cases nodes with
  | nil => rfl
  | cons node rest => rw [openers, if_pos rfl]

theorem openers_skip (h : Fragment.size before ≤ k) :
    openers (before ++ after) k = openers after (k - Fragment.size before) := by
  induction before generalizing k with
  | nil => rfl
  | cons node rest ih =>
    rw [Fragment.size] at h ⊢
    rw [List.cons_append, openers]
    by_cases hk : k = 0
    · rw [if_pos hk, hk, Nat.zero_sub, openers_zero]
    · rw [if_neg hk, if_neg (by omega), ih (by omega), Nat.sub_sub]

theorem openers_cons (h : node.nodeSize ≤ k) : openers (node :: after) k = openers after (k - node.nodeSize) := by
  have hskip : openers ([node] ++ after) k = _ := openers_skip (by simpa [Fragment.size] using h)
  simpa [Fragment.size] using hskip

theorem openers_size (nodes : List Node) : openers nodes (Fragment.size nodes) = [] := by
  have hskip : openers (nodes ++ []) (Fragment.size nodes) = _ := openers_skip le_rfl
  rwa [List.append_nil, Nat.sub_self, openers_zero] at hskip

theorem openers_inner (hinner : node.Inner) (hpos : 0 < k) (hlt : k < node.nodeSize) :
    openers (node :: after) k = node.openToken :: openers node.content (k - 1) := by
  rw [openers, if_neg (by omega), if_pos hlt]
  obtain ⟨htext, -⟩ := hinner
  cases node
  cases htext
  rfl

variable {units : List UInt16}

theorem openers_text (hunits : node.units = some units) (hlt : k < node.nodeSize) : openers (node :: after) k = [] := by
  rw [openers, if_pos hlt]
  split
  · rfl
  · cases node
    cases hunits
    rfl

theorem depthAt_text (hunits : node.units = some units) (hlt : k < node.nodeSize) : depthAt (node :: after) k = 0 := by
  rw [depthAt, if_pos hlt]
  split
  · rfl
  · cases node
    cases hunits
    rfl

mutual

theorem Node.length_openers (node : Node) (k : Nat) : (node.openers k).length = node.depthAt k := by
  cases node with
  | mk kind attrs content marks text leaf =>
    cases text with
    | some units => rfl
    | none =>
      rw [Node.openers, Node.depthAt, List.length_cons, length_openers content (k - 1)]

/-- A position is as deep as there are nodes that it is inside of. -/
theorem length_openers (nodes : List Node) (k : Nat) : (openers nodes k).length = depthAt nodes k := by
  cases nodes with
  | nil => rfl
  | cons node rest =>
    rw [openers, depthAt]
    split
    · rfl
    · split
      · exact Node.length_openers node k
      · exact length_openers rest _

end

/-! ### Cuts -/

/-- The tokens of a cut between two positions of a fragment. -/
def cutTokens (nodes : List Node) (lo hi : Nat) : List Token :=
  openers nodes lo ++ ((tokens nodes).take hi).drop lo ++ List.replicate (depthAt nodes hi) .closing

theorem cutTokens_all (nodes : List Node) : cutTokens nodes 0 (Fragment.size nodes) = tokens nodes := by
  rw [cutTokens, openers_zero, depthAt_size, ← length_tokens, List.take_length]
  simp

theorem cutTokens_zero (nodes : List Node) : cutTokens nodes 0 0 = [] := by
  rw [cutTokens, openers_zero, depthAt_zero]
  simp

theorem cutTokens_size (nodes : List Node) : cutTokens nodes (Fragment.size nodes) (Fragment.size nodes) = [] := by
  rw [cutTokens, openers_size, depthAt_size, ← length_tokens, List.take_length, List.drop_length]
  simp

/-- The children before a cut have no part in it. -/
theorem cutTokens_skip (hlo : node.nodeSize ≤ lo) (hhi : node.nodeSize ≤ hi) :
    cutTokens (node :: after) lo hi = cutTokens after (lo - node.nodeSize) (hi - node.nodeSize) := by
  have hlength := Node.length_tokens node
  rw [cutTokens, cutTokens, openers_cons hlo, depthAt_cons hhi, tokens_cons, List.take_append, hlength,
    List.take_of_length_le (by omega), List.drop_append, hlength, List.drop_of_length_le (by omega), List.nil_append]

/-- A cut takes from each child what lies between its ends. -/
theorem cutTokens_cons (hlo : lo < node.nodeSize ∨ lo = 0) :
    cutTokens (node :: after) lo hi = cutTokens [node] lo (min node.nodeSize hi) ++ cutTokens after 0 (hi - node.nodeSize) := by
  have hlength := Node.length_tokens node
  have hopeners : openers (node :: after) lo = openers [node] lo := by
    rcases hlo with hlo | rfl
    · rw [openers, openers, if_pos hlo, if_pos hlo]
    · rw [openers_zero, openers_zero]
  have hall : ∀ n, node.nodeSize ≤ n → node.tokens.take n = node.tokens := fun n hn =>
    List.take_of_length_le (by omega)
  rw [cutTokens, cutTokens, cutTokens, hopeners, openers_zero, tokens_cons, tokens_cons, tokens_nil, List.append_nil,
    List.take_append, hlength, List.nil_append, List.drop_zero]
  by_cases hhi : node.nodeSize ≤ hi
  · rw [Nat.min_eq_left hhi, hall hi hhi, hall _ le_rfl, depthAt_cons hhi, depthAt_cons le_rfl, Nat.sub_self, depthAt,
      List.drop_append_of_le_length (by omega)]
    simp
  · have hdepth : depthAt (node :: after) hi = depthAt [node] hi := by
      rw [depthAt, depthAt, if_pos (by omega : hi < node.nodeSize), if_pos (by omega : hi < node.nodeSize)]
    rw [Nat.min_eq_right (by omega), show hi - node.nodeSize = 0 by omega, depthAt_zero, hdepth]
    simp

/-- Inside an inner node a cut takes its opening, what lies between its ends, and its closing. -/
theorem cutTokens_inner (hinner : node.Inner) (hlo : lo < node.nodeSize) (hhi : 0 < hi) (hle : lo ≤ hi) :
    cutTokens [node] lo (min node.nodeSize hi) =
      node.openToken :: (cutTokens node.content (lo - 1) (min (Fragment.size node.content) (hi - 1)) ++ [.closing]) := by
  have hsize := hinner.nodeSize
  have hlength := length_tokens node.content
  -- the front of the node's tokens, with the closings that are due there
  have hfront : ∃ m, min node.nodeSize hi = m + 1 ∧ ((tokens [node]).take (m + 1) = node.openToken ::
        (tokens node.content ++ [.closing]) ∧ depthAt [node] (m + 1) = 0 ∧ min (Fragment.size node.content) (hi - 1) = Fragment.size node.content ∨
      m ≤ Fragment.size node.content ∧ (tokens [node]).take (m + 1) = node.openToken :: (tokens node.content).take m ∧
        depthAt [node] (m + 1) = depthAt node.content m + 1 ∧ min (Fragment.size node.content) (hi - 1) = m) := by
    rw [tokens_cons, tokens_nil, List.append_nil, hinner.tokens]
    by_cases hall : node.nodeSize ≤ hi
    · refine ⟨Fragment.size node.content + 1, by omega, .inl ⟨?_, ?_, by omega⟩⟩
      · rw [List.take_of_length_le (by simp [hlength])]
      · rw [depthAt_cons (by omega), depthAt]
    · refine ⟨hi - 1, by omega, .inr ⟨by omega, ?_, ?_, by omega⟩⟩
      · rw [List.take_succ_cons, List.take_append_of_le_length (by omega)]
      · rw [depthAt_inner hinner (by omega) (by omega), Nat.add_sub_cancel]
  obtain ⟨m, hm, ⟨htake, hdepth, hmin⟩ | ⟨hle', htake, hdepth, hmin⟩⟩ := hfront
  · rw [cutTokens, cutTokens, hm, htake, hdepth, hmin, depthAt_size, ← hlength, List.take_length]
    cases lo with
    | zero => simp [openers_zero]
    | succ lo =>
      rw [openers_inner hinner (by omega) hlo, List.drop_succ_cons, List.drop_append_of_le_length (by omega)]
      simp
  · rw [cutTokens, cutTokens, hm, htake, hdepth, hmin, List.replicate_succ']
    cases lo with
    | zero => simp [openers_zero]
    | succ lo =>
      rw [openers_inner hinner (by omega) hlo, List.drop_succ_cons]
      simp

theorem cutUnits_tokens (hholds : node.HoldsText S) (hunits : node.units = some units)
    (h : cutUnits node units lo hi = .ok kept) : kept.tokens = (node.tokens.take hi).drop lo ∧ kept.HoldsText S := by
  unfold cutUnits at h
  split_ifs at h with hall hin
  · obtain rfl := Except.ok.inj h
    refine ⟨?_, hholds⟩
    rw [hall.1, hall.2, List.drop_zero, Node.tokens_text hunits, ← List.length_map (f := fun value => Token.unit value node.marks),
      List.take_length]
  · obtain rfl := Except.ok.inj h
    refine ⟨?_, hholds.withUnits (isText_of_units hunits) _⟩
    rw [Node.tokens_withUnits, Node.tokens_text hunits, List.map_drop, List.map_take]
  · simp [failed] at h

mutual

/-- The tokens of an inner node that is cut: between two of its positions, or beside all that it holds. -/
theorem nodeCut_tokens {node kept : Node} {lo hi : Nat} (hinner : node.Inner) (hholds : node.HoldsText S)
    (hhi : hi ≤ Fragment.size node.content) (hlt : lo < hi ∨ lo = 0 ∧ hi = 0 ∨ lo = hi ∧ hi = Fragment.size node.content)
    (h : node.cut lo hi = .ok kept) :
    kept.tokens = node.openToken :: (cutTokens node.content lo hi ++ [.closing]) ∧ kept.HoldsText S := by
  cases node with
  | mk kind attrs content marks text leaf =>
    have hcontent : HoldsText S content := Node.HoldsText.content hholds
    obtain ⟨htext, hleaf⟩ := hinner
    cases htext
    cases hleaf
    have hinner : (Node.mk kind attrs content marks none false).Inner := ⟨rfl, rfl⟩
    unfold Node.cut at h
    by_cases hall : lo = 0 ∧ hi = Fragment.size content
    · rw [if_pos hall] at h
      obtain rfl := Except.ok.inj h
      refine ⟨?_, hholds⟩
      rw [hinner.tokens, hall.1, hall.2]
      exact congrArg _ (congrArg (· ++ _) (cutTokens_all content).symm)
    · rw [if_neg hall] at h
      obtain ⟨cut, hcut, h⟩ := bind_ok h
      obtain rfl := Except.ok.inj h
      suffices htokens : tokens cut = cutTokens content lo hi ∧ HoldsText S cut by
        refine ⟨?_, hholds.copy htokens.2⟩
        exact (hinner.copy_tokens cut).trans (congrArg _ (congrArg (· ++ _) htokens.1))
      unfold cutWith at hcut
      rw [if_neg hall] at hcut
      by_cases hlt' : lo < hi
      · rw [if_pos hlt'] at hcut
        have htokens := cutFrom_tokens (p := 0) hcontent hlt' (Nat.zero_le hi) hcut
        exact htokens
      · rw [if_neg hlt'] at hcut
        obtain rfl := Except.ok.inj hcut
        refine ⟨?_, holdsText_nil⟩
        rcases hlt with hlt | ⟨rfl, rfl⟩ | ⟨rfl, rfl⟩
        · exact absurd hlt hlt'
        · exact (cutTokens_zero content).symm
        · exact (cutTokens_size content).symm

theorem cutFrom_tokens {nodes out : List Node} {p lo hi : Nat} (hholds : HoldsText S nodes) (hlt : lo < hi)
    (hp : p ≤ hi) (h : cutFrom nodes p lo hi = .ok out) :
    tokens out = cutTokens nodes (lo - p) (hi - p) ∧ HoldsText S out := by
  cases nodes with
  | nil =>
    unfold cutFrom at h
    split_ifs at h with hend
    · simp [failed] at h
    · obtain rfl := Except.ok.inj h
      exact ⟨by simp [cutTokens, openers, depthAt], holdsText_nil⟩
  | cons child rest =>
    unfold cutFrom at h
    by_cases hend : hi ≤ p
    · rw [if_pos hend] at h
      obtain rfl := Except.ok.inj h
      rw [show lo - p = 0 by omega, show hi - p = 0 by omega, cutTokens_zero]
      exact ⟨rfl, holdsText_nil⟩
    rw [if_neg hend] at h
    by_cases hstart : lo < p + child.nodeSize
    · rw [if_pos hstart] at h
      obtain ⟨kept, hkept, h⟩ := bind_ok h
      obtain ⟨tail, htail, h⟩ := bind_ok h
      obtain rfl := Except.ok.inj h
      have htail : tokens tail = cutTokens rest 0 (hi - p - child.nodeSize) ∧ HoldsText S tail := by
        by_cases hover : p + child.nodeSize ≤ hi
        · have := cutFrom_tokens hholds.2 hlt hover htail
          rwa [show lo - (p + child.nodeSize) = 0 by omega, ← Nat.sub_sub] at this
        · rw [cutFrom_done (by omega) htail, show hi - p - child.nodeSize = 0 by omega, cutTokens_zero]
          exact ⟨rfl, holdsText_nil⟩
      suffices hkept : kept.tokens = cutTokens [child] (lo - p) (min child.nodeSize (hi - p)) ∧ kept.HoldsText S by
        refine ⟨?_, hkept.2, htail.2⟩
        rw [tokens_cons, cutTokens_cons (by omega), hkept.1, htail.1]
      by_cases hpart : p < lo ∨ hi < p + child.nodeSize
      · rw [if_pos hpart] at hkept
        cases hunits : child.units with
        | some units =>
          rw [hunits] at hkept
          dsimp only at hkept
          rw [cut_text hunits] at hkept
          have hsize := Node.nodeSize_text hunits
          obtain ⟨htokens, hkholds⟩ := cutUnits_tokens hholds.1 hunits hkept
          refine ⟨?_, hkholds⟩
          have hdepth : depthAt [child] (min child.nodeSize (hi - p)) = 0 := by
            by_cases hover : child.nodeSize ≤ hi - p
            · rw [Nat.min_eq_left hover, depthAt_cons le_rfl, depthAt]
            · exact depthAt_text hunits (by omega)
          rw [htokens, cutTokens, openers_text hunits (by omega), hdepth, hsize]
          simp
        | none =>
          rw [hunits] at hkept
          dsimp only at hkept
          have hinner : child.Inner := by
            refine ⟨hunits, ?_⟩
            by_contra hleaf
            have := Node.nodeSize_leaf hunits (by simpa using hleaf)
            omega
          have hsize := hinner.nodeSize
          obtain ⟨htokens, hkholds⟩ :=
            nodeCut_tokens hinner hholds.1 (Nat.min_le_left _ _) (by omega) hkept
          refine ⟨?_, hkholds⟩
          rw [htokens, cutTokens_inner hinner (by omega) (by omega) (by omega), Nat.sub_sub, Nat.sub_sub]
      · rw [if_neg hpart] at hkept
        obtain rfl := Except.ok.inj hkept
        refine ⟨?_, hholds.1⟩
        have hall := cutTokens_all [child]
        rw [Fragment.size, Fragment.size, Nat.add_zero] at hall
        rw [show lo - p = 0 by omega, Nat.min_eq_left (by omega), hall]
        simp
    · rw [if_neg hstart] at h
      have htokens := cutFrom_tokens hholds.2 hlt (by omega) h
      rwa [← Nat.sub_sub, ← Nat.sub_sub, ← cutTokens_skip (by omega) (by omega)] at htokens

end

/-- What is cut between two positions, or beside all that there is. -/
theorem cut_tokens (hnodes : HoldsText S nodes)
    (hlt : lo < hi ∨ lo = 0 ∧ hi = 0 ∨ lo = hi ∧ hi = Fragment.size nodes) (h : Fragment.cut nodes lo hi = .ok out) :
    tokens out = cutTokens nodes lo hi ∧ HoldsText S out := by
  unfold Fragment.cut cutWith at h
  split_ifs at h with hall hlt'
  · obtain rfl := Except.ok.inj h
    rw [hall.1, hall.2, cutTokens_all]
    exact ⟨rfl, hnodes⟩
  · exact cutFrom_tokens (p := 0) hnodes hlt' (Nat.zero_le hi) h
  · obtain rfl := Except.ok.inj h
    refine ⟨?_, holdsText_nil⟩
    rcases hlt with hlt | ⟨rfl, rfl⟩ | ⟨rfl, rfl⟩
    · exact absurd hlt hlt'
    · exact (cutTokens_zero nodes).symm
    · exact (cutTokens_size nodes).symm

/-! ### Slices -/

section Slices

variable {r : ResolvedPos} {d e s s' k' : Nat} {inside doc : Node} {slice : Slice}

theorem Stand.front (h : Stand r d node s k) : ∃ before after, node.content = before ++ after ∧
    r.level d = .ok ⟨node, before.length, s + Fragment.size before⟩ := by
  cases h with
  | seam hlevel _ _ _ hcontent => exact ⟨_, _, hcontent, hlevel⟩
  | inText hlevel _ _ _ hcontent => exact ⟨_, _, hcontent, hlevel⟩
  | down hlevel _ hcontent => exact ⟨_, _, hcontent, hlevel⟩

/-- A path has one node on each level, and stands in it at one place. -/
theorem Stand.same (h : Stand r d node s k) (h' : Stand r d inside s' k') : node = inside ∧ s = s' ∧ k = k' := by
  have hpos := h.pos_eq
  have hpos' := h'.pos_eq
  obtain ⟨before, after, hcontent, hlevel⟩ := h.front
  obtain ⟨before', after', hcontent', hlevel'⟩ := h'.front
  obtain ⟨rfl, hindex, hoffset⟩ := Level.mk.inj (Except.ok.inj (hlevel.symm.trans hlevel'))
  obtain ⟨rfl, -⟩ := List.append_inj (hcontent.symm.trans hcontent') hindex
  exact ⟨rfl, by omega, by omega⟩

/-- The content of a node further down a path lies in the content of one further up. -/
theorem Stand.sits (h : Stand r d node s k) (h' : Stand r e inside s' k') (hle : d ≤ e) :
    (HoldsText S node.content → HoldsText S inside.content) ∧
      ∃ left right, tokens node.content = left ++ tokens inside.content ++ right ∧ s + left.length = s' := by
  induction h with
  | @seam d _ _ _ _ hlevel hdepth hpos hparent hcontent =>
    obtain rfl : d = e := by
      have := h'.le_depth
      omega
    obtain ⟨rfl, rfl, -⟩ := (Stand.seam hlevel hdepth hpos hparent hcontent).same h'
    exact ⟨id, [], [], by simp, rfl⟩
  | @inText d _ _ _ _ _ _ _ hlevel hdepth hpos hparent hcontent hunits hoff hlt =>
    obtain rfl : d = e := by
      have := h'.le_depth
      omega
    obtain ⟨rfl, rfl, -⟩ := (Stand.inText hlevel hdepth hpos hparent hcontent hunits hoff hlt).same h'
    exact ⟨id, [], [], by simp, rfl⟩
  | @down d node s before child after k hlevel hdepth hcontent hinner hsize hstand ih =>
    by_cases hde : d = e
    · subst hde
      obtain ⟨rfl, rfl, -⟩ := (Stand.down hlevel hdepth hcontent hinner hsize hstand).same h'
      exact ⟨id, [], [], by simp, rfl⟩
    · obtain ⟨hholds, left, right, htokens, hstart⟩ := ih (by omega)
      refine ⟨fun hnode => hholds (hnode.child hcontent).content, tokens before ++ child.openToken :: left, right ++ .closing :: tokens after, ?_, ?_⟩
      · rw [hcontent, tokens_append, tokens_cons, hinner.tokens, htokens]
        simp
      · rw [List.length_append, List.length_cons, length_tokens]
        omega

/-- The tokens of a slice: those of its range, behind what its left end opens and before what its right end closes. -/
theorem slice_tokens (hdoc : HoldsText S doc.content) (hle : lo ≤ hi) (h : doc.slice lo hi = .ok slice) :
    ∃ opened : List Token, opened.length = slice.openStart ∧
      tokens slice.content = opened ++ ((tokens doc.content).take hi).drop lo ++ List.replicate slice.openEnd .closing ∧
      HoldsText S slice.content := by
  by_cases hne : lo = hi
  · unfold Node.slice at h
    rw [if_pos hne] at h
    obtain rfl := Except.ok.inj h
    refine ⟨[], rfl, ?_, holdsText_nil⟩
    rw [hne, List.drop_of_length_le (by simp)]
    rfl
  · obtain ⟨start, stop, depth, node, s, k, j, hstart, hstop, -, hnode, hs, ht, hcut, hos, hoe⟩ := slice_ok h hne
    have hroot := resolve_stand hstart
    obtain ⟨hholds, left, right, hsplit, hleft⟩ := hroot.sits (S := S) hs (Nat.zero_le depth)
    have hposk := hs.pos_eq
    have hposj := ht.pos_eq
    have := hroot.pos_eq
    have := (resolve_stand hstop).pos_eq
    obtain ⟨htokens, hholds⟩ := cut_tokens (hholds hdoc) (.inl (by omega)) hcut
    have hk := hs.depthAt
    have hj := ht.depthAt
    refine ⟨openers node.content k, ?_, ?_, hholds⟩
    · rw [length_openers]
      omega
    · have hsize := ht.le_size
      have hrange : ((tokens doc.content).take hi).drop lo = ((tokens node.content).take j).drop k := by
        rw [hsplit, show hi = left.length + j by omega, show lo = left.length + k by omega, List.append_assoc,
          List.take_length_add_append, List.drop_length_add_append,
          List.take_append_of_le_length (by rw [length_tokens]; exact hsize)]
      rw [htokens, cutTokens, hrange, show depthAt node.content j = slice.openEnd by omega]

end Slices

/-! ### Inserting -/

variable {distance : Nat}

/-- At a place between two nodes or inside a text no node is open. -/
theorem depthAt_place {i o : Nat} (hfound : Found nodes distance i o)
    (hplace : o = distance ∨ nodes[i]?.any Node.isText = true) : depthAt nodes distance = 0 := by
  cases hfound with
  | @seam before after hnodes hdistance =>
    rw [hnodes, hdistance, depthAt_skip le_rfl, Nat.sub_self, depthAt_zero]
  | @inside before child after hnodes hlo hhi =>
    have htext : child.isText = true := by
      rcases hplace with h | h
      · omega
      · simpa [hnodes] using h
    obtain ⟨units, hunits⟩ := Option.isSome_iff_exists.mp htext
    rw [hnodes, depthAt_skip hlo.le, depthAt_text hunits (by omega)]

variable {insert : List Node} {parent : Option Node}

/-- An insertion stands between the tokens before its place and those behind it. -/
theorem insertInto_tokens {openStart openEnd : Int} (hnodes : HoldsText S nodes) (hinsert : HoldsText S insert)
    (h : insertInto S nodes distance insert openStart openEnd parent = .ok (some out)) :
    distance ≤ Fragment.size nodes ∧
      tokens out = (tokens nodes).take distance ++ tokens insert ++ (tokens nodes).drop distance ∧ HoldsText S out := by
  replace h := insertInto_inserted h
  induction h with
  | @here nodes before after distance i o hfound hplace hbefore hafter =>
    have hdepth := depthAt_place hfound hplace
    have hsize : distance ≤ Fragment.size nodes := by
      cases hfound with
      | seam hsplit hdistance =>
        have := congrArg Fragment.size hsplit
        rw [Fragment.size_append] at this
        omega
      | inside hsplit hlo hhi =>
        have := congrArg Fragment.size hsplit
        rw [Fragment.size_append, Fragment.size] at this
        omega
    have hopeners : openers nodes distance = [] :=
      List.eq_nil_of_length_eq_zero ((length_openers nodes distance).trans hdepth)
    obtain ⟨hfront, hfholds⟩ := cut_tokens hnodes (by omega) hbefore
    obtain ⟨hback, hbholds⟩ := cut_tokens hnodes (by omega) hafter
    obtain ⟨hjoin, hjholds⟩ := append_tokens hfholds hinsert
    obtain ⟨htokens, hholds⟩ := append_tokens hjholds hbholds
    refine ⟨hsize, ?_, hholds⟩
    rw [htokens, hjoin, hfront, hback, cutTokens, cutTokens, openers_zero, hdepth, hopeners, depthAt_size, ← length_tokens,
      List.take_length]
    simp
  | @inside front back inner child place hinner _ _ ih =>
    obtain ⟨hfront, hcholds, hback⟩ := holdsText_append.mp hnodes
    obtain ⟨hsize, htokens, hholds⟩ := ih hcholds.content
    have hplace : Fragment.size front + 1 + place = (tokens front).length + 1 + place := by rw [length_tokens]
    have hbeside : tokens (front ++ child :: back) = tokens front ++ child.tokens ++ tokens back := by
      rw [tokens_append, tokens_cons, List.append_assoc]
    refine ⟨?_, ?_, holdsText_append.mpr ⟨hfront, hcholds.copy hholds, hback⟩⟩
    · rw [Fragment.size_append, Fragment.size, hinner.nodeSize]
      omega
    · rw [hbeside, hplace, take_in_child hinner hsize, drop_in_child hinner hsize, tokens_append, tokens_cons,
        hinner.copy_tokens, htokens]
      simp

theorem apart_of_holds (hbefore : HoldsText S before) (hafter : HoldsText S after) : Apart before after := by
  intro last hlast first hfirst hinner htext
  have hl := Node.holdsText_iff.mp (holdsText_iff.mp hbefore last (List.mem_of_getLast? hlast))
  have hr := Node.holdsText_iff.mp (holdsText_iff.mp hafter first (List.mem_of_head? hfirst))
  refine Bool.not_eq_true _ ▸ fun hsame => ?_
  have hkind := hr.1.mpr ((sameMarkup_iff.mp hsame).1.symm.trans (hl.1.mp htext))
  rw [hinner.not_isText] at hkind
  cases hkind

/-- An insertion that is not inside the open right side of a fragment leaves it open. -/
theorem insertInto_closes {m : Nat} {openStart openEnd : Int} (hnodes : HoldsText S nodes)
    (hinsert : HoldsText S insert) (hcloses : Closes m nodes) (hm : distance + m ≤ Fragment.size nodes)
    (h : insertInto S nodes distance insert openStart openEnd parent = .ok (some out)) : Closes m out := by
  replace h := insertInto_inserted h
  induction h generalizing m with
  | here hfound hplace hbefore hafter =>
    obtain ⟨-, hfholds⟩ := cut_tokens hnodes (by omega) hbefore
    obtain ⟨-, hbholds⟩ := cut_tokens hnodes (by omega) hafter
    refine append_closes (apart_of_holds (append_tokens hfholds hinsert).2 hbholds) (cut_closes hcloses ?_ hafter)
    exact fun before last hlast hinner _ => place_last hfound hplace (by omega) hlast hinner
  | @inside front back inner child place hinner _ _ ih =>
    exact inside_closes hinner hcloses hm fun hcloses hm => ih (hnodes.child rfl).content hcloses hm

end Kodosi.Text
