import Kodosi.Text.Depths

/-! A replacement keeps every node to its schema: what it takes whole kept to it before, and what it
    joins it checks. -/

namespace Kodosi.Text

open Lib

variable {S : Schema} {r fro to_ start stop : ResolvedPos} {slice : Slice} {d s k n lo hi : Nat}
  {node child doc : Node} {target : List Node}

/-! ### Beside a path -/

/-- What a path leaves before it, from a level on, keeps to the schema, and so do the texts it ends in. -/
def LeftProper (S : Schema) (r : ResolvedPos) (d : Nat) : Prop :=
  ∀ e l, d ≤ e → r.level e = .ok l → Proper S (l.node.content.take l.index) ∧
    ∀ piece, l.node.content[l.index]? = some piece → piece.isText = true → piece.Proper S

/-- What a path leaves behind it, from a level on, keeps to the schema. -/
def RightProper (S : Schema) (r : ResolvedPos) (d : Nat) : Prop :=
  ∀ e l, d ≤ e → r.level e = .ok l → Proper S (l.node.content.drop (l.index + 1)) ∧
    (e = r.depth → ∀ child, l.node.content[l.index]? = some child → child.Proper S)

theorem LeftProper.next (h : LeftProper S r d) : LeftProper S r (d + 1) :=
  fun e l he => h e l (by omega)

theorem RightProper.next (h : RightProper S r d) : RightProper S r (d + 1) :=
  fun e l he => h e l (by omega)

/-- A path's nodes below a level have insides, as its document's nodes are built. -/
def InnerBelow (r : ResolvedPos) (d : Nat) : Prop :=
  ∀ e child, d < e → r.node e = .ok child → child.Inner

theorem Stand.innerBelow (h : Stand r d node s k) : InnerBelow r d :=
  fun _ _ hlt hchild => (h.lower hlt hchild).1

/-- The child that a path goes down into. -/
theorem Stand.next (h : Stand r d node s k) (hlt : d < r.depth) :
    ∃ before child after k', node.content = before ++ child :: after ∧ child.Inner ∧
      r.index d = .ok before.length ∧ k = Fragment.size before + 1 + k' ∧
      k' ≤ Fragment.size child.content ∧
      Stand r (d + 1) child (s + Fragment.size before + 1) k' := by
  cases h with
  | seam _ hdepth => omega
  | inText _ hdepth => omega
  | down hlevel _ hcontent hinner hle hstand =>
    exact ⟨_, _, _, _, hcontent, hinner, index_of_level hlevel, rfl, hle, hstand⟩

variable {before after : List Node}

theorem drop_behind : (before ++ node :: after).drop (before.length + 1) = after := by
  rw [← List.singleton_append, ← List.append_assoc, List.drop_left' (by simp)]

theorem bottom_level {e : Nat} {l l' : Level} (hlevel : r.level d = .ok l') (hdepth : r.depth = d) (hde : d ≤ e)
    (hl : r.level e = .ok l) : e = d ∧ l' = l := by
  have := level_depth_lt hl
  obtain rfl : e = d := by omega
  exact ⟨rfl, Except.ok.inj (hlevel.symm.trans hl)⟩

/-- Behind a position that no open side reaches over, nodes keep to the schema up to the bound. -/
theorem Stand.rightProper (h : Stand r d node s k) (hwithin : Within S lo hi s node.content)
    (hlo : lo ≤ r.pos) (hhi : s + Fragment.size node.content ≤ hi) : RightProper S r d := by
  induction h with
  | @seam d node s before after hlevel hdepth hpos hparent hcontent =>
    intro e l hde hl
    obtain ⟨rfl, rfl⟩ := bottom_level hlevel hdepth hde hl
    rw [hcontent] at hwithin
    rw [hcontent, Fragment.size_append] at hhi
    have hafter := (within_append.mp hwithin).2.proper (by omega) (by omega)
    dsimp only
    rw [hcontent, List.drop_length_add_append, List.getElem?_append_right le_rfl, Nat.sub_self]
    exact ⟨hafter.sub fun _ => List.mem_of_mem_drop,
      fun _ child hchild => everywhere_iff.mp hafter child (List.mem_of_getElem? hchild)⟩
  | @inText d node s before piece after units off hlevel hdepth hpos hparent hcontent hunits hoff hlt =>
    intro e l hde hl
    obtain ⟨rfl, rfl⟩ := bottom_level hlevel hdepth hde hl
    rw [hcontent] at hwithin
    rw [hcontent, Fragment.size_append, Fragment.size] at hhi
    obtain ⟨hpiece, hafter⟩ := (within_append.mp hwithin).2
    have hsize := Node.nodeSize_text hunits
    dsimp only
    rw [hcontent, drop_behind, List.getElem?_append_right le_rfl, Nat.sub_self]
    refine ⟨hafter.proper (by omega) (by omega), fun _ child hchild => ?_⟩
    obtain rfl := Option.some.inj hchild
    exact hpiece.text (isText_of_units hunits)
  | @down d node s before child after k hlevel hdepth hcontent hinner hle hstand ih =>
    rw [hcontent] at hwithin
    rw [hcontent, Fragment.size_append, Fragment.size, hinner.nodeSize] at hhi
    obtain ⟨hchild, hafter⟩ := (within_append.mp hwithin).2
    rw [hinner.nodeSize] at hafter
    have hpos := hstand.pos_eq
    intro e l hde hl
    by_cases hed : e = d
    · subst hed
      obtain rfl := Except.ok.inj (hlevel.symm.trans hl)
      dsimp only
      rw [hcontent, drop_behind]
      exact ⟨hafter.proper (by omega) (by omega), fun hbottom => by omega⟩
    · exact ih hchild.content (by omega) e l (by omega) hl

/-- Before a position, nodes keep to the schema from the other bound on. -/
theorem Stand.leftProper (h : Stand r d node s k) (hwithin : Within S lo hi s node.content)
    (hlo : lo ≤ s) (hhi : r.pos ≤ hi) : LeftProper S r d := by
  induction h with
  | @seam d node s before after hlevel hdepth hpos hparent hcontent =>
    intro e l hde hl
    obtain ⟨rfl, rfl⟩ := bottom_level hlevel hdepth hde hl
    rw [hcontent] at hwithin
    obtain ⟨hbefore, hafter⟩ := within_append.mp hwithin
    dsimp only
    rw [hcontent, List.take_left]
    refine ⟨hbefore.proper hlo (by omega), fun piece hpiece htext => ?_⟩
    rw [List.getElem?_append_right le_rfl, Nat.sub_self] at hpiece
    cases after with
    | nil => cases hpiece
    | cons first rest =>
      obtain rfl := Option.some.inj hpiece
      exact hafter.1.text htext
  | @inText d node s before piece after units off hlevel hdepth hpos hparent hcontent hunits hoff hlt =>
    intro e l hde hl
    obtain ⟨rfl, rfl⟩ := bottom_level hlevel hdepth hde hl
    rw [hcontent] at hwithin
    obtain ⟨hbefore, hpiece, -⟩ := within_append.mp hwithin
    dsimp only
    rw [hcontent, List.take_left]
    refine ⟨hbefore.proper hlo (by omega), fun other hother htext => ?_⟩
    rw [List.getElem?_append_right le_rfl, Nat.sub_self] at hother
    obtain rfl := Option.some.inj hother
    exact hpiece.text htext
  | @down d node s before child after k hlevel hdepth hcontent hinner hle hstand ih =>
    rw [hcontent] at hwithin
    obtain ⟨hbefore, hchild, -⟩ := within_append.mp hwithin
    have hpos := hstand.pos_eq
    intro e l hde hl
    by_cases hed : e = d
    · subst hed
      obtain rfl := Except.ok.inj (hlevel.symm.trans hl)
      dsimp only
      rw [hcontent, List.take_left]
      refine ⟨hbefore.proper hlo (by omega), fun piece hpiece htext => ?_⟩
      rw [List.getElem?_append_right le_rfl, Nat.sub_self] at hpiece
      obtain rfl := Option.some.inj hpiece
      rw [hinner.not_isText] at htext
      cases htext
    · exact ih hchild.content (by omega) e l (by omega) hl

/-! ### Ranges -/

variable {out : List Node}

theorem addChildren_proper {first : Nat}
    (h : Proper S ((node.content.drop first).take n)) (htarget : Proper S target)
    (hout : (List.range' first n).foldlM (fun target i => do
      let child ← node.child i
      pure (addNode child target)) target = .ok out) : Proper S out := by
  induction n generalizing first target with
  | zero =>
    obtain rfl : target = out := Except.ok.inj hout
    exact htarget
  | succ n ih =>
    rw [List.range'_succ, List.foldlM_cons] at hout
    obtain ⟨next, hnext, hout⟩ := bind_ok hout
    obtain ⟨child, hchild, hnext⟩ := bind_ok hnext
    obtain rfl := Except.ok.inj hnext
    obtain ⟨hlt, hget⟩ := List.getElem?_eq_some_iff.mp (require_ok.mp hchild)
    rw [List.drop_eq_getElem_cons hlt, hget, List.take_succ_cons] at h
    exact ih h.2 (addNode_proper htarget h.1) hout

/-- Where a range ends, the part of a text that it takes keeps to the schema. -/
theorem rangeEnd_proper (hstand : Stand r d node s k)
    (htexts : ∀ i piece, r.index d = .ok i → node.content[i]? = some piece → piece.isText = true → piece.Proper S)
    (htarget : Proper S target) (h : rangeEnd (some r) d target = .ok out) : Proper S out := by
  cases hstand with
  | seam hlevel hdepth hpos hparent hcontent =>
    rw [rangeEnd, if_pos hdepth,
      ok_bind (show r.textOffset = .ok 0 from textOffset_of_level hlevel hdepth hpos), if_neg (by simp)] at h
    obtain rfl := Except.ok.inj h
    exact htarget
  | @inText _ _ _ before piece after units off hlevel hdepth hpos hparent hcontent hunits hoff hlt =>
    have hpos' : r.pos = s + Fragment.size before + off := hpos.trans (Nat.add_assoc _ _ _).symm
    have hpiece : node.content[before.length]? = some piece := by rw [hcontent]; simp
    rw [rangeEnd, if_pos hdepth, ok_bind (textOffset_of_level hlevel hdepth hpos'), if_pos hoff.ne',
      ok_bind (nodeBefore_of_level hlevel hdepth hpos' hpiece hunits hoff hlt)] at h
    obtain rfl := Except.ok.inj h
    have htext := isText_of_units hunits
    exact addNode_proper htarget
      (withUnits_proper (htexts _ piece (index_of_level hlevel) hpiece htext) htext rfl _)
  | down hlevel hdepth hcontent hinner hle hstand =>
    rw [rangeEnd, if_neg (by omega)] at h
    obtain rfl := Except.ok.inj h
    exact htarget

theorem before_proper (hstand : Stand r d node s k) (hleft : LeftProper S r d) (htarget : Proper S target)
    (h : addRange none (some r) d target = .ok out) : Proper S out := by
  obtain ⟨last, first, begun, mid, hlast, hfirst, hmid, hend⟩ := addRange_ok rfl hstand.node_eq h
  obtain ⟨rfl, rfl⟩ := Prod.mk.inj (Except.ok.inj hfirst)
  obtain ⟨i, o, hlevel⟩ := hstand.level
  obtain ⟨htake, htexts⟩ := hleft d _ le_rfl hlevel
  have hi := index_of_level hlevel
  refine rangeEnd_proper hstand (fun j piece hj hpiece htext => ?_) (addChildren_proper ?_ htarget hmid) hend
  · obtain rfl := Except.ok.inj (hi.symm.trans hj)
    exact htexts piece hpiece htext
  · obtain rfl := Except.ok.inj (hi.symm.trans hlast)
    rw [List.drop_zero, Nat.sub_zero]
    exact htake

/-- Where a range begins, the part of a text that it takes keeps to the schema. -/
theorem rangeStart_proper {first : Nat} {begun : List Node} (hstand : Stand r d node s k)
    (htexts : ∀ i piece, r.depth = d → r.index d = .ok i → node.content[i]? = some piece →
      piece.isText = true → piece.Proper S)
    (htarget : Proper S target) (h : rangeStart (some r) d target = .ok (first, begun)) :
    Proper S begun ∧ k ≤ Fragment.size (node.content.take first) ∧
      ∃ i, r.index d = .ok i ∧ (first = i ∧ r.depth = d ∨ first = i + 1) := by
  cases hstand with
  | @seam _ _ _ before after hlevel hdepth hpos hparent hcontent =>
    rw [rangeStart, ok_bind (index_of_level hlevel), if_neg (by omega),
      ok_bind (show r.textOffset = .ok 0 from textOffset_of_level hlevel hdepth hpos), if_neg (by simp)] at h
    obtain ⟨rfl, rfl⟩ := Prod.mk.inj (Except.ok.inj h)
    refine ⟨htarget, ?_, _, index_of_level hlevel, .inl ⟨rfl, hdepth⟩⟩
    dsimp only
    rw [hcontent, List.take_left]
  | @inText _ _ _ before piece after units off hlevel hdepth hpos hparent hcontent hunits hoff hlt =>
    have hpos' : r.pos = s + Fragment.size before + off := hpos.trans (Nat.add_assoc _ _ _).symm
    have hpiece : node.content[before.length]? = some piece := by rw [hcontent]; simp
    rw [rangeStart, ok_bind (index_of_level hlevel), if_neg (by omega),
      ok_bind (textOffset_of_level hlevel hdepth hpos'), if_pos hoff.ne',
      ok_bind (nodeAfter_of_level hlevel hdepth hpos' hpiece hunits hoff hlt)] at h
    obtain ⟨rfl, rfl⟩ := Prod.mk.inj (Except.ok.inj h)
    have htext := isText_of_units hunits
    refine ⟨addNode_proper htarget
      (withUnits_proper (htexts _ piece hdepth (index_of_level hlevel) hpiece htext) htext rfl _), ?_,
      _, index_of_level hlevel, .inr rfl⟩
    have hsize := Node.nodeSize_text hunits
    dsimp only
    rw [hcontent, List.take_length_add_append, List.take_succ_cons, List.take_zero, Fragment.size_append,
      Fragment.size, Fragment.size]
    omega
  | @down _ _ _ before child after k' hlevel hdepth hcontent hinner hle hstand =>
    rw [rangeStart, ok_bind (index_of_level hlevel), if_pos hdepth] at h
    obtain ⟨rfl, rfl⟩ := Prod.mk.inj (Except.ok.inj h)
    refine ⟨htarget, ?_, _, index_of_level hlevel, .inr rfl⟩
    dsimp only
    rw [hcontent, List.take_length_add_append, List.take_succ_cons, List.take_zero, Fragment.size_append,
      Fragment.size, Fragment.size, hinner.nodeSize]
    omega

theorem after_proper (hstand : Stand r d node s k) (hright : RightProper S r d) (htarget : Proper S target)
    (h : addRange (some r) none d target = .ok out) : Proper S out := by
  obtain ⟨last, first, begun, mid, hlast, hfirst, hmid, hend⟩ := addRange_ok rfl hstand.node_eq h
  obtain rfl := Except.ok.inj hend
  obtain rfl : node.childCount = last := Except.ok.inj hlast
  obtain ⟨i, o, hlevel⟩ := hstand.level
  obtain ⟨hdrop, hchild⟩ := hright d _ le_rfl hlevel
  have hi := index_of_level hlevel
  obtain ⟨hbegun, -, j, hj, hwhere⟩ := rangeStart_proper hstand (fun j piece hdepth hj hpiece _ => by
    obtain rfl := Except.ok.inj (hi.symm.trans hj)
    exact hchild hdepth.symm piece hpiece) htarget hfirst
  obtain rfl := Except.ok.inj (hi.symm.trans hj)
  refine addChildren_proper (Everywhere.sub ?_ fun _ => List.mem_of_mem_take) hbegun hmid
  rcases hwhere with ⟨rfl, hdepth⟩ | rfl
  · cases hget : node.content[first]? with
    | none =>
      rw [List.drop_eq_nil_of_le (List.getElem?_eq_none_iff.mp hget)]
      trivial
    | some child =>
      obtain ⟨hlt, hget'⟩ := List.getElem?_eq_some_iff.mp hget
      rw [List.drop_eq_getElem_cons hlt, hget']
      exact ⟨hchild hdepth.symm child hget, hdrop⟩
  · exact hdrop

theorem Within.texts {i : Nat} {piece : Node} (h : Within S lo hi s node.content)
    (hpiece : node.content[i]? = some piece) (htext : piece.isText = true) : piece.Proper S := by
  obtain ⟨hlt, hget⟩ := List.getElem?_eq_some_iff.mp hpiece
  have hsplit := List.take_append_drop i node.content
  rw [List.drop_eq_getElem_cons hlt, hget] at hsplit
  rw [← hsplit] at h
  exact (within_append.mp h).2.1.text htext

theorem Stand.take_le {i : Nat} (h : Stand r d node s k) (hi : r.index d = .ok i) :
    Fragment.size (node.content.take i) ≤ k := by
  cases h with
  | seam hlevel _ _ _ hcontent =>
    obtain rfl := Except.ok.inj ((index_of_level hlevel).symm.trans hi)
    rw [hcontent, List.take_left]
  | inText hlevel _ _ _ hcontent =>
    obtain rfl := Except.ok.inj ((index_of_level hlevel).symm.trans hi)
    rw [hcontent, List.take_left]
    omega
  | down hlevel _ hcontent =>
    obtain rfl := Except.ok.inj ((index_of_level hlevel).symm.trans hi)
    rw [hcontent, List.take_left]
    omega

/-- Between the edges of a slice, what lies inside both bounds is taken. -/
theorem between_proper {s' k' : Nat} (hs : Stand start d node s k) (he : Stand stop d node s' k')
    (hwithin : Within S lo hi s node.content) (hlo : lo ≤ s + k) (hhi : s + k' ≤ hi) (htarget : Proper S target)
    (h : addRange (some start) (some stop) d target = .ok out) : Proper S out := by
  obtain ⟨last, first, begun, mid, hlast, hfirst, hmid, hend⟩ := addRange_ok rfl he.node_eq h
  obtain ⟨hbegun, hfirstle, -⟩ := rangeStart_proper hs
    (fun i piece _ _ hpiece htext => hwithin.texts hpiece htext) htarget hfirst
  refine rangeEnd_proper he (fun i piece _ hpiece htext => hwithin.texts hpiece htext)
    (addChildren_proper ?_ hbegun hmid) hend
  have hlastle := he.take_le hlast
  by_cases hle : first ≤ last
  · have hsplit := List.take_append_drop first node.content
    rw [← hsplit, ← List.take_append_drop (last - first) (node.content.drop first)] at hwithin
    have htake : node.content.take last =
        node.content.take first ++ (node.content.drop first).take (last - first) := by
      rw [← List.take_add, Nat.add_sub_cancel' hle]
    rw [htake, Fragment.size_append] at hlastle
    exact (within_append.mp (within_append.mp hwithin).2).1.proper (by omega) (by omega)
  · rw [show last - first = 0 by omega, List.take_zero]
    trivial

/-! ### Joining -/

theorem close_proper {kind closed : Node} {inner : Fragment} (hkind : kind.Inner) (hinner : Proper S inner)
    (h : close S kind inner = .ok closed) : closed.Proper S := by
  obtain ⟨rfl, hrule⟩ := close_ok h
  have hcopy := (hkind.copy inner).not_isText
  exact ⟨⟨hrule, fun htext => absurd (hcopy.symm.trans htext) (by simp)⟩, hinner⟩

variable {nt : Node} {sf kf st kt : Nat}

/-- Two sides join to nodes that keep to the schema. -/
theorem twoWay_proper {nf : Node} {out : Fragment} (hf : Stand fro d nf sf kf) (ht : Stand to_ d nt st kt)
    (hleft : LeftProper S fro d) (hright : RightProper S to_ d) (h : replaceTwoWay S fro to_ d = .ok out) :
    Proper S out := by
  induction hn : fro.depth - d generalizing d nf nt sf kf st kt out with
  | zero =>
    unfold replaceTwoWay at h
    obtain ⟨content, hcontent, h⟩ := bind_ok h
    rw [dif_neg (by omega)] at h
    exact after_proper ht hright (before_proper hf hleft everywhere_nil hcontent) h
  | succ n ih =>
    unfold replaceTwoWay at h
    obtain ⟨content, hcontent, h⟩ := bind_ok h
    rw [dif_pos (by omega)] at h
    obtain ⟨kind, hjoin, h⟩ := bind_ok h
    obtain ⟨inner, hinner, h⟩ := bind_ok h
    obtain ⟨closed, hclose, h⟩ := bind_ok h
    obtain ⟨hkind, hdeep⟩ := joinable_ok hjoin
    obtain ⟨_, _, _, _, -, -, -, -, -, hfchild⟩ := hf.next (by omega)
    obtain ⟨_, _, _, _, -, -, -, -, -, htchild⟩ := ht.next (by omega)
    have hproper := ih hfchild htchild hleft.next hright.next hinner (by omega)
    have hclosed := close_proper (hf.innerBelow _ _ (Nat.lt_succ_self d) hkind) hproper hclose
    exact after_proper ht hright (addNode_proper (before_proper hf hleft everywhere_nil hcontent) hclosed) h

/-- Where the left edge of a slice is only in first children, a right edge in another child is behind it. -/
theorem edge_behind {nw child' : Node} {before' after' : List Node} (hsplit : nw.content = before ++ child :: after)
    (hsplit' : nw.content = before' ++ child' :: after') (hinner' : child'.Inner) (hfirst : Fragment.size before = 0)
    (hne : before.length ≠ before'.length) :
    Fragment.size before + child.nodeSize ≤ Fragment.size before' := by
  rcases split_trichotomy (hsplit.symm.trans hsplit') with ⟨rfl, -, -⟩ | ⟨mid, rfl⟩ | ⟨mid, rfl⟩
  · exact absurd rfl hne
  · have := size_split before' mid child'
    rw [hinner'.nodeSize] at this
    omega
  · exact size_split before mid child

/-- A slice joins between two sides to nodes that keep to the schema, when those between its open sides
    do. -/
theorem threeWay_proper {nf nw : Node} {ks ke : Nat} {out : Fragment} (hf : Stand fro d nf sf kf)
    (ht : Stand to_ d nt st kt) (hleft : LeftProper S fro d) (hright : RightProper S to_ d) (hs : Stand start d nw s ks)
    (he : Stand stop d nw s ke) (hwithin : Within S lo hi s nw.content) (hlo : lo ≤ start.pos) (hhi : stop.pos ≤ hi)
    (hks : ks + d ≤ fro.depth) (hke : d + Fragment.size nw.content ≤ to_.depth + ke)
    (h : replaceThreeWay S fro start stop to_ d = .ok out) : Proper S out := by
  induction hn : fro.depth - d using Nat.strong_induction_on
    generalizing d nf nt nw sf kf st kt s ks ke out with
  | _ n ih =>
  obtain ⟨openStart, openEnd, content, hstart, hend, hcontent, h⟩ := threeWay_ok h
  have hfront := before_proper hf hleft everywhere_nil hcontent
  have hspos := hs.pos_eq
  have hepos := he.pos_eq
  have hsize := he.le_size
  rcases h with ⟨main, sub, i, inner, closed, rfl, rfl, hi', hj, hlt, hinner, hclose, h⟩ |
    ⟨next, hapart, h, hne⟩
  · -- both edges are in one child
    obtain ⟨-, main, ⟨⟩, hjoin⟩ | ⟨-, hno⟩ := openSide_ok hstart
    swap
    · cases hno
    obtain ⟨hdeep, sub, ⟨⟩, hjoin'⟩ | ⟨-, hno⟩ := openSide_ok hend
    swap
    · cases hno
    obtain ⟨hmain, hsdeep⟩ := joinable_ok hjoin
    have hedeep := node_depth_le (joinable_ok hjoin').1
    obtain ⟨_, _, _, _, -, -, -, -, -, hfchild⟩ := hf.next hlt
    obtain ⟨_, _, _, _, -, -, -, -, -, htchild⟩ := ht.next hdeep
    obtain ⟨before, child, after, ks', hsplit, hcinner, hbi, rfl, -, hschild⟩ := hs.next hsdeep
    obtain ⟨before', child', after', ke', hsplit', -, hbi', rfl, -, hechild⟩ := he.next hedeep
    have hlen : before.length = before'.length :=
      Except.ok.inj (hbi.symm.trans (hi'.trans (hj.symm.trans hbi')))
    obtain ⟨rfl, hrest⟩ := List.append_inj (hsplit.symm.trans hsplit') hlen
    obtain ⟨rfl, rfl⟩ := List.cons.inj hrest
    rw [hsplit] at hwithin hke
    rw [Fragment.size_append, Fragment.size, hcinner.nodeSize] at hke
    have hproper := ih (fro.depth - (d + 1)) (by omega) hfchild htchild hleft.next hright.next hschild
      hechild (within_append.mp hwithin).2.1.content (by omega) (by omega) hinner rfl
    have hclosed := close_proper (hf.innerBelow _ _ (Nat.lt_succ_self d) hmain) hproper hclose
    exact after_proper ht hright (addNode_proper hfront hclosed) h
  · obtain ⟨begun, hbegun, hapart⟩ := bind_ok hapart
    obtain ⟨between, hbetween, hapart⟩ := bind_ok hapart
    -- where each edge that is open goes down, and that the left one is then only in first children
    have hsdown : openStart.isSome → ∃ before child after k', nw.content = before ++ child :: after ∧
        child.Inner ∧ start.index d = .ok before.length ∧ ks = Fragment.size before + 1 + k' ∧
        k' ≤ Fragment.size child.content ∧ Fragment.size before = 0 ∧
        Stand start (d + 1) child (s + Fragment.size before + 1) k' := by
      intro hsome
      obtain ⟨hlt, main, rfl, hjoin⟩ | ⟨-, rfl⟩ := openSide_ok hstart
      swap
      · cases hsome
      obtain ⟨-, hsdeep⟩ := joinable_ok hjoin
      obtain ⟨inner, htwo, -⟩ := bind_ok hbegun
      have hdepth := twoWay_depth hsdeep htwo
      obtain ⟨before, child, after, k', hsplit, hcinner, hindex, rfl, hle, hschild⟩ := hs.next hsdeep
      have := hschild.depth_le
      exact ⟨before, child, after, k', hsplit, hcinner, hindex, rfl, hle, by omega, hschild⟩
    have hedown : openEnd.isSome → ∃ before child after k', nw.content = before ++ child :: after ∧
        child.Inner ∧ stop.index d = .ok before.length ∧ ke = Fragment.size before + 1 + k' ∧
        k' ≤ Fragment.size child.content ∧
        Stand stop (d + 1) child (s + Fragment.size before + 1) k' := by
      intro hsome
      obtain ⟨hlt, main, rfl, hjoin⟩ | ⟨-, rfl⟩ := openSide_ok hend
      swap
      · cases hsome
      exact he.next (node_depth_le (joinable_ok hjoin).1)
    have hbegunp : Proper S begun := by
      obtain ⟨hlt, main, rfl, hjoin⟩ | ⟨-, rfl⟩ := openSide_ok hstart
      · obtain ⟨inner, htwo, hbegun⟩ := bind_ok hbegun
        obtain ⟨closed, hclose, hbegun⟩ := bind_ok hbegun
        obtain rfl := Except.ok.inj hbegun
        obtain ⟨before, child, after, k', hsplit, hcinner, hindex, rfl, hle, hzero, hschild⟩ := hsdown rfl
        obtain ⟨_, _, _, _, -, -, -, -, -, hfchild⟩ := hf.next hlt
        have hstop : s + Fragment.size before + 1 + Fragment.size child.content ≤ hi := by
          obtain ⟨hdeep, sub, rfl, -⟩ | ⟨hshut, rfl⟩ := openSide_ok hend
          · obtain ⟨before', child', after', k'', hsplit', hcinner', hindex', rfl, -, -⟩ := hedown rfl
            have := edge_behind hsplit hsplit' hcinner' hzero fun hlen => hne rfl rfl (by
              rw [hindex, hindex', hlen])
            rw [hcinner.nodeSize] at this
            omega
          · have hall := congrArg Fragment.size hsplit
            rw [Fragment.size_append, Fragment.size, hcinner.nodeSize] at hall
            omega
        rw [hsplit] at hwithin
        have hproper := twoWay_proper hfchild hschild hleft.next
          (hschild.rightProper (within_append.mp hwithin).2.1.content hlo hstop) htwo
        exact addNode_proper hfront
          (close_proper (hf.innerBelow _ _ (Nat.lt_succ_self d) (joinable_ok hjoin).1) hproper hclose)
      · obtain rfl := Except.ok.inj hbegun
        exact hfront
    have hbetweenp := between_proper hs he hwithin (by omega) (by omega) hbegunp hbetween
    obtain ⟨hlt, main, rfl, hjoin⟩ | ⟨-, rfl⟩ := openSide_ok hend
    · obtain ⟨inner, htwo, hapart⟩ := bind_ok hapart
      obtain ⟨closed, hclose, hapart⟩ := bind_ok hapart
      obtain rfl := Except.ok.inj hapart
      obtain ⟨before, child, after, k', hsplit, hcinner, hindex, rfl, hle, hechild⟩ := hedown rfl
      obtain ⟨_, _, _, _, -, -, -, -, -, htchild⟩ := ht.next hlt
      have hbegin : lo ≤ s + Fragment.size before + 1 := by
        obtain ⟨-, main, rfl, -⟩ | ⟨hshut, rfl⟩ := openSide_ok hstart
        · obtain ⟨before', child', after', k'', hsplit', hcinner', hindex', rfl, hle', hzero, -⟩ :=
            hsdown rfl
          have := edge_behind hsplit' hsplit hcinner hzero fun hlen => hne rfl rfl (by
            rw [hindex, hindex', hlen])
          rw [hcinner'.nodeSize] at this
          omega
        · omega
      rw [hsplit] at hwithin
      have hproper := twoWay_proper hechild htchild
        (hechild.leftProper (within_append.mp hwithin).2.1.content hbegin hhi) hright.next htwo
      exact after_proper ht hright (addNode_proper hbetweenp
        (close_proper (he.innerBelow _ _ (Nat.lt_succ_self d) (joinable_ok hjoin).1) hproper hclose)) h
    · obtain rfl := Except.ok.inj hapart
      exact after_proper ht hright hbetweenp h

/-! ### Around the slice -/

/-- Off its open sides a slice keeps to the schema, wherever it starts. -/
def Slice.Proper (S : Schema) (slice : Slice) : Prop :=
  ∀ p, slice.openEnd ≤ p + Fragment.size slice.content →
    Within S (p + slice.openStart) (p + Fragment.size slice.content - slice.openEnd) p slice.content

theorem slice_proper (h : validOff S slice.openStart slice.openEnd slice.content = true)
    (hbuilt : Built S slice.content) : slice.Proper S := fun _ hle =>
  within_of_validOff h hbuilt (.inr le_rfl) (.inr (by omega))

variable {Q : NodeId → Prop} {content : Fragment}

theorem Shelled.within {outer : Node} (h : Shelled Q content n outer) {p : Nat} (hlo : p + n ≤ lo)
    (hcontent : Within S lo hi (p + n) content) : Within S lo hi p outer.content := by
  induction h generalizing p with
  | core h => rwa [h]
  | @shell n node inner hnode hinner _ _ ih =>
    rw [hnode]
    refine ⟨Node.within_iff.mpr (.inr ⟨hinner, .inl (by omega), ih (by omega) ?_⟩), trivial⟩
    rwa [Nat.add_assoc, Nat.add_comm 1]

/-- Both edges of a shelled slice stand in the same shells, as far as they are deep. -/
theorem Shelled.edges {outer : Node} {p q : Nat} (hshelled : Shelled Q content n outer)
    (hs : Stand start 0 outer 0 p) (he : Stand stop 0 outer 0 q) (hd : d ≤ n) (hsd : d ≤ start.depth)
    (hed : d ≤ stop.depth) (hwithin : Within S lo hi 0 outer.content) :
    ∃ shell ks ke, Shelled Q content (n - d) shell ∧ Stand start d shell d ks ∧ Stand stop d shell d ke ∧
      Within S lo hi d shell.content ∧ Fragment.size shell.content + 2 * d = Fragment.size outer.content := by
  induction d with
  | zero => exact ⟨outer, p, q, hshelled, hs, he, hwithin, rfl⟩
  | succ d ih =>
    obtain ⟨shell, ks, ke, hshell, hs, he, hwithin, hsize⟩ := ih (by omega) (by omega) (by omega)
    rw [show n - d = n - (d + 1) + 1 by omega] at hshell
    cases hshell with
    | @shell _ _ inner hnode hinner _ hrest =>
      have only : ∀ {r : ResolvedPos} {k : Nat}, Stand r d shell d k → d + 1 ≤ r.depth →
          ∃ k', Stand r (d + 1) inner (d + 1) k' := fun hr hdeep => by
        obtain ⟨before, child, after, k', hsplit, -, -, -, -, hchild⟩ := hr.next hdeep
        rw [hnode] at hsplit
        cases before with
        | nil =>
          obtain ⟨rfl, -⟩ := List.cons.inj hsplit
          exact ⟨k', hchild⟩
        | cons first rest => exact absurd (congrArg List.length hsplit) (by simp)
      obtain ⟨ks', hs⟩ := only hs hsd
      obtain ⟨ke', he⟩ := only he hed
      rw [hnode, Fragment.size, hinner.nodeSize, Fragment.size] at hsize
      rw [hnode] at hwithin
      exact ⟨inner, ks', ke', hrest, hs, he, hwithin.1.content, by omega⟩

theorem threeWay_stop {out : Fragment} (h : replaceThreeWay S fro start stop to_ d = .ok out) : d ≤ stop.depth := by
  obtain ⟨_, _, _, _, _, _, h⟩ := threeWay_ok h
  rcases h with ⟨_, _, _, _, _, _, _, _, hj, _⟩ | ⟨next, hapart, _⟩
  · exact index_depth_le hj
  · obtain ⟨begun, _, hapart⟩ := bind_ok hapart
    obtain ⟨between, hbetween, _⟩ := bind_ok hapart
    unfold addRange at hbetween
    obtain ⟨node, hnode, _⟩ := bind_ok hbetween
    exact node_depth_le hnode

/-- On the level where the two sides of the document join around a slice. -/
theorem threeWay_around {lo' : Nat} {out : Fragment} (hroot : Stand fro 0 doc 0 lo') (hf : Stand fro d node sf kf)
    (ht : Stand to_ d nt st kt) (hleft : LeftProper S fro d) (hright : RightProper S to_ d) (hslice : slice.Proper S)
    (hdepths : fro.depth + slice.openEnd = to_.depth + slice.openStart) (hd : d + slice.openStart ≤ fro.depth)
    (hprepare : prepareSlice slice fro = .ok (start, stop)) (h : replaceThreeWay S fro start stop to_ d = .ok out) :
    Proper S out := by
  obtain ⟨extra, outer, hextra, hshelled, hstart, hle, hstop⟩ := prepareSlice_ok (Q := fun _ => True)
    (fun hj hchild => ⟨(hroot.lower hj hchild).1, trivial⟩) hprepare
  have hsize := hshelled.size
  have hspos := hstart.pos_eq
  have hepos := hstop.pos_eq
  have hsdeep : d ≤ start.depth := by
    by_cases hlt : d < fro.depth
    · obtain ⟨_, _, _, hopen, -⟩ := threeWay_ok h
      obtain ⟨-, _, -, hjoin⟩ | ⟨hno, -⟩ := openSide_ok hopen
      · have := (joinable_ok hjoin).2
        omega
      · omega
    · have := opens_depth hstart (hshelled.opens (m := 0) trivial) (by omega)
      omega
  have hwithin : Within S start.pos stop.pos 0 outer.content := by
    refine hshelled.within (by omega) ?_
    have := hslice extra (by omega)
    rwa [show 0 + extra = extra by omega, show start.pos = extra + slice.openStart by omega,
      show stop.pos = extra + Fragment.size slice.content - slice.openEnd by omega]
  obtain ⟨shell, ks, ke, hshell, hs, he, hwithin, hshell'⟩ :=
    hshelled.edges hstart hstop (by omega) hsdeep (threeWay_stop h) hwithin
  have := hs.pos_eq
  have := he.pos_eq
  exact threeWay_proper hf ht hleft hright hs he hwithin le_rfl le_rfl (by omega) (by omega) h

/-! ### Replacing -/

theorem validContent_replace {kind : NodeId} {inner : Node} (hkind : inner.kind = child.kind)
    (hmarks : inner.marks = child.marks) :
    S.validContent kind (before ++ inner :: after) = S.validContent kind (before ++ child :: after) := by
  simp only [Schema.validContent, Schema.matchFragment, Schema.allowsMarks, List.map_append, List.map_cons,
    List.all_append, List.all_cons, hkind, hmarks]

/-- A level of a replacement gives a valid node in the place of the one that was there. -/
theorem replaceOuter_valid {lo' : Nat} {out : Node} (hroot : Stand fro 0 doc 0 lo') (hf : Stand fro d node sf kf)
    (ht : Stand to_ d node st kt) (hnode : node.valid S = true) (hbuilt : Built S node.content)
    (hslice : slice.Proper S) (hdepths : fro.depth + slice.openEnd = to_.depth + slice.openStart)
    (hd : d + slice.openStart ≤ fro.depth) (h : replaceOuter S fro to_ slice d = .ok out) :
    out.valid S = true ∧ out.kind = node.kind ∧ out.marks = node.marks := by
  replace h := replaceOuter_at h
  induction h generalizing node sf kf st kt with
  | @inside d i parent inner hi hat hj _ hdeep _ _ ih =>
    obtain rfl := Except.ok.inj (hf.node_eq.symm.trans hat)
    obtain ⟨hrule, hall⟩ := valid_iff.mp hnode
    obtain ⟨before, child, after, sf', kf', st', kt', hsplit, hcinner, hib, hcf, hct, -, -⟩ :=
      same_child hf ht hi hj rfl (by omega) hdeep
    have hchild := allValid_iff.mp hall child (by rw [hsplit]; simp)
    obtain ⟨hvalid, hkind, hmarks⟩ := ih hcf hct hchild (hbuilt.child hsplit).content (by omega)
    have hset : node.content.set i inner = before ++ inner :: after := by
      rw [hib, hsplit, List.set_append_right _ _ (le_refl _), Nat.sub_self, List.set_cons_zero]
    rw [hset]
    refine ⟨valid_iff.mpr ⟨?_, ?_⟩, rfl, rfl⟩
    · rw [hsplit] at hrule
      exact (validContent_replace hkind hmarks).trans hrule
    · refine allValid_iff.mpr fun other hother => ?_
      rcases List.mem_append.mp hother with hmem | hmem
      · exact allValid_iff.mp hall other (by rw [hsplit]; simp [hmem])
      · rcases List.mem_cons.mp hmem with rfl | hmem
        · exact hvalid
        · exact allValid_iff.mp hall other (by rw [hsplit]; simp [hmem])
  | @closed d parent content hat hfilled hrule =>
    obtain rfl := Except.ok.inj (hf.node_eq.symm.trans hat)
    obtain ⟨-, hall⟩ := valid_iff.mp hnode
    have hproper := proper_of_valid hall hbuilt
    have hleft : LeftProper S fro d := hf.leftProper (within_of_proper hproper) (Nat.zero_le _) (le_refl fro.pos)
    have hright : RightProper S to_ d := ht.rightProper (within_of_proper hproper) (Nat.zero_le _) le_rfl
    suffices hin : Proper S content from ⟨valid_iff.mpr ⟨hrule, hin.allValid⟩, rfl, rfl⟩
    cases hfilled with
    | joined _ htwo => exact twoWay_proper hf ht hleft hright htwo
    | between hos hoe hfd htd hbefore hafter =>
      rw [hf.parentOffset hfd] at hbefore
      rw [ht.parentOffset htd] at hafter
      have hfdepth := hf.depthAt
      have htdepth := ht.depthAt
      have part : ∀ {lo hi : Nat} {out : Fragment}, Text.depthAt node.content lo = 0 →
          Text.depthAt node.content hi = 0 → Fragment.cut node.content lo hi = .ok out → Proper S out :=
        fun hlo hhi hcut => by
          have hoff := cut_validOff hall hbuilt hcut
          rw [hlo, hhi, validOff_zero] at hoff
          exact proper_of_valid hoff (shaped_steady.cut hbuilt hcut)
      have hmid := (hslice 0 (by omega)).proper (by omega) (by omega)
      exact append_proper (append_proper (part (depthAt_zero _) (by omega) hbefore) hmid)
        (part (by omega) (depthAt_size _) hafter)
    | around _ hprepare hthree => exact threeWay_around hroot hf ht hleft hright hslice hdepths hd hprepare hthree

/-- A replacement that succeeds in a valid document, with a slice that keeps to the schema off its open
    sides, gives a valid document. -/
theorem replace_valid {out : Node} (hdoc : doc.valid S = true) (hbuilt : doc.Built S)
    (hslice : slice.Proper S) (h : doc.replace S lo hi slice = .ok out) : out.valid S = true := by
  obtain ⟨fro, to_, hfro, hto, hdeep, -, hdepths, h⟩ := replace_ok h
  have hroot := resolve_stand hfro
  exact (replaceOuter_valid hroot hroot (resolve_stand hto) hdoc hbuilt.content hslice hdepths
    (by omega) h).1

end Kodosi.Text
