import Kodosi.Text.Ranges

/-! A replacement as a splice of tokens: what is before the range, the inside of the slice and what is
    behind the range. -/

namespace Kodosi.Text

open Lib

variable {S : Schema} {fro to_ : ResolvedPos} {d : Nat}

/-! ### One level -/

variable {left right : List Token}

theorem take_in_child {child : Node} {k : Nat} (hinner : child.Inner) (hk : k ≤ Fragment.size child.content) :
    (left ++ child.tokens ++ right).take (left.length + 1 + k) =
      left ++ child.openToken :: (tokens child.content).take k := by
  rw [← length_tokens] at hk
  rw [hinner.tokens, List.append_assoc, Nat.add_assoc, List.take_length_add_append, Nat.add_comm 1 k,
    List.cons_append, List.take_succ_cons, List.append_assoc, List.take_append_of_le_length hk]

theorem drop_in_child {child : Node} {k : Nat} (hinner : child.Inner) (hk : k ≤ Fragment.size child.content) :
    (left ++ child.tokens ++ right).drop (left.length + 1 + k) =
      (tokens child.content).drop k ++ .closing :: right := by
  rw [← length_tokens] at hk
  rw [hinner.tokens, List.append_assoc, Nat.add_assoc, List.drop_length_add_append, Nat.add_comm 1 k,
    List.cons_append, List.drop_succ_cons, List.append_assoc, List.drop_append_of_le_length hk,
    List.singleton_append]

variable {node : Node}

theorem joinable_ok {before after : ResolvedPos} (h : joinable S before after d = .ok node) :
    before.node d = .ok node ∧ d ≤ after.depth := by
  unfold joinable at h
  obtain ⟨main, hmain, h⟩ := bind_ok h
  obtain ⟨sub, hsub, h⟩ := bind_ok h
  obtain ⟨_, -, h⟩ := bind_ok h
  obtain rfl := Except.ok.inj h
  refine ⟨hmain, ?_⟩
  unfold ResolvedPos.node at hsub
  cases hlevel : after.level d with
  | error e => simp [hlevel, Except.map] at hsub
  | ok l => exact level_depth_lt hlevel

theorem close_ok {out : Node} {content : Fragment} (h : close S node content = .ok out) :
    out = node.copy content ∧ S.validContent node.kind content = true := by
  unfold close at h
  split_ifs at h with hvalid
  · exact ⟨(Except.ok.inj h).symm, hvalid⟩
  · simp [failed] at h

/-! ### Two ways -/

variable {out : Fragment}

theorem twoWay_depth (hd : d ≤ to_.depth) (h : replaceTwoWay S fro to_ d = .ok out) : fro.depth ≤ to_.depth := by
  induction hn : fro.depth - d generalizing d out with
  | zero => omega
  | succ n ih =>
    unfold replaceTwoWay at h
    obtain ⟨_, -, h⟩ := bind_ok h
    rw [dif_pos (by omega)] at h
    obtain ⟨_, hjoin, h⟩ := bind_ok h
    obtain ⟨_, hinner, -⟩ := bind_ok h
    exact ih (joinable_ok hjoin).2 hinner (by omega)

variable {r : ResolvedPos}

theorem Beside.take {k : Nat} (h : Beside S r d node k left right) (hbottom : r.depth = d) :
    (tokens node.content).take k = left := by
  cases h with
  | down hlt => omega
  | bottom _ hcontent hlen => rw [hcontent, List.take_left' hlen]

theorem Beside.drop {k : Nat} (h : Beside S r d node k left right) (hbottom : r.depth = d) :
    (tokens node.content).drop k = right := by
  cases h with
  | down hlt => omega
  | bottom _ hcontent hlen => rw [hcontent, List.drop_left' hlen]

/-- On a level above the end of a path the position is inside an inner child. -/
theorem Beside.child {k : Nat} (h : Beside S r d node k left right) (hdown : d < r.depth) :
    ∃ child s k', r.node (d + 1) = .ok child ∧ child.Inner ∧ child.HoldsText S ∧
      Stand r (d + 1) child s k' ∧
      (tokens node.content).take k = left ++ child.openToken :: (tokens child.content).take k' ∧
      (tokens node.content).drop k = (tokens child.content).drop k' ++ .closing :: right := by
  cases h with
  | bottom hbottom => omega
  | @down s child k' _ hcontent hinner hholds hk hstand =>
    refine ⟨child, s, k', hstand.node_eq, hinner, hholds, hstand, ?_, ?_⟩
    · rw [hcontent, hk, take_in_child hinner hstand.le_size]
    · rw [hcontent, hk, drop_in_child hinner hstand.le_size]

/-- A child that is closed around an inner replacement stands behind what was there. -/
theorem addClosed_tokens {kind closed : Node} {inner target : List Node} (hkind : kind.Inner)
    (hholds : kind.HoldsText S) (hinner : HoldsText S inner) (htarget : HoldsText S target)
    (hclose : close S kind inner = .ok closed) :
    tokens (addNode closed target) =
        tokens target ++ kind.openToken :: (tokens inner ++ [.closing]) ∧
      HoldsText S (addNode closed target) := by
  obtain ⟨rfl, -⟩ := close_ok hclose
  obtain ⟨htokens, hadded⟩ := addNode_tokens htarget (hholds.copy hinner)
  exact ⟨by rw [htokens, hkind.copy_tokens], hadded⟩

/-- Where the second path is no deeper than the first, the tokens before the one are followed by those
    from the other on. -/
theorem twoWay_tokens {nf nt : Node} {sf kf st kt : Nat} (hf : Stand fro d nf sf kf) (ht : Stand to_ d nt st kt)
    (hfholds : HoldsText S nf.content) (htholds : HoldsText S nt.content) (hdepth : to_.depth ≤ fro.depth)
    (h : replaceTwoWay S fro to_ d = .ok out) :
    tokens out = (tokens nf.content).take kf ++ (tokens nt.content).drop kt ∧ HoldsText S out := by
  induction hn : fro.depth - d generalizing d nf sf kf nt st kt out with
  | zero =>
    have hfd := hf.le_depth
    have htd := ht.le_depth
    unfold replaceTwoWay at h
    obtain ⟨content, hcontent, h⟩ := bind_ok h
    rw [dif_neg (by omega)] at h
    obtain ⟨_, _, hbeside, hsides⟩ := hf.sides hfholds
    obtain ⟨_, _, hbeside', hsides'⟩ := ht.sides htholds
    obtain ⟨hleft, hholds⟩ := hsides.before holdsText_nil hcontent
    obtain ⟨hright, hout⟩ := hsides'.after hholds h
    refine ⟨?_, hout⟩
    rw [hright, hleft, hbeside.take (by omega), hbeside'.drop (by omega)]
    rfl
  | succ n ih =>
    unfold replaceTwoWay at h
    obtain ⟨content, hcontent, h⟩ := bind_ok h
    rw [dif_pos (by omega)] at h
    obtain ⟨kind, hjoin, h⟩ := bind_ok h
    obtain ⟨inner, hin, h⟩ := bind_ok h
    obtain ⟨closed, hclose, h⟩ := bind_ok h
    obtain ⟨hkind, hdeep⟩ := joinable_ok hjoin
    obtain ⟨_, _, hbeside, hsides⟩ := hf.sides hfholds
    obtain ⟨_, _, hbeside', hsides'⟩ := ht.sides htholds
    obtain ⟨child, _, _, hchild, hcinner, hcholds, hstand, htake, -⟩ := hbeside.child (by omega)
    obtain ⟨child', _, _, hchild', -, hcholds', hstand', -, hdrop⟩ := hbeside'.child (by omega)
    obtain rfl := Except.ok.inj (hkind.symm.trans hchild)
    obtain ⟨htokens, hiholds⟩ := ih hstand hstand' hcholds.content hcholds'.content hin (by omega)
    obtain ⟨hleft, hholds⟩ := hsides.before holdsText_nil hcontent
    obtain ⟨hadd, hadded⟩ := addClosed_tokens hcinner hcholds hiholds hholds hclose
    obtain ⟨hright, hout⟩ := hsides'.after hadded h
    refine ⟨?_, hout⟩
    rw [hright, hadd, hleft, htokens, htake, hdrop]
    simp

/-! ### The edges of a slice -/

/-- A position that has nothing but openings before it. -/
inductive Leading (S : Schema) (r : ResolvedPos) (d : Nat) (node : Node) (k first : Nat) :
    List Token → Prop
  | bottom : r.depth = d → k = 0 → tokens (node.content.take first) = [] →
      Leading S r d node k first []
  | down {before child after s k'} : d < r.depth → node.content = before ++ child :: after →
      tokens before = [] → first = before.length + 1 → child.Inner → child.HoldsText S → k = 1 + k' →
      Stand r (d + 1) child s k' → k' + (d + 1) = r.depth →
      Leading S r d node k first ((tokens child.content).drop k' ++ [.closing])

/-- A position that has nothing but closings behind it. -/
inductive Trailing (S : Schema) (r : ResolvedPos) (d : Nat) (node : Node) (k last : Nat) :
    List Token → Prop
  | bottom : r.depth = d → k = Fragment.size node.content → tokens (node.content.drop last) = [] →
      Trailing S r d node k last []
  | down {before child after s k'} : d < r.depth → node.content = before ++ child :: after →
      tokens after = [] → last = before.length → child.Inner → child.HoldsText S →
      k = Fragment.size before + 1 + k' → Stand r (d + 1) child s k' →
      Fragment.size child.content + (d + 1) = k' + r.depth →
      Trailing S r d node k last (child.openToken :: (tokens child.content).take k')

theorem Stand.leading {s k : Nat} (h : Stand r d node s k) (hnode : HoldsText S node.content) (hk : k + d = r.depth) :
    ∃ first rest, Leading S r d node k first rest ∧ ∀ target, rangeStart (some r) d target = .ok (first, target) := by
  cases h with
  | @seam _ _ _ before after hlevel hdepth hpos hparent hcontent =>
    have hzero : Fragment.size before = 0 := by omega
    refine ⟨before.length, [], .bottom hdepth hzero ?_, fun target => ?_⟩
    · rw [hcontent, List.take_left, tokens_of_size_zero hzero]
    · rw [rangeStart, ok_bind (index_of_level hlevel), if_neg (by omega),
        ok_bind (show r.textOffset = .ok 0 from textOffset_of_level hlevel hdepth hpos), if_neg (by simp)]
      rfl
  | @inText _ _ _ before piece after units off hlevel hdepth hpos hparent hcontent hunits hoff hlt =>
    omega
  | @down _ _ _ before child after k' hlevel hdepth hcontent hinner hle hstand =>
    have hzero : Fragment.size before = 0 := by
      have := hstand.depth_le
      omega
    refine ⟨before.length + 1, _, .down hdepth hcontent (tokens_of_size_zero hzero) rfl hinner
      (hnode.child hcontent) (by omega) hstand (by omega), fun target => ?_⟩
    rw [rangeStart, ok_bind (index_of_level hlevel), if_pos hdepth]
    rfl

theorem Stand.trailing {s k : Nat} (h : Stand r d node s k) (hnode : HoldsText S node.content)
    (hk : Fragment.size node.content + d = k + r.depth) :
    ∃ last rest, Trailing S r d node k last rest ∧ r.index d = .ok last ∧
      ∀ target, rangeEnd (some r) d target = .ok target := by
  cases h with
  | @seam _ _ _ before after hlevel hdepth hpos hparent hcontent =>
    have hsize := congrArg Fragment.size hcontent
    rw [Fragment.size_append] at hsize
    refine ⟨before.length, [], .bottom hdepth (by omega) ?_, index_of_level hlevel, fun target => ?_⟩
    · rw [hcontent, List.drop_left, tokens_of_size_zero (by omega)]
    · rw [rangeEnd, if_pos hdepth,
        ok_bind (show r.textOffset = .ok 0 from textOffset_of_level hlevel hdepth hpos),
        if_neg (by simp)]
      rfl
  | @inText _ _ _ before piece after units off hlevel hdepth hpos hparent hcontent hunits hoff hlt =>
    rw [hcontent, Fragment.size_append, Fragment.size, Node.nodeSize_text hunits] at hk
    omega
  | @down _ _ _ before child after k' hlevel hdepth hcontent hinner hle hstand =>
    have hrest := hstand.depth_le_rest
    rw [hcontent, Fragment.size_append, Fragment.size, hinner.nodeSize] at hk
    refine ⟨before.length, _, .down hdepth hcontent (tokens_of_size_zero (by omega)) rfl hinner
      (hnode.child hcontent) rfl hstand (by omega), index_of_level hlevel, fun target => ?_⟩
    rw [rangeEnd, if_neg hdepth.ne']

theorem Node.Inner.tokens_ne_nil (h : node.Inner) : node.tokens ≠ [] := by
  rw [h.tokens]
  exact List.cons_ne_nil _ _

/-- An inner child is not among children without tokens. -/
theorem not_mem_of_tokens_nil {nodes : List Node} {child : Node} (h : tokens nodes = [])
    (hinner : child.Inner) : child ∉ nodes := by
  intro hmem
  obtain ⟨before, after, rfl⟩ := List.append_of_mem hmem
  rw [tokens_append, tokens_cons] at h
  exact hinner.tokens_ne_nil (List.append_eq_nil_iff.mp (List.append_eq_nil_iff.mp h).2).1

theorem mem_take {content before after : List Node} {child : Node} {n : Nat}
    (hcontent : content = before ++ child :: after) (h : before.length < n) : child ∈ content.take n := by
  obtain ⟨m, rfl⟩ := Nat.exists_eq_add_of_lt h
  rw [hcontent, List.take_append, Nat.add_assoc, Nat.add_sub_cancel_left, List.take_succ_cons]
  exact List.mem_append_right _ (List.mem_cons_self ..)

theorem mem_drop {content before after : List Node} {child : Node} {n : Nat}
    (hcontent : content = before ++ child :: after) (h : n ≤ before.length) : child ∈ content.drop n := by
  rw [hcontent, List.drop_append_of_le_length h]
  exact List.mem_append_right _ (List.mem_cons_self ..)

theorem tokens_take (content : List Node) {i j : Nat} (h : i ≤ j) :
    tokens (content.take j) = tokens (content.take i) ++ tokens ((content.drop i).take (j - i)) := by
  obtain ⟨n, rfl⟩ := Nat.exists_eq_add_of_le h
  rw [List.take_add, tokens_append, Nat.add_sub_cancel_left]

theorem tokens_split (content : List Node) (i : Nat) :
    tokens content = tokens (content.take i) ++ tokens (content.drop i) := by
  rw [← tokens_append, List.take_append_drop]

variable {start stop : ResolvedPos}

/-- Between an edge of openings and an edge of closings in different children lie what is left of the
    first child, the range and what is left of the second. -/
theorem edges_tokens {ks ke first last : Nat} {rest front : List Token} (hs : Leading S start d node ks first rest)
    (he : Trailing S stop d node ke last front) (happart : d < start.depth → d < stop.depth → first ≠ last + 1) :
    rest ++ tokens ((node.content.drop first).take (last - first)) ++ front =
      ((tokens node.content).take ke).drop ks := by
  cases hs with
  | bottom hsdepth hks hbefore =>
    rw [hks, List.drop_zero, List.nil_append]
    cases he with
    | bottom hedepth hke hafter =>
      rw [hke, ← length_tokens, List.take_length, List.append_nil, tokens_split node.content last, hafter,
        List.append_nil]
      by_cases hle : first ≤ last
      · rw [tokens_take node.content hle, hbefore, List.nil_append]
      · have hfront := tokens_take node.content (Nat.le_of_not_le hle)
        rw [hbefore] at hfront
        rw [Nat.sub_eq_zero_of_le (by omega), List.take_zero]
        exact (List.append_eq_nil_iff.mp hfront.symm).1.symm
    | @down before child after s k' hedepth hcontent hafter hlast hinner hholds hke hstand hk =>
      have hle : first ≤ last := by
        by_contra hlt
        exact not_mem_of_tokens_nil hbefore hinner (mem_take hcontent (by omega))
      have hrange := tokens_take node.content hle
      rw [hbefore, hlast, hcontent, List.take_left, List.nil_append] at hrange
      have htokens : tokens node.content = tokens before ++ child.tokens ++ [] := by
        rw [hcontent, tokens_append, tokens_cons, hafter, List.append_assoc]
      rw [htokens, hke, ← length_tokens before, take_in_child hinner hstand.le_size, hlast, hcontent,
        ← hrange]
  | @down before child after s k' hsdepth hcontent hbefore hfirst hinner hholds hks hstand hk =>
    have hhead : tokens (node.content.take first) = child.tokens := by
      rw [hfirst, hcontent, List.take_append, List.take_of_length_le (Nat.le_succ _),
        Nat.add_sub_cancel_left, List.take_succ_cons, List.take_zero, tokens_append, hbefore]
      simp
    have hdrop : ∀ right : List Token, (child.tokens ++ right).drop (1 + k') =
        (tokens child.content).drop k' ++ .closing :: right := fun right => by
      have : ([] ++ child.tokens ++ right).drop (([] : List Token).length + 1 + k') = _ :=
        drop_in_child hinner hstand.le_size
      rwa [List.nil_append, List.length_nil, Nat.zero_add] at this
    rw [hks]
    cases he with
    | bottom hedepth hke hafter =>
      have hle : first ≤ last := by
        by_contra hlt
        exact not_mem_of_tokens_nil hafter hinner (mem_drop hcontent (by omega))
      have hrange := tokens_take node.content hle
      rw [hhead] at hrange
      rw [hke, ← length_tokens, List.take_length, tokens_split node.content last, hafter, hrange,
        List.append_nil, List.append_nil, hdrop]
      simp
    | @down before' child' after' s' k'' hedepth hcontent' hafter hlast hinner' hholds' hke hstand' hk' =>
      have hne : before.length ≠ before'.length := by
        have := happart hsdepth hedepth
        omega
      have hle : first ≤ last := by
        by_contra hlt
        refine not_mem_of_tokens_nil hbefore hinner' ?_
        have := mem_take hcontent' (n := before.length) (by omega)
        rwa [hcontent, List.take_left] at this
      have hrange := tokens_take node.content hle
      rw [hhead] at hrange
      have hfront : tokens (node.content.take last) = tokens before' := by
        rw [hlast, hcontent', List.take_left]
      have htokens : tokens node.content = tokens before' ++ child'.tokens ++ [] := by
        rw [hcontent', tokens_append, tokens_cons, hafter, List.append_assoc]
      rw [htokens, hke, ← length_tokens before', take_in_child hinner' hstand'.le_size, ← hfront, hrange,
        List.append_assoc, List.append_assoc child.tokens, hdrop]
      simp

/-- Inside one child of both edges, they lie as they lie in that child. -/
theorem edges_inside {ks ke last : Nat} {rest front : List Token} (hs : Leading S start d node ks (last + 1) rest)
    (he : Trailing S stop d node ke last front) (hsdepth : d < start.depth) (hedepth : d < stop.depth) :
    ∃ child s k s' k', child.Inner ∧ child.HoldsText S ∧ Stand start (d + 1) child s k ∧
      Stand stop (d + 1) child s' k' ∧ k + (d + 1) = start.depth ∧
      Fragment.size child.content + (d + 1) = k' + stop.depth ∧
      ((tokens node.content).take ke).drop ks = ((tokens child.content).take k').drop k := by
  cases hs with
  | bottom hbottom => omega
  | @down before child after s k _ hcontent hbefore hfirst hinner hholds hks hstand hk =>
    cases he with
    | bottom hbottom => omega
    | @down before' child' after' s' k' _ hcontent' hafter hlast _ _ hke hstand' hk' =>
      obtain ⟨rfl, hrest⟩ :=
        List.append_inj (hcontent.symm.trans hcontent') (by omega)
      obtain ⟨rfl, rfl⟩ := List.cons.inj hrest
      refine ⟨child, s, k, s', k', hinner, hholds, hstand, hstand', hk, hk', ?_⟩
      have htokens : tokens node.content = [] ++ child.tokens ++ [] := by
        rw [hcontent, tokens_append, tokens_cons, hbefore, hafter, List.append_assoc]
      have hsize : Fragment.size before = 0 := by
        rw [← length_tokens, hbefore]
        rfl
      have hle := hstand'.le_size
      rw [← length_tokens] at hle
      rw [htokens, hke, hsize, hks, hinner.tokens]
      simp only [List.nil_append, List.append_nil, Nat.zero_add, Nat.add_comm 1, List.take_succ_cons,
        List.drop_succ_cons, List.take_append_of_le_length hle]

/-! ### Three ways -/

theorem openSide_ok {deeper : Prop} [Decidable deeper] {x : Out Node} {side : Option Node}
    (h : openSide deeper x = .ok side) :
    (deeper ∧ ∃ node, side = some node ∧ x = .ok node) ∨ (¬deeper ∧ side = none) := by
  unfold openSide at h
  split_ifs at h with hdeeper
  · cases x with
    | error e => simp [Except.map] at h
    | ok node => exact .inl ⟨hdeeper, node, (Except.ok.inj h).symm, rfl⟩
  · exact .inr ⟨hdeeper, (Except.ok.inj h).symm⟩

/-- A range between the two edges of a slice adds the children between them. -/
theorem addRange_between {first last : Nat} {target out : List Node} (hat : stop.node d = .ok node)
    (hnode : HoldsText S node.content) (htarget : HoldsText S target)
    (hfirst : rangeStart (some start) d target = .ok (first, target)) (hlast : stop.index d = .ok last)
    (hend : ∀ target, rangeEnd (some stop) d target = .ok target)
    (h : addRange (some start) (some stop) d target = .ok out) :
    tokens out = tokens target ++ tokens ((node.content.drop first).take (last - first)) ∧ HoldsText S out := by
  obtain ⟨last', first', begun, mid, hlast', hfirst', hmid, hout⟩ := addRange_ok rfl hat h
  obtain ⟨rfl, rfl⟩ := Prod.mk.inj (Except.ok.inj (hfirst.symm.trans hfirst'))
  obtain rfl : last = last' := Except.ok.inj (hlast.symm.trans hlast')
  obtain rfl : mid = out := Except.ok.inj ((hend mid).symm.trans hout)
  exact addChildren_tokens hnode htarget hmid

/-- What a level of `replaceThreeWay` does: it goes on in the one child that holds both edges of the
    slice, or joins each side apart. -/
theorem threeWay_ok (h : replaceThreeWay S fro start stop to_ d = .ok out) :
    ∃ openStart openEnd content,
      openSide (d < fro.depth) (joinable S fro start (d + 1)) = .ok openStart ∧
      openSide (d < to_.depth) (joinable S stop to_ (d + 1)) = .ok openEnd ∧
      addRange none (some fro) d [] = .ok content ∧
      ((∃ first last i inner closed, openStart = some first ∧ openEnd = some last ∧
          start.index d = .ok i ∧ stop.index d = .ok i ∧ d < fro.depth ∧
          replaceThreeWay S fro start stop to_ (d + 1) = .ok inner ∧ close S first inner = .ok closed ∧
          addRange (some to_) none d (addNode closed content) = .ok out) ∨
        ∃ next, replaceApart S fro start stop to_ d openStart openEnd content = .ok next ∧
          addRange (some to_) none d next = .ok out ∧
          (openStart.isSome → openEnd.isSome → start.index d ≠ stop.index d)) := by
  unfold replaceThreeWay at h
  obtain ⟨openStart, hstart, h⟩ := bind_ok h
  obtain ⟨openEnd, hend, h⟩ := bind_ok h
  obtain ⟨content, hcontent, h⟩ := bind_ok h
  refine ⟨openStart, openEnd, content, hstart, hend, hcontent, ?_⟩
  cases openStart with
  | none =>
    obtain ⟨next, hapart, h⟩ := bind_ok h
    exact .inr ⟨next, hapart, h, nofun⟩
  | some first =>
    cases openEnd with
    | none =>
      obtain ⟨next, hapart, h⟩ := bind_ok h
      exact .inr ⟨next, hapart, h, nofun⟩
    | some last =>
      dsimp only at h
      obtain ⟨i, hi, h⟩ := bind_ok h
      obtain ⟨j, hj, h⟩ := bind_ok h
      by_cases hij : i = j
      · rw [if_pos hij] at h
        obtain ⟨_, -, h⟩ := bind_ok h
        by_cases hlt : d < fro.depth
        · rw [dif_pos hlt] at h
          obtain ⟨inner, hinner, h⟩ := bind_ok h
          obtain ⟨closed, hclose, h⟩ := bind_ok h
          exact .inl ⟨first, last, i, inner, closed, rfl, rfl, hi, hij ▸ hj, hlt, hinner, hclose, h⟩
        · rw [dif_neg hlt] at h
          exact absurd h (by simp [panics])
      · rw [if_neg hij] at h
        obtain ⟨next, hapart, h⟩ := bind_ok h
        refine .inr ⟨next, hapart, h, fun _ _ hsame => hij ?_⟩
        exact Except.ok.inj (hi.symm.trans (hsame.trans hj))

theorem threeWay_depth (hd : d ≤ start.depth) (h : replaceThreeWay S fro start stop to_ d = .ok out) :
    fro.depth ≤ start.depth := by
  induction hn : fro.depth - d generalizing d out with
  | zero => omega
  | succ n ih =>
    obtain ⟨openStart, openEnd, content, hstart, -, -, h⟩ := threeWay_ok h
    obtain ⟨-, first, rfl, hfirst⟩ | ⟨hno, -⟩ := openSide_ok hstart
    · rcases h with ⟨-, -, -, inner, -, -, -, -, -, -, hinner, -, -⟩ | ⟨next, hapart, -, -⟩
      · exact ih (joinable_ok hfirst).2 hinner (by omega)
      · obtain ⟨_, hopen, -⟩ := bind_ok hapart
        obtain ⟨_, htwo, -⟩ := bind_ok hopen
        exact twoWay_depth (joinable_ok hfirst).2 htwo
    · omega

/-- What is left of the slice's first child joins behind the front of the document. -/
theorem joinStart_tokens {nf nw : Node} {sf kf ks first : Nat}
    {rest : List Token} {openStart : Option Node} {content next : List Node}
    (hstart : openSide (d < fro.depth) (joinable S fro start (d + 1)) = .ok openStart)
    (hbeside : Beside S fro d nf kf left right) (hlead : Leading S start d nw ks first rest)
    (hdepth : start.depth = fro.depth) (hf : Stand fro d nf sf kf)
    (hcontent : tokens content = left) (hholds : HoldsText S content)
    (h : openStart.elim (.ok content) (fun first => do
      let inner ← replaceTwoWay S fro start (d + 1)
      let closed ← close S first inner
      pure (addNode closed content)) = .ok next) :
    tokens next = (tokens nf.content).take kf ++ rest ∧ HoldsText S next := by
  obtain ⟨hlt, main, rfl, hjoin⟩ | ⟨hno, rfl⟩ := openSide_ok hstart
  · obtain ⟨inner, htwo, h⟩ := bind_ok h
    obtain ⟨closed, hclose, h⟩ := bind_ok h
    obtain rfl := Except.ok.inj h
    obtain ⟨child, _, _, hchild, hinner, hcholds, hstand, htake, -⟩ := hbeside.child hlt
    obtain rfl := Except.ok.inj ((joinable_ok hjoin).1.symm.trans hchild)
    cases hlead with
    | bottom hbottom => omega
    | down _ _ _ _ _ hwholds _ hwstand _ =>
      obtain ⟨htokens, hiholds⟩ :=
        twoWay_tokens hstand hwstand hcholds.content hwholds.content hdepth.le htwo
      obtain ⟨hadd, hadded⟩ := addClosed_tokens hinner hcholds hiholds hholds hclose
      exact ⟨by rw [hadd, hcontent, htokens, htake]; simp, hadded⟩
  · obtain rfl := Except.ok.inj h
    have hbottom : fro.depth = d := by
      have := hf.le_depth
      omega
    cases hlead with
    | down hlt => omega
    | bottom _ _ _ => exact ⟨by rw [hcontent, hbeside.take hbottom, List.append_nil], hholds⟩

/-- The back of the document joins behind what is taken of the slice's last child. -/
theorem joinEnd_tokens {nt nw : Node} {st kt ke last : Nat}
    {front : List Token} {openEnd : Option Node} {content next out : List Node}
    (hend : openSide (d < to_.depth) (joinable S stop to_ (d + 1)) = .ok openEnd)
    (hbeside : Beside S to_ d nt kt left right) (hsides : Sides S to_ d left right)
    (htrail : Trailing S stop d nw ke last front) (hdepth : stop.depth = to_.depth)
    (ht : Stand to_ d nt st kt) (hholds : HoldsText S content)
    (h : openEnd.elim (.ok content) (fun last => do
      let inner ← replaceTwoWay S stop to_ (d + 1)
      let closed ← close S last inner
      pure (addNode closed content)) = .ok next)
    (hout : addRange (some to_) none d next = .ok out) :
    tokens out = tokens content ++ front ++ (tokens nt.content).drop kt ∧ HoldsText S out := by
  obtain ⟨hlt, main, rfl, hjoin⟩ | ⟨hno, rfl⟩ := openSide_ok hend
  · obtain ⟨inner, htwo, h⟩ := bind_ok h
    obtain ⟨closed, hclose, h⟩ := bind_ok h
    obtain rfl := Except.ok.inj h
    obtain ⟨child, _, _, -, -, hcholds, hstand, -, hdrop⟩ := hbeside.child hlt
    cases htrail with
    | bottom hbottom => omega
    | down _ _ _ _ hwinner hwholds _ hwstand _ =>
      obtain rfl := Except.ok.inj ((joinable_ok hjoin).1.symm.trans hwstand.node_eq)
      obtain ⟨htokens, hiholds⟩ :=
        twoWay_tokens hwstand hstand hwholds.content hcholds.content hdepth.ge htwo
      obtain ⟨hadd, hadded⟩ := addClosed_tokens hwinner hwholds hiholds hholds hclose
      obtain ⟨hright, hout⟩ := hsides.after hadded hout
      exact ⟨by rw [hright, hadd, htokens, hdrop]; simp, hout⟩
  · obtain rfl := Except.ok.inj h
    have hbottom : to_.depth = d := by
      have := ht.le_depth
      omega
    obtain ⟨hright, hout⟩ := hsides.after hholds hout
    cases htrail with
    | down hlt => omega
    | bottom _ _ _ => exact ⟨by rw [hright, hbeside.drop hbottom, List.append_nil], hout⟩

/-- The two sides of the document join around what lies between the edges of the slice. -/
theorem threeWay_tokens {nf nt nw : Node} {sf kf st kt sw ks sw' ke : Nat} (hf : Stand fro d nf sf kf)
    (ht : Stand to_ d nt st kt) (hs : Stand start d nw sw ks) (he : Stand stop d nw sw' ke)
    (hfholds : HoldsText S nf.content) (htholds : HoldsText S nt.content) (hwholds : HoldsText S nw.content)
    (hsdepth : start.depth = fro.depth) (hedepth : stop.depth = to_.depth) (hks : ks + d = start.depth)
    (hke : Fragment.size nw.content + d = ke + stop.depth) (h : replaceThreeWay S fro start stop to_ d = .ok out) :
    tokens out = (tokens nf.content).take kf ++ ((tokens nw.content).take ke).drop ks ++
        (tokens nt.content).drop kt ∧ HoldsText S out := by
  induction hn : fro.depth - d using Nat.strong_induction_on
    generalizing d nf nt nw sf kf st kt sw ks sw' ke out with
  | _ n ih =>
  obtain ⟨openStart, openEnd, content, hstart, hend, hcontent, h⟩ := threeWay_ok h
  obtain ⟨_, _, hbeside, hsides⟩ := hf.sides hfholds
  obtain ⟨_, _, hbeside', hsides'⟩ := ht.sides htholds
  obtain ⟨hleft, hholds⟩ := hsides.before holdsText_nil hcontent
  obtain ⟨first, rest, hlead, hfirst⟩ := hs.leading hwholds hks
  obtain ⟨last, front, htrail, hlast, hstop⟩ := he.trailing hwholds hke
  rcases h with ⟨main, sub, i, inner, closed, rfl, rfl, hi, hj, hlt, hinner, hclose, h⟩ |
    ⟨next, hapart, h, hne⟩
  · obtain ⟨-, _, hsome, hjoin⟩ | ⟨-, hno⟩ := openSide_ok hstart
    · obtain rfl := Option.some.inj hsome
      obtain ⟨hdeep, -⟩ | ⟨-, hno⟩ := openSide_ok hend
      · have hsame : first = last + 1 := by
          have := hfirst []
          rw [rangeStart, ok_bind hi, if_pos (by omega)] at this
          obtain rfl := Except.ok.inj (hj.symm.trans hlast)
          exact (Prod.mk.inj (Except.ok.inj this)).1.symm
        subst hsame
        obtain ⟨child, _, _, _, _, hwinner, hwchild, hs', he', hks', hke', hmid⟩ :=
          edges_inside hlead htrail (by omega) (by omega)
        obtain ⟨_, _, _, hchild, hcinner, hcholds, hstand, htake, -⟩ := hbeside.child hlt
        obtain ⟨_, _, _, -, -, hcholds', hstand', -, hdrop⟩ := hbeside'.child hdeep
        obtain rfl := Except.ok.inj ((joinable_ok hjoin).1.symm.trans hchild)
        obtain ⟨htokens, hiholds⟩ := ih (fro.depth - (d + 1)) (by omega) hstand hstand' hs' he'
          hcholds.content hcholds'.content hwchild.content hks' hke' hinner rfl
        obtain ⟨hadd, hadded⟩ := addClosed_tokens hcinner hcholds hiholds hholds hclose
        obtain ⟨hright, hout⟩ := hsides'.after hadded h
        refine ⟨?_, hout⟩
        rw [hright, hadd, hleft, htokens, htake, hdrop, hmid]
        simp
      · cases hno
    · cases hno
  · obtain ⟨begun, hbegun, hapart⟩ := bind_ok hapart
    obtain ⟨between, hbetween, hapart⟩ := bind_ok hapart
    obtain ⟨hbtokens, hbholds⟩ :=
      joinStart_tokens hstart hbeside hlead hsdepth hf hleft hholds hbegun
    obtain ⟨hrange, hrholds⟩ :=
      addRange_between he.node_eq hwholds hbholds (hfirst begun) hlast hstop hbetween
    obtain ⟨htokens, hout⟩ :=
      joinEnd_tokens hend hbeside' hsides' htrail hedepth ht hrholds hapart h
    refine ⟨?_, hout⟩
    rw [htokens, hrange, hbtokens, ← edges_tokens hlead htrail fun hslt helt hsame => ?_]
    · simp
    · obtain ⟨-, _, rfl, -⟩ | ⟨hno, -⟩ := openSide_ok hstart
      · obtain ⟨-, _, rfl, -⟩ | ⟨hno, -⟩ := openSide_ok hend
        · refine hne rfl rfl (Eq.trans ?_ hlast.symm)
          have := hfirst []
          unfold rangeStart at this
          obtain ⟨i, hi, this⟩ := bind_ok this
          rw [if_pos hslt] at this
          rw [hi, Nat.succ.inj ((Prod.mk.inj (Except.ok.inj this)).1.trans hsame)]
        · omega
      · omega

end Kodosi.Text
