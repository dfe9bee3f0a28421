import Kodosi.Text.OpenSides
import Kodosi.Text.Valid

/-! What `Node::replace` gives, as a splice of tokens. -/

namespace Kodosi.Text

open Lib

variable {S : Schema} {fro to_ r : ResolvedPos} {slice : Slice} {d s k n : Nat} {node doc : Node}
  {content : Fragment} {Q : NodeId → Prop}

/-! ### The slice beside the path -/

theorem node_depth_le (h : r.node d = .ok node) : d ≤ r.depth := by
  unfold ResolvedPos.node at h
  cases hlevel : r.level d with
  | error e => simp [hlevel, Except.map] at h
  | ok l => exact level_depth_lt hlevel

theorem index_depth_le {i : Nat} (h : r.index d = .ok i) : d ≤ r.depth := by
  unfold ResolvedPos.index at h
  cases hlevel : r.level d with
  | error e => simp [hlevel, Except.map] at h
  | ok l => exact level_depth_lt hlevel

/-- The nodes of a path below its first are inner nodes of the document. -/
theorem Stand.lower (h : Stand r d node s k) :
    ∀ {j : Nat} {child : Node}, d < j → r.node j = .ok child →
      child.Inner ∧ ∀ S : Schema, HoldsText S node.content → child.HoldsText S := by
  induction h with
  | seam _ hdepth =>
    intro j child hlt hnode
    have := node_depth_le hnode
    omega
  | inText _ hdepth =>
    intro j child hlt hnode
    have := node_depth_le hnode
    omega
  | @down d _ _ before inner after _ _ _ hcontent hinner _ hstand ih =>
    intro j child hlt hnode
    by_cases hj : j = d + 1
    · subst hj
      obtain rfl := Except.ok.inj (hstand.node_eq.symm.trans hnode)
      exact ⟨hinner, fun S hholds => hholds.child hcontent⟩
    · obtain ⟨hcinner, hcholds⟩ := ih (by omega) hnode
      exact ⟨hcinner, fun S hholds => hcholds S (hholds.child hcontent).content⟩

variable {out : Node}

theorem wrap_shelled {along : ResolvedPos}
    (hbelow : ∀ {j : Nat} {child : Node}, 0 < j → along.node j = .ok child → child.Inner ∧ Q child.kind)
    (hshelled : Shelled Q content n node) (hnode : 0 < d → node.Inner ∧ Q node.kind) (h : wrap along d node = .ok out) :
    Shelled Q content (n + d) out := by
  induction d generalizing n node with
  | zero =>
    obtain rfl := Except.ok.inj h
    exact hshelled
  | succ d ih =>
    obtain ⟨outer, houter, h⟩ := bind_ok h
    obtain ⟨hinner, hq⟩ := hnode (Nat.succ_pos d)
    have := ih (.shell (Node.copy_content outer _) hinner hq hshelled)
      (fun hd => ⟨(hbelow hd houter).1.copy _, (hbelow hd houter).2⟩) h
    rwa [Nat.add_assoc, Nat.add_comm 1 d] at this

/-- What `prepareSlice` prepares: the slice under the shells of the path, and its two edges in it. -/
theorem prepareSlice_ok {along start stop : ResolvedPos}
    (hbelow : ∀ {j : Nat} {child : Node}, 0 < j → along.node j = .ok child → child.Inner ∧ Q child.kind)
    (h : prepareSlice slice along = .ok (start, stop)) :
    ∃ extra outer, slice.openStart + extra = along.depth ∧ Shelled Q slice.content extra outer ∧
      Stand start 0 outer 0 along.depth ∧ slice.openEnd + extra ≤ Fragment.size outer.content ∧
      Stand stop 0 outer 0 (Fragment.size outer.content - (slice.openEnd + extra)) := by
  unfold prepareSlice at h
  obtain ⟨extra, hextra, h⟩ := bind_ok h
  obtain ⟨core, hcore, h⟩ := bind_ok h
  obtain ⟨outer, houter, h⟩ := bind_ok h
  obtain ⟨pos, hpos, h⟩ := bind_ok h
  obtain ⟨start', hstart, h⟩ := bind_ok h
  obtain ⟨sides, hsides, h⟩ := bind_ok h
  split_ifs at h with hsmall
  · simp [failed] at h
  obtain ⟨stop', hstop, h⟩ := bind_ok h
  obtain ⟨rfl, rfl⟩ := Prod.mk.inj (Except.ok.inj h)
  obtain ⟨hle, hextra⟩ := sub64_ok.mp hextra
  obtain ⟨-, rfl⟩ := add64_ok.mp hpos
  obtain ⟨-, rfl⟩ := add64_ok.mp hsides
  have hsum : slice.openStart + extra = along.depth := by omega
  have hshelled := wrap_shelled (n := 0) hbelow
    (.core (Node.copy_content core slice.content)) (fun hd => ⟨(hbelow hd hcore).1.copy _, (hbelow hd hcore).2⟩) houter
  rw [Nat.zero_add] at hshelled
  refine ⟨extra, outer, hsum, hshelled, ?_, by omega, resolve_stand hstop⟩
  rw [← hsum]
  exact resolve_stand hstart

variable {start stop : ResolvedPos}

/-- Both edges of a shelled slice stand in the same shell on each level of the shells. -/
theorem edges_shelled {outer : Node} {p q : Nat} (hshelled : Shelled Q content n outer)
    (hstart : Stand start 0 outer 0 p) (hstop : Stand stop 0 outer 0 q) (hsdepth : start.depth = p)
    (hedepth : stop.depth + q = Fragment.size outer.content) (hp : n ≤ p) (hq : n ≤ stop.depth) (hd : d ≤ n) :
    ∃ shell s s' ks ke, Shelled Q content (n - d) shell ∧ Stand start d shell s ks ∧
      Stand stop d shell s' ke ∧ ks + d = p ∧ ke + d = q ∧
      Fragment.size shell.content + 2 * d = Fragment.size outer.content := by
  induction d with
  | zero => exact ⟨outer, 0, 0, p, q, hshelled, hstart, hstop, rfl, rfl, rfl⟩
  | succ d ih =>
    obtain ⟨shell, s, s', ks, ke, hshell, hs, he, hks, hke, hsize⟩ := ih (by omega)
    rw [show n - d = n - (d + 1) + 1 by omega] at hshell
    cases hshell with
    | @shell _ _ inner hnode hinner hkind hrest =>
      have := hs.depth_le_rest
      have := he.depth_le
      obtain ⟨t, hs⟩ := hs.shelled hnode hinner (by omega) (by omega)
      obtain ⟨t', he⟩ := he.shelled hnode hinner (by omega) (by omega)
      refine ⟨inner, t, t', _, _, hrest, hs, he, by omega, by omega, ?_⟩
      rw [hnode, Fragment.size, hinner.nodeSize, Fragment.size] at hsize
      omega

variable {sf kf st kt : Nat}

/-- Two positions in one child of a node: how that child lies in it. -/
theorem same_child {i j : Nat} (hf : Stand fro d node sf kf) (ht : Stand to_ d node st kt) (hi : fro.index d = .ok i)
    (hj : to_.index d = .ok j) (hij : i = j) (hflt : d < fro.depth) (htlt : d < to_.depth) :
    ∃ before child after sf' kf' st' kt', node.content = before ++ child :: after ∧ child.Inner ∧
      i = before.length ∧ Stand fro (d + 1) child sf' kf' ∧ Stand to_ (d + 1) child st' kt' ∧
      (tokens node.content).take kf =
        tokens before ++ child.openToken :: (tokens child.content).take kf' ∧
      (tokens node.content).drop kt = (tokens child.content).drop kt' ++ .closing :: tokens after := by
  cases hf with
  | seam _ hdepth => omega
  | inText _ hdepth => omega
  | @down _ _ _ before child after kf' hlevel _ hcontent hinner hle hstand =>
    cases ht with
    | seam _ hdepth => omega
    | inText _ hdepth => omega
    | @down _ _ _ before' child' after' kt' hlevel' _ hcontent' hinner' hle' hstand' =>
      have hbefore : before.length = before'.length := by
        rw [← Except.ok.inj ((index_of_level hlevel).symm.trans hi) ] at hij
        exact hij.trans (Except.ok.inj ((index_of_level hlevel').symm.trans hj)).symm
      obtain ⟨rfl, hrest⟩ := List.append_inj (hcontent.symm.trans hcontent') hbefore
      obtain ⟨rfl, rfl⟩ := List.cons.inj hrest
      have htokens : tokens node.content = tokens before ++ child.tokens ++ tokens after := by
        rw [hcontent, tokens_append, tokens_cons, List.append_assoc]
      refine ⟨before, child, after, _, kf', _, kt', hcontent, hinner,
        (Except.ok.inj ((index_of_level hlevel).symm.trans hi)).symm, hstand, hstand', ?_, ?_⟩
      · rw [htokens, ← length_tokens before, take_in_child hinner hle]
      · rw [htokens, ← length_tokens before, drop_in_child hinner hle']

/-! ### Replacing -/

theorem Stand.parentOffset (h : Stand r d node s k) (hdepth : r.depth = d) : r.parentOffset = k := by
  cases h with
  | seam _ _ _ hparent => exact hparent
  | inText _ _ _ hparent => exact hparent
  | down _ hlt => omega

/-- The slice is open to the right as deep as it says, or it is empty and opens no deeper on the right
    than on the left. -/
def Slice.Sided (slice : Slice) : Prop :=
  Closes slice.openEnd slice.content ∨
    Fragment.size slice.content = 0 ∧ slice.openEnd ≤ slice.openStart

/-- The tokens of a slice without those of its open sides. -/
def Slice.inside (slice : Slice) : List Token :=
  ((tokens slice.content).take (Fragment.size slice.content - slice.openEnd)).drop slice.openStart

variable {lo : Nat}

/-- On the level where the two sides of the document join around a slice. -/
theorem threeWay_inside {out : Fragment} (hroot : Stand fro 0 doc 0 lo) (hdoc : HoldsText S doc.content)
    (hf : Stand fro d node sf kf) (ht : Stand to_ d node st kt) (hnode : HoldsText S node.content)
    (hslice : HoldsText S slice.content) (hcloses : Closes slice.openEnd slice.content)
    (hdepths : fro.depth + slice.openEnd = to_.depth + slice.openStart) (hd : d + slice.openStart ≤ fro.depth)
    (hprepare : prepareSlice slice fro = .ok (start, stop)) (h : replaceThreeWay S fro start stop to_ d = .ok out) :
    tokens out = (tokens node.content).take kf ++ slice.inside ++ (tokens node.content).drop kt ∧ HoldsText S out := by
  obtain ⟨extra, outer, hextra, hshelled, hstart, hle, hstop⟩ :=
    prepareSlice_ok (Q := (· ≠ S.textNode)) (fun hj hchild => by
      obtain ⟨hinner, hholds⟩ := hroot.lower hj hchild
      refine ⟨hinner, fun hkind => ?_⟩
      have := (Node.holdsText_iff.mp (hholds S hdoc)).1.mpr hkind
      simp [hinner.not_isText] at this) hprepare
  have hedepth : stop.depth = slice.openEnd + extra := by
    have := closes_depth hstop (hshelled.closes hcloses) (by omega)
    omega
  have hsdepth : start.depth = fro.depth := by
    refine le_antisymm (by have := hstart.depth_le; omega) ?_
    by_cases hlt : d < fro.depth
    · obtain ⟨_, _, _, hopen, -, -, -⟩ := threeWay_ok h
      obtain ⟨-, _, -, hjoin⟩ | ⟨hno, -⟩ := openSide_ok hopen
      · exact threeWay_depth (by have := (joinable_ok hjoin).2; omega) h
      · omega
    · have := opens_depth hstart (hshelled.opens (m := 0) (by trivial)) (by omega)
      omega
  obtain ⟨shell, s, s', ks, ke, hshell, hs, he, hks, hke, hsize⟩ :=
    edges_shelled (d := d) hshelled hstart hstop hsdepth (by omega) (by omega) (by omega) (by omega)
  have hholds := hshell.holdsText (fun _ => id) hslice
  obtain ⟨htokens, hout⟩ := threeWay_tokens hf ht hs he hnode hnode hholds hsdepth (by omega) (by omega)
    (by omega) h
  refine ⟨?_, hout⟩
  have hinside : ((tokens shell.content).take
      (Fragment.size shell.content - (slice.openEnd + (extra - d)))).drop (slice.openStart + (extra - d)) =
      ((tokens slice.content).take (Fragment.size slice.content - slice.openEnd)).drop slice.openStart :=
    hshell.inside
  rw [htokens, Slice.inside, ← hinside]
  congr 4 <;> omega

/-- The content that a level of a replacement gives its node: the two sides of the range joined, those sides with a
    flat slice between them, or joined to the open sides of the slice. -/
inductive Refilled (S : Schema) (fro to_ : ResolvedPos) (slice : Slice) (d : Nat) (node : Node) : Fragment → Prop
  | joined {content : Fragment} : Fragment.size slice.content = 0 → replaceTwoWay S fro to_ d = .ok content →
      Refilled S fro to_ slice d node content
  | between {before after : Fragment} : slice.openStart = 0 → slice.openEnd = 0 → fro.depth = d → to_.depth = d →
      Fragment.cut node.content 0 fro.parentOffset = .ok before →
      Fragment.cutEnd node.content to_.parentOffset = .ok after →
      Refilled S fro to_ slice d node (Fragment.append (Fragment.append before slice.content) after)
  | around {start stop : ResolvedPos} {content : Fragment} : Fragment.size slice.content ≠ 0 →
      prepareSlice slice fro = .ok (start, stop) → replaceThreeWay S fro start stop to_ d = .ok content →
      Refilled S fro to_ slice d node content

/-- What `replaceOuter` gives at a level: what it gives one level below, in the place of the child there, or the
    node of the level with other content that its rule takes. -/
inductive ReplacedAt (S : Schema) (fro to_ : ResolvedPos) (slice : Slice) : Nat → Node → Prop
  | inside {d i : Nat} {node inner : Node} : fro.index d = .ok i → fro.node d = .ok node → to_.index d = .ok i →
      d + slice.openStart < fro.depth → d < to_.depth → i < node.content.length →
      ReplacedAt S fro to_ slice (d + 1) inner → ReplacedAt S fro to_ slice d (node.copy (node.content.set i inner))
  | closed {d : Nat} {node : Node} {content : Fragment} : fro.node d = .ok node →
      Refilled S fro to_ slice d node content → S.validContent node.kind content = true →
      ReplacedAt S fro to_ slice d (node.copy content)

theorem replaceOuter_at (h : replaceOuter S fro to_ slice d = .ok out) : ReplacedAt S fro to_ slice d out := by
  induction hn : fro.depth - d using Nat.strong_induction_on generalizing d out with
  | _ n ih =>
  unfold replaceOuter at h
  obtain ⟨i, hi, h⟩ := bind_ok h
  obtain ⟨node, hnode, h⟩ := bind_ok h
  obtain ⟨j, hj, h⟩ := bind_ok h
  split_ifs at h with hinside hempty hflat
  · obtain ⟨inner, hinner, h⟩ := bind_ok h
    obtain ⟨content, hcontent, h⟩ := bind_ok h
    obtain rfl := Except.ok.inj h
    have hdeep : d + 1 ≤ to_.depth := by
      unfold replaceOuter at hinner
      obtain ⟨_, -, hinner⟩ := bind_ok hinner
      obtain ⟨_, -, hinner⟩ := bind_ok hinner
      obtain ⟨_, hindex, -⟩ := bind_ok hinner
      exact index_depth_le hindex
    unfold Fragment.replaceChild at hcontent
    split_ifs at hcontent with hlt
    · obtain rfl := Except.ok.inj hcontent
      exact .inside hi hnode (hinside.1 ▸ hj) hinside.2 hdeep hlt (ih (fro.depth - (d + 1)) (by omega) hinner rfl)
    · simp [failed] at hcontent
  · obtain ⟨content, htwo, h⟩ := bind_ok h
    obtain ⟨rfl, hrule⟩ := close_ok h
    exact .closed hnode (.joined hempty htwo) hrule
  · obtain ⟨parent, hparent, h⟩ := bind_ok h
    obtain ⟨before, hbefore, h⟩ := bind_ok h
    obtain ⟨after, hafter, h⟩ := bind_ok h
    obtain ⟨rfl, hrule⟩ := close_ok h
    obtain ⟨hos, hoe, hfd, htd⟩ := hflat
    rw [ResolvedPos.parent, hfd] at hparent
    obtain rfl := Except.ok.inj (hnode.symm.trans hparent)
    exact .closed hnode (.between hos hoe hfd htd hbefore hafter) hrule
  · obtain ⟨⟨start, stop⟩, hprepare, h⟩ := bind_ok h
    obtain ⟨content, hthree, h⟩ := bind_ok h
    obtain ⟨rfl, hrule⟩ := close_ok h
    exact .closed hnode (.around hempty hprepare hthree) hrule

/-- What one level of `replaceOuter` gives: its node, with the slice in the place of the range. -/
theorem replaceOuter_tokens (hroot : Stand fro 0 doc 0 lo) (hdoc : HoldsText S doc.content)
    (hf : Stand fro d node sf kf) (ht : Stand to_ d node st kt) (hnode : HoldsText S node.content)
    (hslice : HoldsText S slice.content) (hsided : slice.Sided)
    (hdepths : fro.depth + slice.openEnd = to_.depth + slice.openStart) (hd : d + slice.openStart ≤ fro.depth)
    (h : replaceOuter S fro to_ slice d = .ok out) :
    out = node.copy out.content ∧
      tokens out.content =
        (tokens node.content).take kf ++ slice.inside ++ (tokens node.content).drop kt ∧
      HoldsText S out.content := by
  replace h := replaceOuter_at h
  induction h generalizing node sf kf st kt with
  | @inside d i parent inner hi hat hj hopen hdeep hlt _ ih =>
    obtain rfl := Except.ok.inj (hf.node_eq.symm.trans hat)
    obtain ⟨before, child, after, sf', kf', st', kt', hcontent', hcinner, hib, hcf, hct,
        hfront, hback⟩ :=
      same_child hf ht hi hj rfl (by omega) hdeep
    have hchild : child.HoldsText S := hnode.child hcontent'
    obtain ⟨hcopy, htokens, hholds⟩ := ih hcf hct hchild.content (by omega)
    have hset : node.content.set i inner = before ++ inner :: after := by
      rw [hib, hcontent', List.set_append_right _ _ (le_refl _), Nat.sub_self, List.set_cons_zero]
    rw [hset]
    rw [hcopy] at hholds htokens ⊢
    rw [hcontent'] at hnode
    refine ⟨rfl, ?_, ?_⟩
    · rw [Node.copy_content, tokens_append, tokens_cons, hcinner.copy_tokens, ← Node.copy_content child inner.content,
        htokens, hfront, hback]
      simp
    · exact holdsText_append.mpr ⟨(holdsText_append.mp hnode).1, hchild.copy hholds,
        (holdsText_append.mp hnode).2.2⟩
  | closed hat hfilled _ =>
    obtain rfl := Except.ok.inj (hf.node_eq.symm.trans hat)
    refine ⟨rfl, ?_⟩
    cases hfilled with
    | joined hempty htwo =>
      have hle : slice.openEnd ≤ slice.openStart := by
        rcases hsided with hcloses | ⟨-, hle⟩
        · have := closes_le hcloses
          omega
        · exact hle
      obtain ⟨htokens, hholds⟩ := twoWay_tokens hf ht hnode hnode (by omega) htwo
      refine ⟨?_, hholds⟩
      rw [Node.copy_content, htokens, Slice.inside, tokens_of_size_zero hempty]
      simp
    | between hos hoe hfd htd hbefore hafter =>
      rw [hf.parentOffset hfd] at hbefore
      rw [ht.parentOffset htd] at hafter
      obtain ⟨hfront, hfholds⟩ := cut_before hf hfd hnode hbefore
      obtain ⟨hback, hbholds⟩ := cut_after ht htd hnode hafter
      obtain ⟨hjoin, hjholds⟩ := append_tokens hfholds hslice
      obtain ⟨htokens, hholds⟩ := append_tokens hjholds hbholds
      refine ⟨?_, hholds⟩
      rw [Node.copy_content, htokens, hjoin, hfront, hback, Slice.inside, hos, hoe, Nat.sub_zero,
        ← length_tokens, List.take_length, List.drop_zero]
    | around hempty hprepare hthree =>
      have hcloses : Closes slice.openEnd slice.content := by
        rcases hsided with hcloses | ⟨hzero, -⟩
        · exact hcloses
        · exact absurd hzero hempty
      exact threeWay_inside hroot hdoc hf ht hnode hslice hcloses hdepths hd hprepare hthree

theorem replace_ok {hi : Nat} (h : doc.replace S lo hi slice = .ok out) :
    ∃ fro to_, doc.resolve lo = .ok fro ∧ doc.resolve hi = .ok to_ ∧ slice.openStart ≤ fro.depth ∧
      fro.depth + slice.openEnd < 2 ^ 64 ∧
      fro.depth + slice.openEnd = to_.depth + slice.openStart ∧
      replaceOuter S fro to_ slice 0 = .ok out := by
  obtain ⟨fro, hfro, h⟩ := bind_ok h
  obtain ⟨to_, hto, h⟩ := bind_ok h
  unfold replace at h
  by_cases hdeep : fro.depth < slice.openStart
  · rw [if_pos hdeep] at h
    simp [failed] at h
  rw [if_neg hdeep] at h
  obtain ⟨left, hleft, h⟩ := bind_ok h
  obtain ⟨right, hright, h⟩ := bind_ok h
  obtain ⟨hlt, rfl⟩ := add64_ok.mp hleft
  obtain ⟨-, rfl⟩ := add64_ok.mp hright
  by_cases hne : fro.depth + slice.openEnd ≠ to_.depth + slice.openStart
  · rw [if_pos hne] at h
    simp [failed] at h
  rw [if_neg hne] at h
  exact ⟨fro, to_, hfro, hto, by omega, hlt, not_not.mp hne, h⟩

/-- A replacement that succeeds is a splice: the tokens before the range, those of the slice without
    its open sides, and those from the end of the range on. -/
theorem replace_splices (S : Schema) (doc out : Node) (lo hi : Nat) (slice : Slice)
    (hdoc : HoldsText S doc.content) (hslice : HoldsText S slice.content) (hsided : slice.Sided)
    (h : doc.replace S lo hi slice = .ok out) :
    tokens out.content =
        (tokens doc.content).take lo ++ slice.inside ++ (tokens doc.content).drop hi ∧
      ∃ added, slice.size = .ok added ∧
        Fragment.size out.content + hi = Fragment.size doc.content + lo + added := by
  obtain ⟨fro, to_, hfro, hto, hdeep, hlt, hdepths, h⟩ := replace_ok h
  have hf := resolve_stand hfro
  have ht := resolve_stand hto
  obtain ⟨-, htokens, -⟩ :=
    replaceOuter_tokens hf hdoc hf ht hdoc hslice hsided hdepths (by omega) h
  refine ⟨htokens, Fragment.size slice.content - (slice.openStart + slice.openEnd), ?_, ?_⟩
  · rw [Slice.size, ok_bind (add64_ok.mpr ⟨by omega, rfl⟩)]
    rfl
  · have hlo := hf.le_size
    have hhi := ht.le_size
    have hlen := congrArg List.length htokens
    rw [List.length_append, List.length_append, Slice.inside, List.length_drop, List.length_take,
      List.length_take, List.length_drop, length_tokens, length_tokens, length_tokens] at hlen
    omega

theorem replace_splices_join :
    tokens (pageOf [paragraph [words "axd"]]).content =
        (tokens twoLines.content).take 2 ++
          Slice.inside ⟨[paragraph [words "x"]], 1, 1⟩ ++ (tokens twoLines.content).drop 6 ∧
      ∃ added, Slice.size ⟨[paragraph [words "x"]], 1, 1⟩ = .ok added ∧
        Fragment.size (pageOf [paragraph [words "axd"]]).content + 6 =
          Fragment.size twoLines.content + 2 + added := by
  obtain ⟨out, hout, htokens⟩ := ok_of_toOption (f := fun out : Node => tokens out.content)
    (show (twoLines.replace page 2 6 ⟨[paragraph [words "x"]], 1, 1⟩).toOption.map
      (fun out => tokens out.content) = some (tokens (pageOf [paragraph [words "axd"]]).content) by
        decide +kernel)
  have := replace_splices page twoLines out 2 6 ⟨[paragraph [words "x"]], 1, 1⟩
    (by simp [HoldsText, Node.HoldsText, twoLines, pageOf, paragraph, words, page, Node.content,
      Schema.textNode])
    (by simp [HoldsText, Node.HoldsText, paragraph, words, page, Schema.textNode])
    (.inl (by decide)) hout
  have hsize := congrArg List.length htokens
  rw [length_tokens, length_tokens] at hsize
  rwa [htokens, hsize] at this

/-- An empty slice that says it is open on the right takes more away than its range. -/
theorem empty_slice_takes_more :
    twoLines.valid page = true ∧ ∃ out, twoLines.replace page 0 2 ⟨[], 0, 1⟩ = .ok out ∧
      tokens out.content ≠ (tokens twoLines.content).take 0 ++ Slice.inside ⟨[], 0, 1⟩ ++
        (tokens twoLines.content).drop 2 ∧
      ∃ added, Slice.size ⟨[], 0, 1⟩ = .ok added ∧
        Fragment.size out.content ≠ Fragment.size twoLines.content - (2 - 0) + added := by
  obtain ⟨out, hout, htokens⟩ := ok_of_toOption (f := fun out : Node => tokens out.content)
    (show (twoLines.replace page 0 2 ⟨[], 0, 1⟩).toOption.map (fun out => tokens out.content) =
      some (tokens [paragraph [words "cd"]]) by decide +kernel)
  have hsize := congrArg List.length htokens
  rw [length_tokens, length_tokens] at hsize
  refine ⟨by decide, out, hout, ?_, 0, by decide, ?_⟩
  · rw [htokens]
    decide
  · rw [hsize]
    decide

end Kodosi.Text
