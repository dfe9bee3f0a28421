import Kodosi.Text.Joins

/-! Cutting a range out of a document and putting it back gives the document. -/

namespace Kodosi.Text

open Lib

variable {S : Schema} {r fro to_ : ResolvedPos} {doc node child inside : Node} {content rest before after : List Node}
  {d e s k k' lo hi pos : Nat} {slice : Slice}

/-! ### Every position of a document resolves -/

theorem findFrom_ok {i current : Nat} (hlt : current < pos) (hle : pos ≤ current + Fragment.size rest) :
    ∃ at_, Fragment.findFrom pos rest i current = .ok at_ := by
  induction rest generalizing i current with
  | nil => simp [Fragment.size] at hle; omega
  | cons node rest ih =>
    rw [size_cons] at hle
    rw [Fragment.findFrom]
    split_ifs with hin hend
    · exact ⟨_, rfl⟩
    · exact ⟨_, rfl⟩
    · exact ih (by omega) (by omega)

theorem findIndex_ok (hle : pos ≤ Fragment.size content) : ∃ at_, Fragment.findIndex content pos = .ok at_ := by
  unfold Fragment.findIndex
  split_ifs with hzero hall hout
  · exact ⟨_, rfl⟩
  · exact ⟨_, rfl⟩
  · omega
  · exact findFrom_ok (by omega) (by omega)

theorem resolveFrom_ok {start po : Nat} {path : List Level} (hle : po ≤ Fragment.size node.content) :
    ∃ found, resolveFrom node start po path = .ok found := by
  induction node, start, po, path using resolveFrom.induct with
  | case1 node start po path ih =>
    obtain ⟨⟨i, o⟩, hfind⟩ := findIndex_ok hle
    have hfound := findIndex_found hfind
    have hnot : ¬po < o := by cases hfound <;> omega
    rw [resolveFrom, ok_bind hfind]
    dsimp only
    rw [if_neg hnot]
    split_ifs with hrest
    · exact ⟨_, rfl⟩
    · cases hfound with
      | seam _ hpos => omega
      | @inside before here after hcontent hlo hhi =>
        have hchild : node.child before.length = .ok here := require_ok.mpr (by simp [hcontent])
        rw [ok_bind hchild]
        split_ifs with htext
        · exact ⟨_, rfl⟩
        · have hinner : here.Inner := inner_of_inside (by simpa using htext) (show 0 < po - Fragment.size before by omega) (by omega)
          rw [hinner.nodeSize] at hhi
          exact ih _ _ hnot hrest here (by omega)

theorem resolve_ok (h : pos ≤ Fragment.size doc.content) : ∃ r, doc.resolve pos = .ok r := by
  obtain ⟨found, hfound⟩ : ∃ found, resolveFrom doc 0 pos [] = .ok found := resolveFrom_ok h
  rw [Node.resolve, if_neg (by omega), ok_bind hfound]
  exact ⟨_, rfl⟩

/-! ### The prepared slice -/

theorem wrap_ok (h : ∀ j < d, ∃ outer, r.node j = .ok outer) : ∃ out, wrap r d node = .ok out := by
  induction d generalizing node with
  | zero => exact ⟨node, rfl⟩
  | succ d ih =>
    obtain ⟨outer, houter⟩ := h d (Nat.lt_succ_self d)
    rw [wrap, ok_bind houter]
    exact ih fun j hj => h j (by omega)

/-- A slice that is as far open as the positions on its sides are deep goes in at their level. -/
theorem prepareSlice_stands (hfro : Stand fro 0 doc 0 lo) (hd : slice.openStart + d = fro.depth) (hwhole : slice.Whole)
    (hstart : fro.depth < 2 ^ 64) (hend : slice.openEnd + d < 2 ^ 64) :
    ∃ start stop core s s' q, prepareSlice slice fro = .ok (start, stop) ∧ core.content = slice.content ∧
      Stand start d core s slice.openStart ∧ Stand stop d core s' q ∧ q + slice.openEnd = Fragment.size core.content := by
  have hbelow : ∀ {j : Nat} {child : Node}, 0 < j → fro.node j = .ok child → child.Inner ∧ True :=
    fun hj hchild => ⟨(hfro.lower hj hchild).1, trivial⟩
  have hnodes : ∀ j ≤ d, ∃ outer, fro.node j = .ok outer := fun j hj => hfro.solid.node_at (by omega)
  obtain ⟨core, hcore⟩ := hnodes d le_rfl
  obtain ⟨outer, houter⟩ := @wrap_ok fro (core.copy slice.content) d fun j hj => hnodes j hj.le
  have hshelled : Shelled (fun _ => True) slice.content (0 + d) outer :=
    wrap_shelled hbelow (.core (Node.copy_content core slice.content)) (fun hd => ⟨(hbelow hd hcore).1.copy _, trivial⟩) houter
  rw [Nat.zero_add] at hshelled
  have hsize := hshelled.size
  have hopens := hshelled.opens hwhole.1
  have hcloses := hshelled.closes hwhole.2
  have hopenfits := opens_le hwhole.1
  have hclosefits := closes_le hwhole.2
  obtain ⟨start, hstartpos⟩ := @resolve_ok outer (slice.openStart + d) (by omega)
  obtain ⟨stop, hstoppos⟩ := @resolve_ok outer (Fragment.size outer.content - (slice.openEnd + d)) (by omega)
  have hs := resolve_stand hstartpos
  have he := resolve_stand hstoppos
  have hstartdepth := opens_depth hs hopens rfl
  have hstopdepth := closes_depth he hcloses (by omega)
  obtain ⟨shell, t, t', ks, ke, hshell, hstands, hstande, hks, hke, hshellsize⟩ :=
    edges_shelled hshelled hs he (by omega) (by omega) (by omega) (by omega) le_rfl
  rw [Nat.sub_self] at hshell
  cases hshell with
  | core hcontent =>
    obtain rfl : ks = slice.openStart := by omega
    refine ⟨start, stop, shell, t, t', ke, ?_, hcontent, hstands, hstande, by omega⟩
    rw [prepareSlice, ok_bind (sub64_ok.mpr ⟨by omega, show fro.depth - slice.openStart = d by omega⟩), ok_bind hcore,
      ok_bind houter, ok_bind (add64_ok.mpr ⟨by omega, rfl⟩), ok_bind hstartpos, ok_bind (add64_ok.mpr ⟨by omega, rfl⟩),
      if_neg (by omega), ok_bind hstoppos]
    rfl

/-! ### The level that two positions share -/

/-- Two positions run along the same children from a level down to the level `e`, whose node is `inside`. -/
inductive Meets (fro to_ : ResolvedPos) (e : Nat) (inside : Node) : Nat → Node → Prop
  | here : Meets fro to_ e inside e inside
  | down {d o o' : Nat} {node child : Node} {before after : List Node} : d < e → fro.level d = .ok ⟨node, before.length, o⟩ →
      to_.level d = .ok ⟨node, before.length, o'⟩ → node.content = before ++ child :: after →
      Meets fro to_ e inside (d + 1) child → Meets fro to_ e inside d node

theorem Meets.everywhere {P : Node → Prop} (h : Meets fro to_ e inside d node) (hnode : node.Everywhere P) :
    inside.Everywhere P := by
  induction h with
  | here => exact hnode
  | down _ _ _ hcontent _ ih => exact ih (hnode.content.child hcontent)

/-- Above the shared level, each node gets its child back. -/
theorem Meets.replaces (h : Meets fro to_ e inside d node) (hopen : slice.openStart + e = fro.depth)
    (hinside : replaceOuter S fro to_ slice e = .ok inside) : replaceOuter S fro to_ slice d = .ok node := by
  induction h with
  | here => exact hinside
  | @down d o o' node child before after hlt hfro hto hcontent _ ih =>
    have hput : Fragment.replaceChild node.content before.length child = .ok node.content := by
      rw [Fragment.replaceChild, if_pos (by simp [hcontent]), hcontent]
      simp
    rw [replaceOuter, ok_bind (index_of_level hfro), ok_bind (node_of_level hfro), ok_bind (index_of_level hto),
      dif_pos ⟨rfl, by omega⟩, ok_bind ih, ok_bind hput]
    exact congrArg Except.ok (Node.copy_self node)

theorem Stand.child_level (h : Stand r d node s k) (hdepth : d < r.depth) (hcontent : node.content = before ++ child :: after)
    (hinner : child.Inner) (hlo : Fragment.size before + 1 ≤ k) (hhi : k ≤ Fragment.size before + 1 + Fragment.size child.content) :
    r.level d = .ok ⟨node, before.length, s + Fragment.size before⟩ := by
  cases h with
  | seam _ hbottom => omega
  | inText _ hbottom => omega
  | @down _ _ _ before' child' after' k' hlevel _ hcontent' hinner' hle _ =>
    rcases split_trichotomy (hcontent.symm.trans hcontent') with ⟨rfl, -, -⟩ | ⟨mid, rfl⟩ | ⟨mid, rfl⟩
    · exact hlevel
    · have := size_split before' mid child'
      rw [hinner'.nodeSize] at this
      omega
    · have := size_split before mid child
      rw [hinner.nodeSize] at this
      omega

/-- Two positions of one node run along the same children down to a level where they are not in one child. -/
theorem meets_exists (hf : Stand fro d node s k) (ht : Stand to_ d node s k') (hstart : fro.start d = .ok s) :
    ∃ e inside t j j', Meets fro to_ e inside d node ∧ d ≤ e ∧ Stand fro e inside t j ∧ Stand to_ e inside t j' ∧
      fro.start e = .ok t ∧ ¬SameChild inside.content j j' := by
  generalize hrest : fro.depth - d = rest
  induction rest generalizing d node s k k' with
  | zero =>
    refine ⟨d, node, s, k, k', .here, le_rfl, hf, ht, hstart, ?_⟩
    rintro ⟨before, child, after, i, i', hcontent, hinner, rfl, rfl, hi, hi'⟩
    have := (hf.into_child hcontent hinner (by omega) (by omega)).1
    omega
  | succ rest ih =>
    by_cases hsame : SameChild node.content k k'
    · obtain ⟨before, child, after, i, i', hcontent, hinner, rfl, rfl, hi, hi'⟩ := hsame
      obtain ⟨hflt, hfchild⟩ := hf.into_child hcontent hinner (by omega) (by omega)
      obtain ⟨htlt, htchild⟩ := ht.into_child hcontent hinner (by omega) (by omega)
      have hflevel := hf.child_level hflt hcontent hinner (by omega) (by omega)
      have htlevel := ht.child_level htlt hcontent hinner (by omega) (by omega)
      have hchildstart : fro.start (d + 1) = .ok (s + Fragment.size before + 1) := by
        rw [ResolvedPos.start, hflevel]
        rfl
      obtain ⟨e, inside, t, j, j', hmeets, hde, hrest⟩ := ih hfchild htchild hchildstart (by omega)
      exact ⟨e, inside, t, j, j', .down (by omega) hflevel htlevel hcontent hmeets, by omega, hrest⟩
    · exact ⟨d, node, s, k, k', .here, le_rfl, hf, ht, hstart, hsame⟩

/-- The search of `sharedDepth` stops at the first level, upwards, whose node holds the other position. -/
theorem sharedFrom_eq {m a b : Nat} (he : e ≤ m) (hstart : r.start e = .ok a) (hstop : r.stop e = .ok b) (hin : a ≤ pos ∧ pos ≤ b)
    (hbelow : ∀ i, e < i → i ≤ m → ∃ a b, r.start i = .ok a ∧ r.stop i = .ok b ∧ ¬(a ≤ pos ∧ pos ≤ b)) :
    r.sharedFrom pos m = .ok e := by
  induction m with
  | zero =>
    obtain rfl : e = 0 := by omega
    rfl
  | succ m ih =>
    rw [ResolvedPos.sharedFrom]
    by_cases hhere : e = m + 1
    · subst hhere
      rw [ok_bind hstart, ok_bind hstop, if_pos hin]
      rfl
    · obtain ⟨a', b', hstart', hstop', hout⟩ := hbelow (m + 1) (by omega) le_rfl
      rw [ok_bind hstart', ok_bind hstop', if_neg hout]
      exact ih (by omega) fun i hi him => hbelow i hi (by omega)

theorem Stand.stop_eq (h : Stand r d node s k) (hstart : r.start d = .ok s) : r.stop d = .ok (s + Fragment.size node.content) := by
  rw [ResolvedPos.stop, ok_bind hstart, ok_bind h.node_eq]
  rfl

/-- A position that is not in the content of a node is not in that of a node below it. -/
theorem Stand.outside (h : Stand r d node s k) (hstart : r.start d = .ok s)
    (hout : ¬(s ≤ pos ∧ pos ≤ s + Fragment.size node.content)) {i : Nat} (hd : d ≤ i) (hi : i ≤ r.depth) :
    ∃ a b, r.start i = .ok a ∧ r.stop i = .ok b ∧ ¬(a ≤ pos ∧ pos ≤ b) := by
  -- nothing stands on an empty path
  obtain ⟨inside, a, j, hstand, hstart', hwithin⟩ :=
    @Stand.within r d s k node ⟨pos, [], 0⟩ h hstart (fun hlo hhi => absurd ⟨hlo, hhi⟩ hout) i hd hi
  refine ⟨a, _, hstart', hstand.stop_eq hstart', fun hin => ?_⟩
  obtain ⟨j', hnowhere⟩ := hwithin hin.1 hin.2
  obtain ⟨_, _, hlevel⟩ := hnowhere.level
  simp [ResolvedPos.level, Lib.index, panics] at hlevel

/-- Where two positions are in one node, but not in one child of it, is the level that they share. -/
theorem shared_level (hf : Stand fro e inside s k) (ht : Stand to_ e inside s k') (hstart : fro.start e = .ok s)
    (hapart : ¬SameChild inside.content k k') : fro.sharedDepth to_.pos = .ok e := by
  have hpos := ht.pos_eq
  have hle := ht.le_size
  refine sharedFrom_eq hf.le_depth hstart (hf.stop_eq hstart) (by omega) fun i hlt hi => ?_
  cases hf with
  | seam _ hdepth => omega
  | inText _ hdepth => omega
  | @down _ _ _ before child after j hlevel hdepth hcontent hinner hfits hstand =>
    have hchildstart : fro.start (e + 1) = .ok (s + Fragment.size before + 1) := by
      rw [ResolvedPos.start, hlevel]
      rfl
    refine hstand.outside hchildstart (fun hin => hapart ?_) hlt hi
    exact ⟨before, child, after, j, k' - (Fragment.size before + 1), hcontent, hinner, by omega, by omega, hfits, by omega⟩

/-! ### Putting back at the shared level -/

theorem Stand.parentOffset_eq (h : Stand r d node s k) (hdepth : r.depth = d) : r.parentOffset = k := by
  cases h with
  | seam _ _ _ hparent => exact hparent
  | inText _ _ _ hparent => exact hparent
  | down _ hlt => omega

/-- Nothing put in at one position. -/
theorem outer_empty (hf : Stand fro e inside s k) (hdepth : fro.depth = e) (hneat : inside.Everywhere (Neat S)) :
    replaceOuter S fro fro Slice.empty e = .ok inside := by
  obtain ⟨i, o, hlevel⟩ := hf.level
  obtain ⟨left, right, hhalves, hl, hr⟩ := hf.halves hneat.content.firm
  have hjoin := twoWay_joins hl hr hhalves (by omega) (by omega) hneat.content hneat.here.joined
  have hempty : Fragment.size Slice.empty.content = 0 := rfl
  rw [replaceOuter, ok_bind (index_of_level hlevel), ok_bind hf.node_eq, ok_bind (index_of_level hlevel), dif_neg (by omega),
    if_pos hempty, ok_bind hjoin, close_rule hneat.here.rule, Node.copy_self]

/-- What was cut out between two positions, put in between them. -/
theorem outer_cut (hroot : Stand fro 0 doc 0 lo) (hf : Stand fro e inside s k) (ht : Stand to_ e inside s k') (hlt : k < k')
    (hapart : ¬SameChild inside.content k k') (hcut : Fragment.cut inside.content k k' = .ok content)
    (hfro : fro.depth < 2 ^ 64) (hto : to_.depth < 2 ^ 64) (hneat : inside.Everywhere (Neat S)) :
    replaceOuter S fro to_ ⟨content, fro.depth - e, to_.depth - e⟩ e = .ok inside := by
  have hfirm := hneat.content.firm
  have hfdepth := hf.le_depth
  have htdepth := ht.le_depth
  obtain ⟨i, o, hflevel⟩ := hf.level
  obtain ⟨i', o', htlevel⟩ := ht.level
  obtain ⟨left, right, hhalves, hl, hr⟩ := hf.halves hfirm
  obtain ⟨left', right', hhalves', hl', hr'⟩ := ht.halves hfirm
  obtain ⟨middle, hmiddle, hcut'⟩ := hhalves.cut_between hhalves' hlt hapart hfirm
  obtain rfl := Except.ok.inj (hcut.symm.trans hcut')
  have hsize := hmiddle.sizes.2.1
  have hclose := close_rule hneat.here.rule
  rw [Node.copy_self] at hclose
  rw [replaceOuter, ok_bind (index_of_level hflevel), ok_bind hf.node_eq, ok_bind (index_of_level htlevel),
    dif_neg (by dsimp only; omega)]
  dsimp only
  rw [if_neg (by omega)]
  split_ifs with hflat
  · -- both positions are at this level
    obtain ⟨hfopen, htopen, hfbottom, htbottom⟩ := hflat
    have hparent : fro.parent = .ok inside := by rw [ResolvedPos.parent, hfbottom, hf.node_eq]
    rw [hfopen] at hhalves hmiddle
    rw [htopen] at hmiddle
    rw [ok_bind hparent, hf.parentOffset_eq hfbottom, ht.parentOffset_eq htbottom, ok_bind (hhalves.cut_left hfirm),
      ok_bind (hhalves'.cut_right hfirm), flat_joins hhalves hmiddle hfirm hneat.here.joined, hclose]
  · obtain ⟨lead, rest, q, cut, rfl, rfl, hlead, hrest, hin⟩ := hhalves.past_open hmiddle hlt hapart
    have hwhole : Slice.Whole ⟨lead ++ cut, fro.depth - e, to_.depth - e⟩ :=
      ⟨opens_of_cut hf hlt hcut, closes_of_cut ht hlt hcut⟩
    obtain ⟨start, stop, core, t, t', q', hprepare, hcore, hstart, hstop, hq⟩ :=
      @prepareSlice_stands fro doc e lo ⟨lead ++ cut, fro.depth - e, to_.depth - e⟩ hroot (by dsimp only; omega) hwhole hfro
        (by dsimp only; omega)
    have hcorefirm : Everywhere (Firm S) core.content := hcore ▸ (hmiddle.firm (hhalves.firm hfirm).2).1
    have hjoin : replaceThreeWay S fro start stop to_ e = .ok inside.content :=
      threeWay_joins hl hr' hhalves hrest hlead hin hcore hstart hstop (hcore ▸ hwhole.1) (hcore ▸ hwhole.2) hq hcorefirm
        (by omega) (by omega) hneat.content hneat.here.joined
    rw [ok_bind hprepare]
    dsimp only
    rw [ok_bind hjoin, hclose]

/-! ### Cutting and putting back -/

/-- Whatever two positions of a document in normal form, in which every node keeps to the schema: a slice can be taken between
    them, and putting it in again gives the document. The size of a document is a number of 64 bits. -/
theorem cut_and_put_back (S : Schema) (doc : Node) (lo hi : Nat) (hvalid : doc.valid S = true) (htidy : doc.Everywhere (Tidy S))
    (hsize : Fragment.size doc.content < 2 ^ 64) (hle : lo ≤ hi) (hhi : hi ≤ Fragment.size doc.content) :
    ∃ slice, doc.slice lo hi = .ok slice ∧ doc.replace S lo hi slice = .ok doc := by
  have hneat := htidy.neat hvalid
  obtain ⟨fro, hfro⟩ := @resolve_ok doc lo (by omega)
  obtain ⟨to_, hto⟩ := resolve_ok hhi
  have hf := resolve_stand hfro
  have ht := resolve_stand hto
  have hfdepth := hf.depth_le_rest
  have hfdepth' := hf.depth_le
  have htdepth := ht.depth_le_rest
  have htdepth' := ht.depth_le
  obtain ⟨e, inside, s, k, k', hmeets, -, hfs, hts, hstart, hapart⟩ := meets_exists hf ht rfl
  have hfpos := hf.pos_eq
  have htpos := ht.pos_eq
  have hkpos := hfs.pos_eq
  have hkpos' := hts.pos_eq
  have hshared := shared_level hfs hts hstart hapart
  have hinside := hmeets.everywhere hneat
  by_cases hsame : lo = hi
  · subst hsame
    obtain rfl := Except.ok.inj (hfro.symm.trans hto)
    have hbottom : fro.depth = e := by
      obtain rfl : k = k' := by omega
      cases hfs with
      | seam _ hdepth => exact hdepth
      | inText _ hdepth => exact hdepth
      | @down _ _ _ before child after j _ _ hcontent hinner hfits _ =>
        exact absurd ⟨before, child, after, j, j, hcontent, hinner, by omega, by omega, hfits, hfits⟩ hapart
    refine ⟨Slice.empty, if_pos rfl, ?_⟩
    have hside : add64 fro.depth 0 = .ok fro.depth := add64_ok.mpr ⟨by omega, Nat.add_zero _⟩
    have hleft : add64 fro.depth Slice.empty.openEnd = .ok fro.depth := hside
    have hright : add64 fro.depth Slice.empty.openStart = .ok fro.depth := hside
    rw [Node.replace, ok_bind hfro, ok_bind hfro, Text.replace, if_neg (show ¬fro.depth < Slice.empty.openStart from Nat.not_lt_zero _),
      ok_bind hleft, ok_bind hright, if_neg (not_not.mpr rfl)]
    exact hmeets.replaces (by rw [← hbottom]; exact Nat.zero_add _) (outer_empty hfs hbottom hinside)
  · have hfshared := hfs.le_depth
    have htshared := hts.le_depth
    have hfirm := hinside.content.firm
    obtain ⟨left, right, hhalves, -, -⟩ := hfs.halves hfirm
    obtain ⟨left', right', hhalves', -, -⟩ := hts.halves hfirm
    obtain ⟨content, -, hcut⟩ := hhalves.cut_between hhalves' (by omega) hapart hfirm
    rw [htpos, Nat.zero_add] at hshared
    refine ⟨⟨content, fro.depth - e, to_.depth - e⟩, ?_, ?_⟩
    · rw [Node.slice, if_neg hsame, ok_bind hfro, ok_bind hto, ok_bind hshared, ok_bind hstart, ok_bind hfs.node_eq,
        ok_bind (sub64_ok.mpr ⟨by omega, show fro.pos - s = k by omega⟩),
        ok_bind (sub64_ok.mpr ⟨by omega, show to_.pos - s = k' by omega⟩), ok_bind hcut,
        ok_bind (sub64_ok.mpr ⟨hfshared, rfl⟩), ok_bind (sub64_ok.mpr ⟨htshared, rfl⟩)]
      rfl
    · have hput := outer_cut hf hfs hts (by omega) hapart hcut (by omega) (by omega) hinside
      rw [Node.replace, ok_bind hfro, ok_bind hto, Text.replace, if_neg (by dsimp only; omega)]
      dsimp only
      rw [ok_bind (add64_ok.mpr ⟨by omega, rfl⟩), ok_bind (add64_ok.mpr ⟨by omega, rfl⟩), if_neg (by omega)]
      exact hmeets.replaces (by dsimp only; omega) hput

theorem words_tidy {s : String} (h : encodeUtf16 s ≠ []) : (words s).Everywhere (Tidy page) :=
  ⟨⟨⟨⟨fun _ => ⟨rfl, rfl, rfl⟩, nofun, nofun⟩, ⟨fun _ => rfl, fun _ => rfl⟩, fun hnil => h (Option.some.inj hnil)⟩, .nil⟩, trivial⟩

theorem inner_tidy (h : node.Inner) (hkind : node.kind ≠ page.textNode ∧ page.isLeaf node.kind = false) (hjoined : Joined node.content)
    (hcontent : Everywhere (Tidy page) node.content) : node.Everywhere (Tidy page) := by
  have htext : ¬node.isText = true := by simp [h.not_isText]
  refine Node.everywhere_iff.mpr ⟨⟨⟨⟨fun h => absurd h htext, fun _ => hkind, fun _ hleaf => ?_⟩, ⟨fun h => absurd h htext,
    fun h => absurd h hkind.1⟩, ?_⟩, hjoined⟩, hcontent⟩
  · exact absurd hleaf (by simp [h.noLeaf])
  · rw [h.noText]
    nofun

theorem twoLines_tidy : twoLines.Everywhere (Tidy page) := by
  have line : ∀ s, encodeUtf16 s ≠ [] → (paragraph [words s]).Everywhere (Tidy page) := fun s hs =>
    inner_tidy ⟨rfl, rfl⟩ (show 1 ≠ page.textNode ∧ page.isLeaf 1 = false by decide) (.singleton _) ⟨words_tidy hs, trivial⟩
  refine inner_tidy ⟨rfl, rfl⟩ (by decide) ?_ ⟨line "ab" (by decide), line "cd" (by decide), trivial⟩
  exact List.isChain_pair.mpr nofun

theorem cut_and_put_back_lines : ∃ slice, twoLines.slice 2 6 = .ok slice ∧ twoLines.replace page 2 6 slice = .ok twoLines :=
  cut_and_put_back page twoLines 2 6 (by decide) twoLines_tidy (by decide) (by decide) (by decide)

end Kodosi.Text
