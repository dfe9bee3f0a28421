import Kodosi.Text.Spliced

/-! Where a replacement cannot stop short: every level that it asks a path for is there. -/

namespace Kodosi.Text

open Lib

variable {S : Schema} {r fro to_ start stop : ResolvedPos} {slice : Slice} {d s k n : Nat}
  {node doc : Node} {content target : List Node}

/-! ### Cutting and finding -/

theorem calm_cutUnits (node : Node) (text : List UInt16) (lo hi : Nat) : Calm (cutUnits node text lo hi) :=
  calm_ite (fun _ => calm_ok _) fun _ => calm_ite (fun _ => calm_ok _) fun _ => calm_failed _

theorem calm_cutWith {inside : Out Fragment} (h : Calm inside) (content : Fragment) (lo hi : Nat) :
    Calm (cutWith inside content lo hi) :=
  calm_ite (fun _ => calm_ok _) fun _ => calm_ite (fun _ => h) fun _ => calm_ok _

mutual

theorem calm_nodeCut (node : Node) (lo hi : Nat) : Calm (node.cut lo hi) := by
  cases node with
  | mk kind attrs content marks text leaf =>
    cases text with
    | some units =>
      unfold Node.cut
      exact calm_cutUnits _ _ _ _
    | none =>
      unfold Node.cut
      exact calm_ite (fun _ => calm_ok _) fun _ =>
        calm_bind (calm_cutWith (calm_cutFrom content 0 lo hi) _ _ _) fun _ _ => calm_pure _

theorem calm_cutFrom (nodes : List Node) (p lo hi : Nat) : Calm (cutFrom nodes p lo hi) := by
  cases nodes with
  | nil =>
    unfold cutFrom
    exact calm_ite (fun _ => calm_failed _) fun _ => calm_ok _
  | cons child rest =>
    unfold cutFrom
    refine calm_ite (fun _ => calm_ok _) fun _ => calm_ite (fun _ => ?_) fun _ =>
      calm_cutFrom rest _ lo hi
    refine calm_bind ?_ fun _ _ => calm_bind (calm_cutFrom rest _ lo hi) fun _ _ => calm_pure _
    refine calm_ite (fun _ => ?_) fun _ => calm_ok _
    cases child.units with
    | some text => exact calm_nodeCut child _ _
    | none => exact calm_nodeCut child _ _

end

theorem calm_cut (content : Fragment) (lo hi : Nat) : Calm (Fragment.cut content lo hi) :=
  calm_cutWith (calm_cutFrom content 0 lo hi) content lo hi

theorem calm_findFrom (position : Nat) : ∀ (nodes : List Node) (i current : Nat),
    Calm (Fragment.findFrom position nodes i current)
  | [], _, _ => calm_failed _
  | child :: rest, i, current =>
    calm_ite (fun _ => calm_ite (fun _ => calm_ok _) fun _ => calm_ok _) fun _ =>
      calm_findFrom position rest (i + 1) (current + child.nodeSize)

theorem calm_findIndex (content : Fragment) (position : Nat) : Calm (Fragment.findIndex content position) :=
  calm_ite (fun _ => calm_ok _) fun _ => calm_ite (fun _ => calm_ok _) fun _ =>
    calm_ite (fun _ => calm_failed _) fun _ => calm_findFrom position content 0 0

theorem found_le {position i o : Nat} (h : Found content position i o) : o ≤ position ∧ i ≤ content.length := by
  cases h with
  | seam hcontent hpos =>
    rw [hcontent, List.length_append]
    omega
  | inside hcontent hlo _ =>
    rw [hcontent, List.length_append]
    omega

theorem calm_child (node : Node) (i : Nat) : Calm (node.child i) := calm_require _ _

theorem calm_resolveFrom (node : Node) (start po : Nat) (path : List Level) :
    Calm (resolveFrom node start po path) := by
  induction node, start, po, path using resolveFrom.induct with
  | case1 node start po path ih =>
    unfold resolveFrom
    refine calm_bind (calm_findIndex _ _) fun found hfind => ?_
    obtain ⟨i, o⟩ := found
    have hle := (found_le (findIndex_found hfind)).1
    dsimp only
    rw [if_neg (by omega)]
    split
    · exact calm_pure _
    next hrest =>
      refine calm_bind (calm_child _ _) fun child _ => calm_ite (fun _ => calm_pure _) fun _ => ?_
      exact ih i o (by omega) hrest child

theorem calm_resolve (doc : Node) (pos : Nat) : Calm (doc.resolve pos) :=
  calm_ite (fun _ => calm_failed _) fun _ =>
    calm_bind (calm_resolveFrom _ _ _ _) fun _ _ => calm_pure _

/-! ### Levels that are there -/

/-- A position whose path has a level for each depth, the last one not behind the position. -/
structure Solid (r : ResolvedPos) : Prop where
  path : r.path ≠ []
  offset : ∃ off, r.textOffset = .ok off

theorem Stand.solid (h : Stand r d node s k) : Solid r := by
  have hpath : ∀ {d l}, r.level d = .ok l → r.path ≠ [] := fun hlevel hnil => by
    rw [ResolvedPos.level, hnil] at hlevel
    simp [Lib.index, panics] at hlevel
  induction h with
  | seam hlevel hdepth hpos =>
    exact ⟨hpath hlevel, 0, textOffset_of_level hlevel hdepth hpos⟩
  | @inText _ _ _ _ _ _ _ off hlevel hdepth hpos =>
    exact ⟨hpath hlevel, off, textOffset_of_level hlevel hdepth (hpos.trans (Nat.add_assoc _ _ _).symm)⟩
  | down _ _ _ _ _ _ ih => exact ih

theorem resolve_solid {pos : Nat} (h : doc.resolve pos = .ok r) : Solid r := (resolve_stand h).solid

namespace Solid

variable (h : Solid r)
include h

theorem level_at (hd : d ≤ r.depth) : ∃ l, r.level d = .ok l := by
  have hlen : 0 < r.path.length := List.length_pos_iff.mpr h.path
  have hlt : d < r.path.length := by
    unfold ResolvedPos.depth at hd
    omega
  exact ⟨r.path[d], index_ok.mpr (List.getElem?_eq_getElem hlt)⟩

theorem node_at (hd : d ≤ r.depth) : ∃ node, r.node d = .ok node := by
  obtain ⟨l, hl⟩ := h.level_at hd
  exact ⟨l.node, node_of_level hl⟩

theorem index_at (hd : d ≤ r.depth) : ∃ i, r.index d = .ok i := by
  obtain ⟨l, hl⟩ := h.level_at hd
  exact ⟨l.index, index_of_level hl⟩

theorem calm_nodeAfter : Calm r.nodeAfter := by
  obtain ⟨node, hnode⟩ := h.node_at le_rfl
  obtain ⟨i, hi⟩ := h.index_at le_rfl
  obtain ⟨off, hoff⟩ := h.offset
  rw [ResolvedPos.nodeAfter, ResolvedPos.parent, ok_bind hnode, ok_bind hi]
  refine calm_ite (fun _ => calm_pure _) fun _ => ?_
  rw [ok_bind hoff]
  refine calm_bind (calm_child _ _) fun child _ => calm_ite (fun _ => calm_pure _) fun _ => ?_
  exact calm_map (calm_nodeCut _ _ _)

theorem calm_nodeBefore : Calm r.nodeBefore := by
  obtain ⟨node, hnode⟩ := h.node_at le_rfl
  obtain ⟨i, hi⟩ := h.index_at le_rfl
  obtain ⟨off, hoff⟩ := h.offset
  rw [ResolvedPos.nodeBefore, ResolvedPos.parent, ok_bind hi, ok_bind hoff, ok_bind hnode]
  refine calm_ite (fun _ => ?_) fun _ => calm_ite (fun _ => calm_pure _) fun _ => ?_
  · exact calm_bind (calm_child _ _) fun child _ => calm_map (calm_nodeCut _ _ _)
  · exact calm_map (calm_child _ _)

theorem calm_rangeStart (hd : d ≤ r.depth) : Calm (rangeStart (some r) d target) := by
  obtain ⟨i, hi⟩ := h.index_at hd
  obtain ⟨off, hoff⟩ := h.offset
  rw [rangeStart, ok_bind hi]
  refine calm_ite (fun _ => calm_pure _) fun _ => ?_
  rw [ok_bind hoff]
  exact calm_ite (fun _ => calm_bind h.calm_nodeAfter fun _ _ => calm_pure _) fun _ => calm_pure _

theorem calm_rangeEnd : Calm (rangeEnd (some r) d target) := by
  obtain ⟨off, hoff⟩ := h.offset
  rw [rangeEnd]
  refine calm_ite (fun _ => ?_) fun _ => calm_ok _
  rw [ok_bind hoff]
  exact calm_ite (fun _ => calm_bind h.calm_nodeBefore fun _ _ => calm_pure _) fun _ => calm_pure _

end Solid

theorem calm_children (node : Node) : ∀ {is : List Nat} {target : List Node},
    Calm (is.foldlM (fun target i => do
      let child ← node.child i
      pure (addNode child target)) target)
  | [], _ => calm_pure _
  | i :: is, target => by
    rw [List.foldlM_cons]
    exact calm_bind (calm_bind (calm_child node i) fun _ _ => calm_pure _) fun _ _ => calm_children node

/-- A range does not stop short where both its ends have the level. -/
theorem calm_addRange {from_ upto : Option ResolvedPos} (hfrom : ∀ r ∈ from_, Solid r ∧ d ≤ r.depth)
    (hupto : ∀ r ∈ upto, Solid r ∧ d ≤ r.depth) : Calm (addRange from_ upto d target) := by
  unfold addRange
  cases hany : upto.or from_ with
  | none => exact calm_ok _
  | some any =>
    have hsolid : Solid any ∧ d ≤ any.depth := by
      cases upto with
      | none => exact hfrom any hany
      | some upto =>
        obtain rfl := Option.some.inj hany
        exact hupto _ rfl
    obtain ⟨node, hnode⟩ := hsolid.1.node_at hsolid.2
    dsimp only
    rw [ok_bind hnode]
    refine calm_bind ?_ fun last _ => calm_bind ?_ fun begun _ =>
      calm_bind (calm_children node) fun mid _ => ?_
    · cases upto with
      | none => exact calm_ok _
      | some upto =>
        obtain ⟨hupto, hd⟩ := hupto _ rfl
        obtain ⟨i, hi⟩ := hupto.index_at hd
        exact calm_of_ok hi
    · cases from_ with
      | none => exact calm_ok _
      | some from_ =>
        obtain ⟨hfrom, hd⟩ := hfrom _ rfl
        exact hfrom.calm_rangeStart hd
    · cases upto with
      | none => exact calm_ok _
      | some upto => exact (hupto _ rfl).1.calm_rangeEnd

/-! ### Joining two sides -/

theorem calm_checkJoin (main sub : Node) : Calm (checkJoin S main sub) :=
  calm_ite (fun _ => calm_ok _) fun _ => calm_failed _

theorem calm_close (node : Node) (content : Fragment) : Calm (close S node content) :=
  calm_ite (fun _ => calm_ok _) fun _ => calm_failed _

theorem calm_joinable {before after : ResolvedPos} (hbefore : Solid before) (hafter : Solid after)
    (hb : d ≤ before.depth) (ha : d ≤ after.depth) : Calm (joinable S before after d) := by
  obtain ⟨main, hmain⟩ := hbefore.node_at hb
  obtain ⟨sub, hsub⟩ := hafter.node_at ha
  rw [joinable, ok_bind hmain, ok_bind hsub]
  exact calm_bind (calm_checkJoin _ _) fun _ _ => calm_pure _

theorem calm_before (h : Solid r) (hd : d ≤ r.depth) : Calm (addRange none (some r) d target) :=
  calm_addRange nofun (by rintro _ ⟨⟩; exact ⟨h, hd⟩)

theorem calm_after (h : Solid r) (hd : d ≤ r.depth) : Calm (addRange (some r) none d target) :=
  calm_addRange (by rintro _ ⟨⟩; exact ⟨h, hd⟩) nofun

/-- Two sides join without stopping short when the second path is at least as deep as the first. -/
theorem calm_twoWay (hf : Solid fro) (ht : Solid to_) (hdepth : fro.depth ≤ to_.depth)
    (hd : d ≤ fro.depth) : Calm (replaceTwoWay S fro to_ d) := by
  induction hn : fro.depth - d generalizing d with
  | zero =>
    unfold replaceTwoWay
    refine calm_bind (calm_before hf hd) fun _ _ => ?_
    rw [dif_neg (by omega)]
    exact calm_after ht (by omega)
  | succ n ih =>
    unfold replaceTwoWay
    refine calm_bind (calm_before hf hd) fun _ _ => ?_
    rw [dif_pos (by omega)]
    exact calm_bind (calm_joinable hf ht (by omega) (by omega)) fun _ _ =>
      calm_bind (ih (by omega) (by omega)) fun _ _ => calm_bind (calm_close _ _) fun _ _ =>
        calm_after ht (by omega)

theorem calm_openSide {deeper : Prop} [Decidable deeper] {x : Out Node} (h : deeper → Calm x) :
    Calm (openSide deeper x) :=
  calm_ite (fun hdeeper => calm_map (h hdeeper)) fun _ => calm_ok _

/-- A slice joins between two sides without stopping short when its edges are as deep as they are. -/
theorem calm_threeWay (hf : Solid fro) (ht : Solid to_) (hs : Solid start) (he : Solid stop)
    (hsdepth : start.depth = fro.depth) (hedepth : stop.depth = to_.depth) (hfd : d ≤ fro.depth)
    (htd : d ≤ to_.depth) : Calm (replaceThreeWay S fro start stop to_ d) := by
  have between : ∀ {d : Nat} {target : List Node}, d ≤ fro.depth → d ≤ to_.depth →
      Calm (addRange (some start) (some stop) d target) := fun hfd htd =>
    calm_addRange (by rintro _ ⟨⟩; exact ⟨hs, by omega⟩) (by rintro _ ⟨⟩; exact ⟨he, by omega⟩)
  have apart : ∀ {d : Nat} {openStart openEnd : Option Node} {content : List Node},
      d ≤ fro.depth → d ≤ to_.depth → (openStart.isSome → d < fro.depth) →
      (openEnd.isSome → d < to_.depth) →
      Calm (replaceApart S fro start stop to_ d openStart openEnd content) := by
    intro d openStart openEnd content hfd htd hopen hopen'
    refine calm_bind ?_ fun _ _ => calm_bind (between hfd htd) fun _ _ => ?_
    · cases openStart with
      | none => exact calm_ok _
      | some first =>
        have := hopen rfl
        exact calm_bind (calm_twoWay hf hs hsdepth.ge (by omega)) fun _ _ =>
          calm_bind (calm_close _ _) fun _ _ => calm_pure _
    · cases openEnd with
      | none => exact calm_ok _
      | some last =>
        have := hopen' rfl
        exact calm_bind (calm_twoWay he ht hedepth.le (by omega)) fun _ _ =>
          calm_bind (calm_close _ _) fun _ _ => calm_pure _
  induction hn : fro.depth - d using Nat.strong_induction_on generalizing d with
  | _ n ih =>
  unfold replaceThreeWay
  refine calm_bind (calm_openSide fun hlt => calm_joinable hf hs (by omega) (by omega))
    fun openStart hstart => calm_bind
      (calm_openSide fun hlt => calm_joinable he ht (by omega) (by omega)) fun openEnd hend =>
        calm_bind (calm_before hf hfd) fun content _ => ?_
  have hopen : openStart.isSome → d < fro.depth := fun hsome => by
    obtain ⟨hlt, -⟩ | ⟨-, rfl⟩ := openSide_ok hstart
    · exact hlt
    · cases hsome
  have hopen' : openEnd.isSome → d < to_.depth := fun hsome => by
    obtain ⟨hlt, -⟩ | ⟨-, rfl⟩ := openSide_ok hend
    · exact hlt
    · cases hsome
  have hrest : ∀ {openStart openEnd : Option Node}, (openStart.isSome → d < fro.depth) →
      (openEnd.isSome → d < to_.depth) → Calm (do
        let content ← replaceApart S fro start stop to_ d openStart openEnd content
        addRange (some to_) none d content) := fun hopen hopen' =>
    calm_bind (apart hfd htd hopen hopen') fun _ _ => calm_after ht htd
  cases openStart with
  | none => exact hrest hopen hopen'
  | some first =>
    cases openEnd with
    | none => exact hrest hopen hopen'
    | some last =>
      have hfd' := hopen rfl
      have htd' := hopen' rfl
      obtain ⟨i, hi⟩ := hs.index_at (d := d) (by omega)
      obtain ⟨j, hj⟩ := he.index_at (d := d) (by omega)
      dsimp only
      rw [ok_bind hi, ok_bind hj]
      refine calm_ite (fun _ => ?_) fun _ => hrest hopen hopen'
      refine calm_bind (calm_checkJoin _ _) fun _ _ => ?_
      rw [dif_pos hfd']
      exact calm_bind (ih (fro.depth - (d + 1)) (by omega) (by omega) (by omega) rfl) fun _ _ =>
        calm_bind (calm_close _ _) fun _ _ => calm_after ht htd

/-! ### Replacing -/

theorem calm_wrap (h : Solid r) : ∀ {d : Nat} {node : Node}, d ≤ r.depth + 1 → Calm (wrap r d node)
  | 0, _, _ => calm_ok _
  | d + 1, _, hd => by
    obtain ⟨outer, houter⟩ := h.node_at (d := d) (by omega)
    rw [wrap, ok_bind houter]
    exact calm_wrap h (by omega)

theorem calm_prepareSlice (h : Solid fro) (hstart : slice.openStart ≤ fro.depth)
    (hsum : fro.depth + slice.openEnd < 2 ^ 64) : Calm (prepareSlice slice fro) := by
  obtain ⟨outer, houter⟩ := h.node_at (d := fro.depth - slice.openStart) (by omega)
  rw [prepareSlice, ok_bind (sub64_ok.mpr ⟨hstart, rfl⟩), ok_bind houter]
  refine calm_bind (calm_wrap h (by omega)) fun shell _ => ?_
  rw [ok_bind (add64_ok.mpr ⟨by omega, rfl⟩)]
  refine calm_bind (calm_resolve _ _) fun start _ => ?_
  rw [ok_bind (add64_ok.mpr ⟨by omega, rfl⟩)]
  exact calm_ite (fun _ => calm_failed _) fun _ =>
    calm_bind (calm_resolve _ _) fun _ _ => calm_pure _

/-- A slice has the open sides that it says it has. -/
def Slice.Whole (slice : Slice) : Prop :=
  Opens slice.openStart slice.content ∧ Closes slice.openEnd slice.content

/-- Where a slice has its open sides, its edges in the shells of a path are as deep as they say. -/
theorem edges_depth {lo : Nat} (hroot : Stand fro 0 doc 0 lo) (hwhole : slice.Whole)
    (h : prepareSlice slice fro = .ok (start, stop)) :
    Solid start ∧ Solid stop ∧ start.depth = fro.depth ∧ stop.depth + slice.openStart = slice.openEnd + fro.depth := by
  obtain ⟨extra, outer, hextra, hshelled, hstart, hle, hstop⟩ := prepareSlice_ok (Q := fun _ => True)
    (fun hj hchild => ⟨(hroot.lower hj hchild).1, trivial⟩) h
  have hs := opens_depth hstart (hshelled.opens hwhole.1) hextra.symm
  have he := closes_depth hstop (hshelled.closes hwhole.2) (by omega)
  exact ⟨hstart.solid, hstop.solid, by omega, by omega⟩

/-- A replacement does not stop short when its slice has its open sides, or is empty and opens no
    deeper on the left than on the right. -/
theorem calm_replaceOuter {lo : Nat} (hroot : Stand fro 0 doc 0 lo) (ht : Solid to_)
    (hdepths : fro.depth + slice.openEnd = to_.depth + slice.openStart)
    (hsum : fro.depth + slice.openEnd < 2 ^ 64)
    (hempty : Fragment.size slice.content = 0 → slice.openStart ≤ slice.openEnd)
    (hwhole : Fragment.size slice.content ≠ 0 → slice.Whole) (hd : d + slice.openStart ≤ fro.depth) :
    Calm (replaceOuter S fro to_ slice d) := by
  have hf := hroot.solid
  induction hn : fro.depth - d using Nat.strong_induction_on generalizing d with
  | _ n ih =>
  obtain ⟨i, hi⟩ := hf.index_at (d := d) (by omega)
  obtain ⟨node, hnode⟩ := hf.node_at (d := d) (by omega)
  obtain ⟨j, hj⟩ := ht.index_at (d := d) (by omega)
  unfold replaceOuter
  rw [ok_bind hi, ok_bind hnode, ok_bind hj]
  split
  next hinside =>
    refine calm_bind (ih (fro.depth - (d + 1)) (by omega) (by omega) rfl) fun _ _ => ?_
    exact calm_bind (calm_ite (fun _ => calm_ok _) fun _ => calm_failed _) fun _ _ => calm_pure _
  next hinside =>
    refine calm_ite (fun hzero => ?_) fun hsize => calm_ite (fun hflat => ?_) fun _ => ?_
    · have := hempty hzero
      exact calm_bind (calm_twoWay hf ht (by omega) (by omega)) fun _ _ => calm_close _ _
    · obtain ⟨parent, hparent⟩ := hf.node_at le_rfl
      rw [ResolvedPos.parent, ok_bind hparent]
      exact calm_bind (calm_cut _ _ _) fun _ _ => calm_bind (calm_cut _ _ _) fun _ _ => calm_close _ _
    · refine calm_bind (calm_prepareSlice hf (by omega) hsum) fun edges hedges => ?_
      obtain ⟨start, stop⟩ := edges
      obtain ⟨hs, he, hsdepth, hedepth⟩ := edges_depth hroot (hwhole hsize) hedges
      exact calm_bind (calm_threeWay hf ht hs he hsdepth (by omega) (by omega) (by omega))
        fun _ _ => calm_close _ _

end Kodosi.Text
