import Kodosi.Text.Inserts

/-! When applying a step that came as JSON cannot stop short, and when its ranges are there. -/

namespace Kodosi.Text

open Documents Lib

variable {S : Schema} {doc node : Node} {lo hi pos : Nat} {added : Slice} {json : Value}

/-! ### What JSON builds -/

theorem mapM_forall {α β : Type} {P : β → Prop} {f : α → Out β} (hf : ∀ a b, f a = .ok b → P b) :
    ∀ {as : List α} {bs : List β}, as.mapM f = .ok bs → ∀ b ∈ bs, P b
  | [], bs, h, b, hb => by
    obtain rfl := Except.ok.inj h
    cases hb
  | a :: as, bs, h, b, hb => by
    rw [List.mapM_cons] at h
    obtain ⟨first, hfirst, h⟩ := bind_ok h
    obtain ⟨rest, hrest, h⟩ := bind_ok h
    obtain rfl := Except.ok.inj h
    rcases List.mem_cons.mp hb with rfl | hb
    · exact hf _ _ hfirst
    · exact mapM_forall hf hrest b hb

variable {value : Option Value}

variable {read : Value → Out Node}

/-- The children that are read are the ones that `read` gives, with equal texts joined. -/
theorem readWith_ok {nodes : List Node} (h : Fragment.readWith read value = .ok nodes) :
    ∃ items, nodes = Fragment.fromArray items ∧ ∀ item ∈ items, ∃ json, read json = .ok item := by
  unfold Fragment.readWith at h
  split at h
  · obtain rfl := Except.ok.inj h
    exact ⟨[], rfl, nofun⟩
  · obtain rfl := Except.ok.inj h
    exact ⟨[], rfl, nofun⟩
  · obtain ⟨items, hitems, h⟩ := bind_ok h
    obtain rfl := Except.ok.inj h
    exact ⟨items, rfl, mapM_forall (fun json node hread => ⟨json, hread⟩) hitems⟩
  · simp [failed] at h

theorem readWith_built (hread : ∀ json node, read json = .ok node → node.Built S) {nodes : List Node}
    (h : Fragment.readWith read value = .ok nodes) :
    Built S nodes := by
  obtain ⟨items, rfl, hitems⟩ := readWith_ok h
  refine shaped_steady.fromArray (everywhere_iff.mpr fun item hitem => ?_)
  obtain ⟨json, hjson⟩ := hitems item hitem
  exact hread json item hjson

/-- What is read from JSON is a text, or a node of another type whose children are read from JSON. -/
theorem fromJsonAt_ok {left : Nat} (h : Node.fromJsonAt S (left + 1) json = .ok node) :
    (∃ marks units, node = .mk S.textNode [] [] marks (some units) true) ∨
      ∃ kind attrs content marks value, node = .mk kind attrs content marks none (S.isLeaf kind) ∧ kind ≠ S.textNode ∧
        Fragment.readWith (Node.fromJsonAt S left) value = .ok content := by
  unfold Node.fromJsonAt at h
  obtain ⟨marks, -, h⟩ := bind_ok h
  dsimp only at h
  by_cases hname : (asStr (Value.at "type" json)).getD "" = "text"
  · rw [if_pos hname] at h
    obtain ⟨text, -, h⟩ := bind_ok h
    unfold Node.text at h
    split_ifs at h
    · simp [failed] at h
    · obtain rfl := Except.ok.inj h
      exact .inl ⟨_, _, rfl⟩
  · rw [if_neg hname] at h
    obtain ⟨kind, hkind, h⟩ := bind_ok h
    obtain ⟨content, hcontent, h⟩ := bind_ok h
    obtain ⟨attrs, -, h⟩ := bind_ok h
    obtain rfl := Except.ok.inj h
    refine .inr ⟨kind, attrs, content, _, _, rfl, fun htext => hname ?_, hcontent⟩
    exact idOf_inj (require_ok.mp hkind) (S.hasText.trans (congrArg some htext.symm))

/-- A node that is read from JSON is built as its schema says. -/
theorem fromJsonAt_built : ∀ {left : Nat} {json : Value} {node : Node},
    Node.fromJsonAt S left json = .ok node → node.Built S
  | 0, _, _, h => by simp [Node.fromJsonAt, failed] at h
  | left + 1, json, node, h => by
    rcases fromJsonAt_ok h with ⟨marks, units, rfl⟩ | ⟨kind, attrs, content, marks, value, rfl, hkind, hcontent⟩
    · exact ⟨⟨fun _ => ⟨rfl, rfl, rfl⟩, nofun, nofun⟩, trivial⟩
    · exact ⟨⟨nofun, fun hleaf => ⟨hkind, hleaf⟩, fun _ hleaf => hleaf⟩,
        readWith_built (fun _ _ => fromJsonAt_built) hcontent⟩

/-- The content of a slice from JSON is read as the children of a node are. -/
theorem sliceFromJson_content (h : Slice.fromJson S value = .ok added) :
    ∃ json, Fragment.fromJson S json = .ok added.content := by
  unfold Slice.fromJson at h
  split at h
  · obtain rfl := Except.ok.inj h
    exact ⟨none, rfl⟩
  · obtain rfl := Except.ok.inj h
    exact ⟨none, rfl⟩
  · obtain ⟨content, hcontent, h⟩ := bind_ok h
    obtain ⟨openStart, -, h⟩ := bind_ok h
    obtain ⟨openEnd, -, h⟩ := bind_ok h
    obtain rfl := Except.ok.inj h
    exact ⟨_, hcontent⟩

theorem sliceFromJson_built (h : Slice.fromJson S value = .ok added) : Built S added.content := by
  obtain ⟨json, hcontent⟩ := sliceFromJson_content h
  exact readWith_built (fun _ _ => fromJsonAt_built) hcontent

/-- The slice of a step, if it has one. -/
def Step.slice : Step → Option Slice
  | .replace _ _ slice _ => some slice
  | .replaceAround _ _ _ _ slice _ _ => some slice
  | _ => none

variable {step : Step}

theorem stepFromJson_slice (h : Step.fromJson S json = .ok step) :
    ∀ slice ∈ step.slice, Slice.fromJson S (Value.field "slice" json) = .ok slice := by
  unfold Step.fromJson at h
  dsimp only at h
  split at h
  · obtain ⟨lo, -, h⟩ := bind_ok h
    obtain ⟨hi, -, h⟩ := bind_ok h
    obtain ⟨slice, hslice, h⟩ := bind_ok h
    obtain rfl := Except.ok.inj h
    rintro _ ⟨⟩
    exact hslice
  · obtain ⟨lo, -, h⟩ := bind_ok h
    obtain ⟨hi, -, h⟩ := bind_ok h
    obtain ⟨gapFrom, -, h⟩ := bind_ok h
    obtain ⟨gapTo, -, h⟩ := bind_ok h
    obtain ⟨slice, hslice, h⟩ := bind_ok h
    obtain ⟨insert, -, h⟩ := bind_ok h
    obtain rfl := Except.ok.inj h
    rintro _ ⟨⟩
    exact hslice
  · obtain ⟨lo, -, h⟩ := bind_ok h
    obtain ⟨hi, -, h⟩ := bind_ok h
    obtain ⟨mark, -, h⟩ := bind_ok h
    obtain rfl := Except.ok.inj h
    nofun
  · obtain ⟨lo, -, h⟩ := bind_ok h
    obtain ⟨hi, -, h⟩ := bind_ok h
    obtain ⟨mark, -, h⟩ := bind_ok h
    obtain rfl := Except.ok.inj h
    nofun
  · obtain ⟨pos, -, h⟩ := bind_ok h
    obtain ⟨mark, -, h⟩ := bind_ok h
    obtain rfl := Except.ok.inj h
    nofun
  · obtain ⟨pos, -, h⟩ := bind_ok h
    obtain ⟨mark, -, h⟩ := bind_ok h
    obtain rfl := Except.ok.inj h
    nofun
  · obtain ⟨pos, -, h⟩ := bind_ok h
    obtain ⟨name, -, h⟩ := bind_ok h
    obtain rfl := Except.ok.inj h
    nofun
  · obtain ⟨name, -, h⟩ := bind_ok h
    obtain rfl := Except.ok.inj h
    nofun
  · simp [failed] at h

theorem stepFromJson_built (h : Step.fromJson S json = .ok step) : ∀ slice ∈ step.slice, Built S slice.content :=
  fun slice hslice => sliceFromJson_built (stepFromJson_slice h slice hslice)

/-! ### The parts of a step -/

theorem calm_computeAttrs (attrs : List Attribute) (given : Option Value) : Calm (Schema.computeAttrs attrs given) := by
  unfold Schema.computeAttrs
  induction attrs with
  | nil => exact calm_pure _
  | cons rule rest ih =>
    rw [List.mapM_cons]
    exact calm_bind (calm_bind (calm_require _ _) fun _ _ => calm_pure _) fun _ _ =>
      calm_bind ih fun _ _ => calm_pure _

theorem calm_nodeAt (node : Node) (pos : Nat) : Calm (node.nodeAt pos) := by
  induction pos using Nat.strong_induction_on generalizing node with
  | _ pos ih =>
  unfold Node.nodeAt
  refine calm_bind (calm_findIndex _ _) fun found hfind => ?_
  obtain ⟨i, o⟩ := found
  have hle := (found_le (findIndex_found hfind)).1
  dsimp only
  split
  · exact calm_pure _
  · refine calm_ite (fun _ => calm_pure _) fun hplace => ?_
    rw [dif_pos (by omega)]
    exact ih _ (by omega) _

variable {P : Node → Prop}

theorem nodeAt_everywhere (hdoc : Everywhere P doc.content) {found : Node}
    (h : doc.nodeAt pos = .ok (some found)) :
    found.Everywhere P ∧ pos ≤ Fragment.size doc.content := by
  induction pos using Nat.strong_induction_on generalizing doc with
  | _ pos ih =>
  unfold Node.nodeAt at h
  obtain ⟨⟨i, o⟩, hfind, h⟩ := bind_ok h
  have hfound := findIndex_found hfind
  dsimp only at h
  have hsize : pos ≤ Fragment.size doc.content := by
    cases hfound with
    | seam hcontent hpos =>
      rw [hcontent, Fragment.size_append]
      omega
    | inside hcontent hlo hhi =>
      rw [hcontent, Fragment.size_append, Fragment.size]
      omega
  split at h
  · cases Except.ok.inj h
  next child hchild =>
    have hall : child.Everywhere P := everywhere_iff.mp hdoc child (List.mem_of_getElem? hchild)
    split_ifs at h with hplace hlt
    · obtain rfl := Option.some.inj (Except.ok.inj h)
      exact ⟨hall, hsize⟩
    · exact ⟨(ih _ (by omega) hall.content h).1, hsize⟩
    · simp [panics] at h

namespace Solid

variable {r : ResolvedPos} {d : Nat} (h : Solid r)
include h

theorem calm_indexAfter (hd : d ≤ r.depth) : Calm (r.indexAfter d) := by
  obtain ⟨i, hi⟩ := h.index_at hd
  obtain ⟨off, hoff⟩ := h.offset
  rw [ResolvedPos.indexAfter, ok_bind hi, ok_bind hoff]
  exact calm_ite (fun _ => calm_pure _) fun _ => calm_pure _

theorem calm_climb (distance : Nat) (hd : d ≤ r.depth) : Calm (climb r distance d) := by
  induction d generalizing distance with
  | zero => exact calm_ok _
  | succ d ih =>
    obtain ⟨node, hnode⟩ := h.node_at hd
    unfold climb
    refine calm_ite (fun _ => calm_ok _) fun _ => calm_bind (h.calm_indexAfter hd) fun _ _ => ?_
    rw [ok_bind hnode]
    exact calm_ite (fun _ => ih _ (by omega)) fun _ => calm_pure _

end Solid

variable {r : ResolvedPos}

theorem climb_le : ∀ {d distance left depth : Nat}, climb r distance d = .ok (left, depth) → depth ≤ d
  | 0, _, _, _, h => (Prod.mk.inj (Except.ok.inj h)).2.ge
  | d + 1, distance, left, depth, h => by
    unfold climb at h
    by_cases hzero : distance = 0
    · rw [if_pos hzero] at h
      exact (Prod.mk.inj (Except.ok.inj h)).2.ge
    · rw [if_neg hzero] at h
      obtain ⟨after, -, h⟩ := bind_ok h
      obtain ⟨node, -, h⟩ := bind_ok h
      split_ifs at h
      · exact (climb_le h).trans (Nat.le_succ d)
      · exact (Prod.mk.inj (Except.ok.inj h)).2.ge

theorem calm_contentBetween (doc : Node) (lo hi : Nat) : Calm (contentBetween doc lo hi) := by
  refine calm_bind (calm_resolve _ _) fun start hstart => calm_ite (fun _ => calm_failed _) fun _ => ?_
  have hsolid := resolve_solid hstart
  refine calm_bind (hsolid.calm_climb _ le_rfl) fun climbed hclimb => ?_
  obtain ⟨left, depth⟩ := climbed
  have hle := climb_le hclimb
  obtain ⟨node, hnode⟩ := hsolid.node_at hle
  refine calm_ite (fun _ => ?_) fun _ => calm_pure _
  rw [ok_bind hnode]
  exact calm_bind (hsolid.calm_indexAfter hle) fun _ _ => calm_pure _

theorem contentBetween_le {between : Bool} (h : contentBetween doc lo hi = .ok between) : lo ≤ hi := by
  obtain ⟨start, -, h⟩ := bind_ok h
  by_contra hlt
  rw [if_pos (by omega)] at h
  simp [failed] at h

/-! ### Replacing -/

/-- What a replacement relies on, where both its ends are in the document and its slice opens no deeper
    on the left than its start: a depth that stays a number of 64 bits, and, where the depths match, a
    slice with the open sides that it says it has, or an empty one that opens no deeper on the left
    than on the right. -/
def Slice.Fits (slice : Slice) (doc : Node) (lo hi : Nat) : Prop :=
  ∀ fro to_, doc.resolve lo = .ok fro → doc.resolve hi = .ok to_ → slice.openStart ≤ fro.depth →
    fro.depth + slice.openEnd < 2 ^ 64 ∧
      (fro.depth + slice.openEnd = to_.depth + slice.openStart →
        if Fragment.size slice.content = 0 then slice.openStart ≤ slice.openEnd else slice.Whole)

theorem resolve_depth (h : doc.resolve pos = .ok r) : r.depth ≤ Fragment.size doc.content := by
  have hstand := resolve_stand h
  have := hstand.depth_le
  have := hstand.le_size
  omega

theorem calm_nodeReplace (hsize : Fragment.size doc.content < 2 ^ 63) (hfits : added.Fits doc lo hi) :
    Calm (doc.replace S lo hi added) := by
  refine calm_bind (calm_resolve _ _) fun fro hfro => calm_bind (calm_resolve _ _) fun to_ hto => ?_
  refine calm_ite (fun _ => calm_failed _) fun hdeep => ?_
  obtain ⟨hsum, hmatch⟩ := hfits fro to_ hfro hto (by omega)
  have := resolve_depth hfro
  have := resolve_depth hto
  rw [ok_bind (add64_ok.mpr ⟨hsum, rfl⟩), ok_bind (add64_ok.mpr ⟨by omega, rfl⟩)]
  refine calm_ite (fun _ => calm_failed _) fun hsame => ?_
  have hwhole := hmatch (not_not.mp hsame)
  refine calm_replaceOuter (resolve_stand hfro) (resolve_solid hto) (not_not.mp hsame) hsum
    (fun hzero => ?_) (fun hzero => ?_) (by omega)
  · rwa [if_pos hzero] at hwhole
  · rwa [if_neg hzero] at hwhole

/-- A slice that is open as deep as it says fits everywhere. -/
theorem Slice.Whole.fits (h : added.Whole)
    (hsum : ∀ fro, doc.resolve lo = .ok fro → fro.depth + added.openEnd < 2 ^ 64) :
    added.Fits doc lo hi := by
  refine fun fro to_ hfro hto hdeep => ⟨hsum fro hfro, fun _ => ?_⟩
  split
  next hzero =>
    have := opens_le h.1
    omega
  next => exact h

theorem calm_putNode (hsize : Fragment.size doc.content < 2 ^ 63) (hpos : pos ≤ Fragment.size doc.content)
    {updated : Node} (hupdated : node.isLeaf = false → updated.Inner) :
    Calm (putNode S doc pos node updated) := by
  rw [putNode, ok_bind (add64_ok.mpr ⟨by omega, rfl⟩)]
  refine calm_nodeReplace hsize (Slice.Whole.fits ⟨trivial, ?_⟩ fun fro hfro => ?_)
  · cases hleaf : node.isLeaf with
    | true => trivial
    | false => exact ⟨hupdated hleaf, trivial⟩
  · have := resolve_depth hfro
    have : (if node.isLeaf then 0 else 1) ≤ 1 := by split <;> omega
    dsimp only
    omega

/-! ### Inserting in a gap -/

/-- A slice that takes an insertion: it is open as deep as it says, and the insertion is inside. -/
structure Slice.Takes (slice : Slice) (insert : Nat) : Prop where
  whole : slice.Whole
  inside : insert + slice.openStart + slice.openEnd ≤ Fragment.size slice.content
  bounded : Fragment.size slice.content < 2 ^ 63 - 1

theorem addOne_ok {value : Nat} (h : value < 2 ^ 63 - 1) : ∃ next, addOne (asSigned value) = .ok next := by
  unfold addOne asSigned
  rw [if_pos (by omega), if_pos (by omega)]
  exact ⟨_, rfl⟩

variable {insert : Nat}

theorem calm_insertAt (h : added.Takes insert) (gap : Fragment) : Calm (added.insertAt S insert gap) := by
  obtain ⟨-, hinside, hbounded⟩ := h
  obtain ⟨openStart, hstart⟩ := addOne_ok (show added.openStart < 2 ^ 63 - 1 by omega)
  obtain ⟨openEnd, hend⟩ := addOne_ok (show added.openEnd < 2 ^ 63 - 1 by omega)
  rw [Slice.insertAt, ok_bind (add64_ok.mpr ⟨by omega, rfl⟩), ok_bind hstart, ok_bind hend]
  exact calm_bind (calm_insertInto nofun) fun _ _ => calm_pure _

theorem insertAt_ok {gap : Fragment} {out : Slice} (h : added.insertAt S insert gap = .ok (some out)) :
    ∃ openStart openEnd, out.openStart = added.openStart ∧ out.openEnd = added.openEnd ∧
      insertInto S added.content (insert + added.openStart) gap openStart openEnd none =
        .ok (some out.content) := by
  obtain ⟨distance, hdistance, h⟩ := bind_ok h
  obtain ⟨-, rfl⟩ := add64_ok.mp hdistance
  obtain ⟨openStart, -, h⟩ := bind_ok h
  obtain ⟨openEnd, -, h⟩ := bind_ok h
  obtain ⟨content, hcontent, h⟩ := bind_ok h
  cases content with
  | none => cases Except.ok.inj h
  | some content =>
    obtain rfl := Option.some.inj (Except.ok.inj h)
    exact ⟨openStart, openEnd, rfl, rfl, hcontent⟩

/-- With the gap put in, a slice is still open as deep as it says. -/
theorem insertAt_whole {gap : Fragment} {out : Slice} (hadded : Built S added.content) (hgap : Built S gap)
    (htakes : added.Takes insert) (h : added.insertAt S insert gap = .ok (some out)) : out.Whole := by
  obtain ⟨openStart, openEnd, hos, hoe, hin⟩ := insertAt_ok h
  obtain ⟨⟨hopens, hcloses⟩, hinside, -⟩ := htakes
  rw [Slice.Whole, hos, hoe]
  exact insertInto_open hadded hgap hopens (by omega) hcloses (by omega) hin

/-! ### Marks over a range -/

theorem Stand.everywhere {d e s k : Nat} {inside : Node} (h : Stand r d node s k) (hnode : Everywhere P node.content)
    (hde : d ≤ e) (he : r.node e = .ok inside) :
    Everywhere P inside.content := by
  induction h with
  | @seam d _ _ _ _ hlevel hdepth =>
    have := node_depth_le he
    obtain rfl : e = d := by omega
    obtain rfl := Except.ok.inj ((node_of_level hlevel).symm.trans he)
    exact hnode
  | @inText d _ _ _ _ _ _ _ hlevel hdepth =>
    have := node_depth_le he
    obtain rfl : e = d := by omega
    obtain rfl := Except.ok.inj ((node_of_level hlevel).symm.trans he)
    exact hnode
  | @down d _ _ before child after _ hlevel _ hcontent _ _ hstand ih =>
    by_cases hed : e = d
    · subst hed
      obtain rfl := Except.ok.inj ((node_of_level hlevel).symm.trans he)
      exact hnode
    · exact ih (hnode.child hcontent).content (by omega)

theorem Steady.slice (hP : Steady P) (hdoc : Everywhere P doc.content) (h : doc.slice lo hi = .ok added) :
    Everywhere P added.content := by
  by_cases hne : lo = hi
  · unfold Node.slice at h
    rw [if_pos hne] at h
    obtain rfl := Except.ok.inj h
    trivial
  · obtain ⟨start, stop, depth, node, s, k, j, hstart, -, -, hnode, -, -, hcut, -, -⟩ :=
      slice_ok h hne
    exact hP.cut ((resolve_stand hstart).everywhere hdoc (Nat.zero_le _) hnode) hcut

/-- The range of a mark: forwards, or not from a deeper place to a higher one. -/
def Ranged (doc : Node) (lo hi : Nat) : Prop :=
  lo ≤ hi ∨ ∀ fro to_, doc.resolve lo = .ok fro → doc.resolve hi = .ok to_ → fro.depth ≤ to_.depth

/-- A slice of a document that has its marks changed goes back in its place. -/
theorem remarked_fits {change : Node → Node → Node} (hchange : Remarks change)
    (hdoc : Built S doc.content) (hsize : Fragment.size doc.content < 2 ^ 63)
    (hranged : Ranged doc lo hi) (h : doc.slice lo hi = .ok added) (parent : Node) :
    Slice.Fits ⟨mapFragment S added.content change parent, added.openStart, added.openEnd⟩ doc lo hi := by
  have hbuilt := shaped_steady.slice hdoc h
  by_cases hne : lo = hi
  · unfold Node.slice at h
    rw [if_pos hne] at h
    obtain rfl := Except.ok.inj h
    refine Slice.Whole.fits ⟨trivial, trivial⟩ fun fro hfro => ?_
    have := resolve_depth hfro
    exact Nat.lt_of_le_of_lt this (by omega)
  · obtain ⟨start, stop, depth, node, s, k, j, hstart, hstop, -, -, hs, ht, hcut, hos, hoe⟩ :=
      slice_ok h hne
    have := resolve_depth hstop
    have hsum : ∀ fro, doc.resolve lo = .ok fro → fro.depth + added.openEnd < 2 ^ 64 := fun fro hfro => by
      have := resolve_depth hfro
      omega
    by_cases hlt : lo < hi
    · have hwhole := slice_whole h hlt
      exact Slice.Whole.fits
        ⟨mapFragment_opens hchange hbuilt hwhole.1 parent, mapFragment_closes hchange hwhole.2 parent⟩ hsum
    · have hback : start.depth ≤ stop.depth := by
        rcases hranged with h | h
        · omega
        · exact h start stop hstart hstop
      have hposk := hs.pos_eq
      have hposj := ht.pos_eq
      have := (resolve_stand hstart).pos_eq
      have := (resolve_stand hstop).pos_eq
      have hempty : added.content = [] := by
        unfold Fragment.cut cutWith at hcut
        rw [if_neg (by omega), if_neg (by omega)] at hcut
        exact (Except.ok.inj hcut).symm
      refine fun fro to_ hfro hto hdeep => ⟨hsum fro hfro, fun _ => ?_⟩
      rw [if_pos (show Fragment.size (mapFragment S added.content change parent) = 0 by
        rw [hempty]; rfl)]
      dsimp only
      omega

theorem markInline_remarks (mark : Mark) : Remarks (markInline S mark) := fun node parent => by
  unfold markInline
  split
  · cases node
    exact ⟨_, rfl⟩
  · exact ⟨_, rfl⟩

theorem calm_addMark (hdoc : Built S doc.content) (hsize : Fragment.size doc.content < 2 ^ 63)
    (hranged : Ranged doc lo hi) (mark : Mark) : Calm (addMark S doc lo hi mark) := by
  refine calm_bind (calm_slice _ _ _) fun old hold => calm_bind (calm_resolve _ _) fun start hstart => ?_
  have hstop : ∃ stop, doc.resolve hi = .ok stop := by
    by_cases hne : lo = hi
    · exact ⟨start, hne ▸ hstart⟩
    · obtain ⟨_, stop, _, _, _, _, _, -, hstop, -⟩ := slice_ok hold hne
      exact ⟨stop, hstop⟩
  obtain ⟨stop, hstop⟩ := hstop
  obtain ⟨depth, parent, s, k, j, hshared, -, -, hstand, -⟩ :=
    sharedFrom_ok hstart hstop (le_refl start.depth)
  rw [ResolvedPos.sharedDepth, ok_bind hshared, ok_bind hstand.node_eq]
  exact calm_nodeReplace hsize
    (remarked_fits (markInline_remarks mark) hdoc hsize hranged hold parent)

theorem calm_removeMark (hdoc : Built S doc.content) (hsize : Fragment.size doc.content < 2 ^ 63)
    (hranged : Ranged doc lo hi) (mark : Mark) : Calm (removeMark S doc lo hi mark) :=
  calm_bind (calm_slice _ _ _) fun _ hold => calm_nodeReplace hsize
    (remarked_fits (fun _ _ => ⟨_, rfl⟩) hdoc hsize hranged hold doc)

/-! ### One node -/

variable {out : Node}

theorem putNode_ok {updated : Node} (h : putNode S doc pos node updated = .ok out) :
    doc.replace S pos (pos + 1) ⟨[updated], 0, if node.isLeaf then 0 else 1⟩ = .ok out := by
  obtain ⟨next, hnext, h⟩ := bind_ok h
  obtain ⟨-, rfl⟩ := add64_ok.mp hnext
  exact h

theorem markNode_ok {marks : List Mark → List Mark} (h : markNode S doc pos marks = .ok out) :
    ∃ node updated, doc.nodeAt pos = .ok (some node) ∧
      Node.new S node.kind (some (.object node.attrs)) [] (marks node.marks) = .ok updated ∧
      putNode S doc pos node updated = .ok out := by
  obtain ⟨found, hfound, h⟩ := bind_ok h
  cases found with
  | none => simp [failed] at h
  | some node =>
    obtain ⟨updated, hupdated, h⟩ := bind_ok h
    exact ⟨node, updated, hfound, hupdated, h⟩

theorem setAttr_ok {name : String} {value : Value} (h : setAttr S doc pos name value = .ok out) :
    ∃ node updated, doc.nodeAt pos = .ok (some node) ∧ node.withAttrs S (setField node.attrs name value) = .ok updated ∧
      putNode S doc pos node updated = .ok out := by
  obtain ⟨found, hfound, h⟩ := bind_ok h
  cases found with
  | none => simp [failed] at h
  | some node =>
    obtain ⟨updated, hupdated, h⟩ := bind_ok h
    exact ⟨node, updated, hfound, hupdated, h⟩

theorem calm_markNode (hdoc : Built S doc.content) (hsize : Fragment.size doc.content < 2 ^ 63)
    (pos : Nat) (marks : List Mark → List Mark) : Calm (markNode S doc pos marks) := by
  refine calm_bind (calm_nodeAt _ _) fun found hfound => ?_
  cases found with
  | none => exact calm_failed _
  | some node =>
    obtain ⟨hbuilt, hpos⟩ := nodeAt_everywhere hdoc hfound
    refine calm_bind (calm_bind (calm_computeAttrs _ _) fun _ _ => calm_pure _) fun updated hupdated => ?_
    refine calm_putNode hsize hpos fun hleaf => ?_
    obtain ⟨attrs, -, hupdated⟩ := bind_ok hupdated
    obtain rfl := Except.ok.inj hupdated
    exact ⟨rfl, (hbuilt.here.inside hleaf).2⟩

theorem calm_setAttr (hdoc : Built S doc.content) (hsize : Fragment.size doc.content < 2 ^ 63)
    (pos : Nat) (name : String) (value : Value) : Calm (setAttr S doc pos name value) := by
  refine calm_bind (calm_nodeAt _ _) fun found hfound => ?_
  cases found with
  | none => exact calm_failed _
  | some node =>
    obtain ⟨-, hpos⟩ := nodeAt_everywhere hdoc hfound
    refine calm_bind (calm_bind (calm_computeAttrs _ _) fun _ _ => calm_pure _) fun updated hupdated => ?_
    refine calm_putNode hsize hpos fun hleaf => ?_
    obtain ⟨attrs, -, hupdated⟩ := bind_ok hupdated
    obtain rfl := Except.ok.inj hupdated
    exact ⟨rfl, hleaf⟩

/-! ### Steps -/

/-- What a step relies on in a document, kind by kind: replaced slices that fit, gaps put inside a slice
    that takes them, and ranges that do not end before they start. -/
def Step.Sound (doc : Node) : Step → Prop
  | .replace lo hi slice structure_ => slice.Fits doc lo hi ∧ (structure_ = true ∨ lo ≤ hi)
  | .replaceAround lo hi gapFrom gapTo slice insert structure_ =>
    (∀ gap, doc.slice gapFrom gapTo = .ok gap → gap.openStart = 0 → gap.openEnd = 0 →
      slice.Takes insert) ∧ (structure_ = true ∨ lo ≤ gapFrom ∧ gapTo ≤ hi)
  | .addMark lo hi _ | .removeMark lo hi _ => Ranged doc lo hi
  | .addNodeMark _ _ | .removeNodeMark _ _ | .attr _ _ _ | .docAttr _ _ => True

/-- A step that is sound for a document does not stop short in it. -/
theorem calm_apply (hdoc : Built S doc.content) (hsize : Fragment.size doc.content < 2 ^ 63)
    (hslice : ∀ slice ∈ step.slice, Built S slice.content) (hsound : step.Sound doc) : Calm (step.apply S doc) := by
  have between : ∀ (structure_ : Bool) (lo hi : Nat),
      Calm (if structure_ then contentBetween doc lo hi else .ok false : Out Bool) := fun _ _ _ =>
    calm_ite (fun _ => calm_contentBetween _ _ _) fun _ => calm_ok _
  cases step with
  | replace lo hi slice structure_ =>
    exact calm_bind (between _ _ _) fun _ _ => calm_ite (fun _ => calm_failed _) fun _ =>
      calm_nodeReplace hsize hsound.1
  | replaceAround lo hi gapFrom gapTo slice insert structure_ =>
    refine calm_bind (between _ _ _) fun before _ => calm_bind ?_ fun _ _ =>
      calm_ite (fun _ => calm_failed _) fun _ => calm_bind (calm_slice _ _ _) fun gap hgap =>
        calm_ite (fun _ => calm_failed _) fun hflat => ?_
    · exact calm_ite (fun _ => calm_contentBetween _ _ _) fun _ => calm_ok _
    · have htakes := hsound.1 gap hgap (by omega) (by omega)
      refine calm_bind (calm_insertAt htakes _) fun inserted hinserted => ?_
      cases inserted with
      | none => exact calm_failed _
      | some inserted =>
        have hwhole := insertAt_whole (hslice slice rfl) (shaped_steady.slice hdoc hgap) htakes hinserted
        obtain ⟨_, _, -, hoe, -⟩ := insertAt_ok hinserted
        refine calm_nodeReplace hsize (hwhole.fits fun fro hfro => ?_)
        have := resolve_depth hfro
        have := htakes.inside
        have := htakes.bounded
        omega
  | addMark lo hi mark => exact calm_addMark hdoc hsize hsound mark
  | removeMark lo hi mark => exact calm_removeMark hdoc hsize hsound mark
  | addNodeMark pos mark => exact calm_markNode hdoc hsize pos _
  | removeNodeMark pos mark => exact calm_markNode hdoc hsize pos _
  | attr pos name value => exact calm_setAttr hdoc hsize pos name value
  | docAttr name value => exact calm_bind (calm_computeAttrs _ _) fun _ _ => calm_pure _

theorem replace_size (h : doc.replace S lo hi added = .ok out) : ∃ size, added.size = .ok size := by
  obtain ⟨fro, to_, -, -, hdeep, hlt, -⟩ := replace_ok h
  rw [Slice.size, ok_bind (add64_ok.mpr ⟨by omega, rfl⟩)]
  exact ⟨_, rfl⟩

/-- A replacement around a gap that is accepted puts its slice, with the gap of the document in it, in the place of
    the range. -/
theorem replaceAround_ok {gapFrom gapTo : Nat} {slice : Slice} {structure_ : Bool}
    (h : Step.apply S doc (.replaceAround lo hi gapFrom gapTo slice insert structure_) = .ok out) :
    ∃ gap inserted, (structure_ = true → lo ≤ gapFrom ∧ gapTo ≤ hi) ∧ doc.slice gapFrom gapTo = .ok gap ∧
      gap.openStart = 0 ∧ gap.openEnd = 0 ∧ slice.insertAt S insert gap.content = .ok (some inserted) ∧
      doc.replace S lo hi inserted = .ok out := by
  obtain ⟨before, hbefore, h⟩ := bind_ok h
  obtain ⟨between, hbetween, h⟩ := bind_ok h
  by_cases hover : between = true
  · rw [if_pos hover] at h
    simp [failed] at h
  rw [if_neg hover] at h
  obtain ⟨gap, hgap, h⟩ := bind_ok h
  by_cases hflat : gap.openStart ≠ 0 ∨ gap.openEnd ≠ 0
  · rw [if_pos hflat] at h
    simp [failed] at h
  rw [if_neg hflat] at h
  obtain ⟨inserted, hinserted, h⟩ := bind_ok h
  cases inserted with
  | none => simp [failed] at h
  | some inserted =>
    refine ⟨gap, inserted, ?_, hgap, by omega, by omega, hinserted, h⟩
    rintro rfl
    cases before with
    | true =>
      obtain rfl := Except.ok.inj hbetween
      exact absurd rfl hover
    | false => exact ⟨contentBetween_le hbefore, contentBetween_le hbetween⟩

/-- The ranges of a sound step that is accepted are there. -/
theorem map_ok (hsound : step.Sound doc) (h : step.apply S doc = .ok out) : ∃ ranges, step.map = .ok ranges := by
  cases step with
  | replace lo hi slice structure_ =>
    obtain ⟨between, hbetween, h⟩ := bind_ok h
    split_ifs at h
    · simp [failed] at h
    · obtain ⟨size, hsize⟩ := replace_size h
      have hle : lo ≤ hi := by
        rcases hsound.2 with rfl | hle
        · exact contentBetween_le hbetween
        · exact hle
      rw [Step.map, ok_bind (sub64_ok.mpr ⟨hle, rfl⟩), ok_bind hsize]
      exact ⟨_, rfl⟩
  | replaceAround lo hi gapFrom gapTo slice insert structure_ =>
    obtain ⟨gap, inserted, horder, -, -, -, hinserted, h⟩ := replaceAround_ok h
    obtain ⟨size, hsize⟩ := replace_size h
    obtain ⟨_, _, hos, hoe, -⟩ := insertAt_ok hinserted
    have hsame : ∃ size, slice.size = .ok size := by
      unfold Slice.size at hsize ⊢
      rw [hos, hoe] at hsize
      obtain ⟨sides, hsides, -⟩ := bind_ok hsize
      exact ⟨_, ok_bind hsides⟩
    obtain ⟨size, hsize⟩ := hsame
    have hle : lo ≤ gapFrom ∧ gapTo ≤ hi := hsound.2.elim horder id
    rw [Step.map, ok_bind (sub64_ok.mpr ⟨hle.1, rfl⟩), ok_bind (sub64_ok.mpr ⟨hle.2, rfl⟩), ok_bind hsize]
    exact ⟨_, rfl⟩
  | addMark lo hi mark => exact ⟨[], rfl⟩
  | removeMark lo hi mark => exact ⟨[], rfl⟩
  | addNodeMark pos mark => exact ⟨[], rfl⟩
  | removeNodeMark pos mark => exact ⟨[], rfl⟩
  | attr pos name value => exact ⟨[], rfl⟩
  | docAttr name value => exact ⟨[], rfl⟩

/-- The JSON of a step that replaces a range by nothing, open so deep on the left. -/
def removal (lo hi openStart : Nat) : Value :=
  .object [("stepType", .string "replace"), ("from", Derive.writeNat lo), ("to", Derive.writeNat hi),
    ("slice", .object [("openStart", Derive.writeNat openStart)])]

theorem fromJson_removal {openStart : Nat} (hlo : lo < 2 ^ 64) (hhi : hi < 2 ^ 64)
    (hopen : openStart < 2 ^ 64) :
    Step.fromJson S (removal lo hi openStart) = .ok (.replace lo hi ⟨[], openStart, 0⟩ false) := by
  simp [Step.fromJson, removal, Value.at, Value.field, asStr, numberOf, List.lookup,
    Derive.readNat_write hlo, Derive.readNat_write hhi, Derive.readNat_write hopen, Lib.require,
    Slice.fromJson, openFromJson, Fragment.fromJson, Fragment.readWith, Derive.readBool]
  rfl

theorem twoLines_built : Built page twoLines.content := by
  have hline : ∀ s : String, (paragraph [words s]).Built page := fun s =>
    ⟨⟨nofun, fun _ => show 1 ≠ page.textNode ∧ page.isLeaf 1 = false by decide, nofun⟩,
      ⟨⟨fun _ => ⟨rfl, rfl, rfl⟩, nofun, nofun⟩, trivial⟩, trivial⟩
  exact ⟨hline "ab", hline "cd", trivial⟩

end Kodosi.Text
