import Kodosi.Text.StaysValid
import Kodosi.Text.Total

/-! Which accepted steps leave every node of a document to its schema. -/

namespace Kodosi.Text

open Documents Lib

variable {S : Schema} {doc node : Node} {lo hi n m : Nat} {nodes before after : List Node}
  {change : Node → Node → Node}

/-! ### Rules that do not count text -/

/-- No content rule counts the adjacent pieces of a text. -/
def Schema.Joins (S : Schema) : Prop :=
  ∀ s t u, S.matchKinds s [S.textNode] = some t → S.matchKinds t [S.textNode] = some u → u = t

variable {start : MatchId} {kinds others : List NodeId}

theorem matchKinds_append :
    S.matchKinds start (kinds ++ others) = (S.matchKinds start kinds).bind fun mid => S.matchKinds mid others := by
  induction kinds generalizing start with
  | nil => rfl
  | cons kind kinds ih =>
    simp only [List.cons_append, Schema.matchKinds]
    cases (S.state start).next.find? fun entry => entry.1 = kind with
    | none => rfl
    | some entry => exact ih

theorem matchKinds_cons {kind : NodeId} :
    S.matchKinds start (kind :: kinds) = (S.matchKinds start [kind]).bind fun mid => S.matchKinds mid kinds := by
  rw [← List.singleton_append, matchKinds_append]

/-- Where rules do not count text, a second piece of it may go. -/
theorem matchKinds_join (hjoins : S.Joins) {t : MatchId}
    (h : S.matchKinds start (kinds ++ S.textNode :: S.textNode :: others) = some t) :
    S.matchKinds start (kinds ++ S.textNode :: others) = some t := by
  rw [matchKinds_append] at h ⊢
  obtain ⟨mid, hmid, hfirst⟩ := Option.bind_eq_some_iff.mp h
  rw [matchKinds_cons] at hfirst
  obtain ⟨one, hone, hsecond⟩ := Option.bind_eq_some_iff.mp hfirst
  rw [matchKinds_cons] at hsecond
  obtain ⟨two, htwo, hrest⟩ := Option.bind_eq_some_iff.mp hsecond
  obtain rfl := hjoins mid one two hone htwo
  rw [hmid, Option.bind_some, matchKinds_cons, hone, Option.bind_some, hrest]

/-- What a loop of joins does to a list: it leaves it, or merges a text into a node like it. -/
theorem pushJoined_cases (hnodes : Built S nodes) (hnode : node.Built S) :
    Fragment.pushJoined nodes node = nodes ++ [node] ∨
      ∃ init last units, nodes = init ++ [last] ∧ node.isText = true ∧ last.kind = S.textNode ∧
        node.kind = S.textNode ∧ last.isLeaf = true ∧
        Fragment.pushJoined nodes node = init ++ [last.withUnits units] := by
  rcases List.eq_nil_or_concat nodes with rfl | ⟨init, last, rfl⟩
  · exact .inl rfl
  · rw [List.concat_eq_append] at hnodes ⊢
    simp only [Fragment.pushJoined, List.getLast?_concat, List.dropLast_concat]
    split
    next h =>
      obtain ⟨htext, hsame⟩ := Bool.and_eq_true_iff.mp h
      have hkind := kind_of_text hnode htext
      have hlast := (sameMarkup_iff.mp hsame).1.trans hkind
      refine .inr ⟨init, last, _, rfl, htext, hlast, hkind, ?_, rfl⟩
      by_contra hleaf
      exact ((everywhere_append.mp hnodes).2.1.here.inside (by simpa using hleaf)).1 hlast
    next => exact .inl rfl

/-- What a loop of joins keeps: a property of lists that merging two texts keeps. -/
theorem fromArray_keeps {I : List Node → Prop}
    (hmerge : ∀ init last node rest units, Built S (init ++ last :: node :: rest) → node.isText = true →
      last.kind = S.textNode → last.isLeaf = true → I (init ++ last :: node :: rest) →
      I (init ++ last.withUnits units :: rest))
    (hbuilt : Built S nodes) (h : I nodes) : I (Fragment.fromArray nodes) := by
  have push : ∀ {rest joined : List Node}, Built S joined → Built S rest → I (joined ++ rest) →
      I (rest.foldl Fragment.pushJoined joined) := by
    intro rest
    induction rest with
    | nil =>
      intro joined _ _ h
      rwa [List.append_nil] at h
    | cons node rest ih =>
      intro joined hjoined hrest h
      rw [List.foldl_cons]
      refine ih (shaped_steady.pushJoined hjoined hrest.1) hrest.2 ?_
      rcases pushJoined_cases hjoined hrest.1 with heq | ⟨init, last, units, rfl, htext, hkind, -, hleaf, heq⟩
      · rw [heq, List.append_assoc]
        exact h
      · rw [heq, List.append_assoc]
        rw [List.append_assoc] at h
        refine hmerge init last node rest units ?_ htext hkind hleaf h
        have := everywhere_append.mpr ⟨hjoined, hrest⟩
        rwa [List.append_assoc] at this
  exact push everywhere_nil hbuilt h

/-- Joining text leaves a rule that does not count it satisfied. -/
theorem fromArray_rule (hjoins : S.Joins) (hbuilt : Built S nodes) {kind : NodeId}
    (h : S.validContent kind nodes = true) : S.validContent kind (Fragment.fromArray nodes) = true := by
  refine fromArray_keeps (I := fun nodes => S.validContent kind nodes = true) ?_ hbuilt h
  intro init last node rest units hbuilt htext hlast hleaf h
  have hnode := kind_of_text (everywhere_append.mp hbuilt).2.2.1 htext
  unfold Schema.validContent Schema.matchFragment at h ⊢
  simp only [List.map_append, List.map_cons, hlast, hnode] at h ⊢
  cases hmatch : S.matchKinds (S.node kind).contentMatch
      (init.map Node.kind ++ S.textNode :: S.textNode :: rest.map Node.kind) with
  | none => simp [hmatch] at h
  | some t =>
    rw [hmatch] at h
    rw [show (last.withUnits units).kind = S.textNode from hlast, matchKinds_join hjoins hmatch]
    simp only [Schema.allowsMarks, List.all_append, List.all_cons, Bool.and_eq_true] at h ⊢
    exact ⟨h.1, h.2.1, h.2.2.1, h.2.2.2.2⟩

theorem fromArray_proper (hnodes : Proper S nodes) : Proper S (Fragment.fromArray nodes) := by
  have push : ∀ {rest joined : List Node}, Proper S joined → Proper S rest →
      Proper S (rest.foldl Fragment.pushJoined joined) := by
    intro rest
    induction rest with
    | nil => exact fun hjoined _ => hjoined
    | cons node rest ih => exact fun hjoined hrest => ih (pushJoined_proper hjoined hrest.1) hrest.2
  exact push everywhere_nil hnodes

/-! ### Changing marks -/

/-- Whether a node of this type allows the marks of a child. -/
def Schema.allowsChild (S : Schema) (kind : NodeId) (child : Node) : Bool :=
  child.marks.all fun mark => S.allowsMarkType kind mark.kind

/-- A change of marks that gives a child only marks that its parent allows. -/
structure Lawful (S : Schema) (change : Node → Node → Node) : Prop where
  remarks : Remarks change
  allowed : ∀ node parent, S.allowsChild parent.kind node = true →
    S.allowsChild parent.kind (change node parent) = true

theorem mem_placeInSet (mark : Mark) (set : List Mark) {x : Mark} :
    ∀ {rest passed : List Mark} {copy : Option (List Mark)} {placed : Bool},
      (∀ y ∈ passed, y ∈ set) → (∀ y ∈ rest, y ∈ set) → (∀ c ∈ copy, ∀ y ∈ c, y = mark ∨ y ∈ set) →
      x ∈ mark.placeInSet S set passed rest copy placed → x = mark ∨ x ∈ set
  | [], passed, copy, placed, hpassed, hrest, hcopy, h => by
    have hkept : ∀ y ∈ copy.getD set, y = mark ∨ y ∈ set := by
      cases copy with
      | none => exact fun y hy => .inr hy
      | some c => exact hcopy c rfl
    unfold Mark.placeInSet at h
    split at h
    · exact hkept x h
    · rcases List.mem_append.mp h with h | h
      · exact hkept x h
      · exact .inl (List.mem_singleton.mp h)
  | other :: rest, passed, copy, placed, hpassed, hrest, hcopy, h => by
    have hother := hrest other List.mem_cons_self
    have hpassed' : ∀ y ∈ passed ++ [other], y ∈ set := fun y hy => by
      rcases List.mem_append.mp hy with hy | hy
      · exact hpassed y hy
      · exact List.mem_singleton.mp hy ▸ hother
    have hrest' : ∀ y ∈ rest, y ∈ set := fun y hy => hrest y (List.mem_cons_of_mem _ hy)
    have hbegun : ∀ y ∈ copy.getD passed, y = mark ∨ y ∈ set := by
      cases copy with
      | none => exact fun y hy => .inr (hpassed y hy)
      | some c => exact hcopy c rfl
    unfold Mark.placeInSet at h
    split_ifs at h
    · exact .inr h
    · refine mem_placeInSet mark set hpassed' hrest' ?_ h
      rintro _ ⟨⟩
      exact hbegun
    · exact .inr h
    · refine mem_placeInSet mark set hpassed' hrest' ?_ h
      rintro _ ⟨⟩ y hy
      rcases List.mem_append.mp hy with hy | hy
      · exact hbegun y hy
      · rcases List.mem_cons.mp hy with rfl | hy
        · exact .inl rfl
        · exact .inr (List.mem_singleton.mp hy ▸ hother)
    · refine mem_placeInSet mark set hpassed' hrest' ?_ h
      intro c hc y hy
      obtain ⟨c', rfl, rfl⟩ := Option.map_eq_some_iff.mp hc
      rcases List.mem_append.mp hy with hy | hy
      · exact hcopy c' rfl y hy
      · exact .inr (List.mem_singleton.mp hy ▸ hother)

theorem mem_addToSet {mark x : Mark} {set : List Mark} (h : x ∈ mark.addToSet S set) : x = mark ∨ x ∈ set :=
  mem_placeInSet mark set (by simp) (fun _ hy => hy) (by simp) h

theorem markInline_lawful (mark : Mark) : Lawful S (markInline S mark) := by
  refine ⟨markInline_remarks mark, fun node parent h => ?_⟩
  unfold markInline
  split
  next => exact h
  next hcan =>
    simp only [Bool.or_eq_true, Bool.not_eq_true', not_or, Bool.not_eq_false] at hcan
    refine List.all_eq_true.mpr fun x hx => ?_
    rcases mem_addToSet hx with rfl | hx
    · exact hcan.2
    · exact List.all_eq_true.mp h x hx

theorem removeFromSet_lawful (mark : Mark) : Lawful S (fun node _ => node.withMarks (mark.removeFromSet node.marks)) :=
  ⟨fun _ _ => ⟨_, rfl⟩, fun _ _ h => List.all_eq_true.mpr fun x hx =>
    List.all_eq_true.mp h x (List.mem_of_mem_erase hx)⟩

theorem mapNode_kind (h : Remarks change) (parent child : Node) :
    (mapNode S change parent child).kind = child.kind := by
  obtain ⟨marks, hmapped⟩ := mapNode_remarked (S := S) h parent child
  rw [hmapped]
  rfl

theorem mapNodes_kinds (h : Remarks change) (parent : Node) :
    (mapNodes S change parent nodes).map Node.kind = nodes.map Node.kind := by
  induction nodes with
  | nil => rfl
  | cons child rest ih => rw [mapNodes, List.map_cons, List.map_cons, mapNode_kind h, ih]

theorem mapNode_allowed (h : Lawful S change) (parent child : Node)
    (hchild : S.allowsChild parent.kind child = true) :
    S.allowsChild parent.kind (mapNode S change parent child) = true := by
  rw [mapNode_eq]
  split
  · exact h.allowed _ parent hchild
  · exact hchild

theorem mapNodes_allowed (h : Lawful S change) (parent : Node)
    (hnodes : S.allowsMarks parent.kind nodes = true) :
    S.allowsMarks parent.kind (mapNodes S change parent nodes) = true := by
  induction nodes with
  | nil => rfl
  | cons child rest ih =>
    obtain ⟨hchild, hrest⟩ := Bool.and_eq_true_iff.mp hnodes
    exact Bool.and_eq_true_iff.mpr ⟨mapNode_allowed h parent child hchild, ih hrest⟩

/-- A mapped node keeps to its rule, where rules do not count text. -/
theorem mappedContent_rule (hjoins : S.Joins) (h : Lawful S change) (hnode : node.Built S)
    (hrule : S.validContent node.kind node.content = true) :
    S.validContent node.kind (mappedContent S change node) = true := by
  unfold mappedContent
  split
  · refine fromArray_rule hjoins (mapNodes_built h.remarks node hnode.content) ?_
    unfold Schema.validContent Schema.matchFragment at hrule ⊢
    rw [mapNodes_kinds h.remarks]
    split at hrule
    · obtain ⟨hend, hmarks⟩ := Bool.and_eq_true_iff.mp hrule
      exact Bool.and_eq_true_iff.mpr ⟨hend, mapNodes_allowed h node hmarks⟩
    · cases hrule
  · exact hrule

mutual

theorem mapNode_valid {node : Node} (hjoins : S.Joins) (h : Lawful S change) (parent : Node)
    (hbuilt : node.Built S) (hnode : node.valid S = true) :
    (mapNode S change parent node).valid S = true := by
  have hrule := mappedContent_rule hjoins h hbuilt (valid_iff.mp hnode).1
  obtain ⟨marks, hmapped⟩ := mapNode_remarked (S := S) h.remarks parent node
  rw [hmapped]
  refine valid_iff.mpr ⟨hrule, ?_⟩
  cases node with
  | mk kind attrs content marks' text leaf =>
    have hall := mapNodes_valid hjoins h (.mk kind attrs content marks' text leaf) hbuilt.2
      (valid_iff.mp hnode).2
    change allValid S (mappedContent S change _) = true
    unfold mappedContent
    split
    · exact (fromArray_proper (proper_of_valid hall (mapNodes_built h.remarks _ hbuilt.2))).allValid
    · exact (valid_iff.mp hnode).2

theorem mapNodes_valid {nodes : List Node} (hjoins : S.Joins) (h : Lawful S change) (parent : Node)
    (hbuilt : Built S nodes) (hnodes : allValid S nodes = true) :
    allValid S (mapNodes S change parent nodes) = true := by
  cases nodes with
  | nil => rfl
  | cons node rest =>
    obtain ⟨hnode, hrest⟩ := Bool.and_eq_true_iff.mp hnodes
    exact Bool.and_eq_true_iff.mpr ⟨mapNode_valid hjoins h parent hbuilt.1 hnode,
      mapNodes_valid hjoins h parent hbuilt.2 hrest⟩

end

/-! ### A slice with its marks changed -/

theorem validOff_append {more : List Node} (h : more ≠ []) : validOff S n m (nodes ++ more) = true ↔
    validOff S n 0 nodes = true ∧ validOff S (if nodes = [] then n else 0) m more = true := by
  induction nodes generalizing n with
  | nil => simp [validOff]
  | cons node rest ih =>
    have hne : rest ++ more ≠ [] := by simp [h]
    rw [List.cons_append, validOff, validOff, if_neg hne, Bool.and_eq_true, Bool.and_eq_true, ih, ite_self,
      if_neg (List.cons_ne_nil node rest), and_assoc]

/-- A node without an inside is off every open side. -/
theorem valid_of_leaf (hleaf : node.isLeaf = true) (h : node.validOff S n m = true) : node.valid S = true := by
  rcases Node.validOff_iff.mp h with h | ⟨-, hinner, -⟩
  · exact h
  · rw [hinner.noLeaf] at hleaf
    cases hleaf

theorem fromArray_validOff (hbuilt : Built S nodes) (h : validOff S n m nodes = true) :
    validOff S n m (Fragment.fromArray nodes) = true := by
  refine fromArray_keeps (I := fun nodes => validOff S n m nodes = true) ?_ hbuilt h
  intro init last node rest units hbuilt htext hlast hleaf h
  obtain ⟨-, hlastb, hnodeb, -⟩ := everywhere_append.mp hbuilt
  obtain ⟨hkind, hnleaf, hbare⟩ := hnodeb.here.text htext
  rw [validOff_append (by simp)] at h ⊢
  obtain ⟨hinit, h⟩ := h
  simp only [validOff, Bool.and_eq_true] at h
  obtain ⟨-, hnode, hrest⟩ := h
  have hvalid := valid_of_leaf hnleaf hnode
  refine ⟨hinit, Bool.and_eq_true_iff.mpr ⟨validOff_of_valid ?_, hrest⟩⟩
  exact (withUnits_proper (Node.proper_of_valid hvalid hnodeb) htext (hlast.trans hkind.symm) _).isValid

mutual

theorem mapNode_validOff {node : Node} {n m : Nat} (hjoins : S.Joins) (h : Lawful S change)
    (parent : Node) (hbuilt : node.Built S) (hnode : node.validOff S n m = true) :
    (mapNode S change parent node).validOff S n m = true := by
  rcases Node.validOff_iff.mp hnode with hvalid | ⟨hopen, hinner, hcontent⟩
  · exact validOff_of_valid (mapNode_valid hjoins h parent hbuilt hvalid)
  · obtain ⟨hminner, hmcontent⟩ := mapNode_inner (S := S) h.remarks parent hinner
    refine Node.validOff_iff.mpr (.inr ⟨hopen, hminner, ?_⟩)
    rw [hmcontent]
    unfold mappedContent
    split
    · cases node with
      | mk kind attrs content marks text leaf =>
        exact fromArray_validOff (mapNodes_built h.remarks _ hbuilt.2)
          (mapNodes_validOff hjoins h (.mk kind attrs content marks text leaf) hbuilt.2 hcontent)
    · exact hcontent

theorem mapNodes_validOff {nodes : List Node} {n m : Nat} (hjoins : S.Joins) (h : Lawful S change)
    (parent : Node) (hbuilt : Built S nodes) (hnodes : validOff S n m nodes = true) :
    validOff S n m (mapNodes S change parent nodes) = true := by
  cases nodes with
  | nil => rfl
  | cons node rest =>
    obtain ⟨hnode, hrest⟩ := Bool.and_eq_true_iff.mp hnodes
    have hempty : mapNodes S change parent rest = [] ↔ rest = [] := by
      cases rest with
      | nil => exact Iff.rfl
      | cons next more => exact iff_of_false nofun nofun
    refine Bool.and_eq_true_iff.mpr ⟨?_, mapNodes_validOff hjoins h parent hbuilt.2 hrest⟩
    simp only [hempty]
    exact mapNode_validOff hjoins h parent hbuilt.1 hnode

end

/-- A slice of a valid document is valid off its open sides. -/
theorem slice_validOff {slice : Slice} (hdoc : doc.valid S = true) (hbuilt : doc.Built S)
    (h : doc.slice lo hi = .ok slice) :
    validOff S slice.openStart slice.openEnd slice.content = true := by
  by_cases hne : lo = hi
  · unfold Node.slice at h
    rw [if_pos hne] at h
    obtain rfl := Except.ok.inj h
    rfl
  · obtain ⟨start, stop, depth, node, s, k, j, hstart, -, -, hnode, hs, ht, hcut, hos, hoe⟩ :=
      slice_ok h hne
    have hroot := resolve_stand hstart
    have hproper := proper_of_valid (valid_iff.mp hdoc).2 hbuilt.content
    have hoff := cut_validOff (hroot.everywhere hproper (Nat.zero_le _) hnode).allValid
      (hroot.everywhere hbuilt.content (Nat.zero_le _) hnode) hcut
    have := hs.depthAt
    have := ht.depthAt
    rwa [show depthAt node.content k = slice.openStart by omega,
      show depthAt node.content j = slice.openEnd by omega] at hoff

/-! ### One node -/

/-- A node without an inside needs no children. -/
theorem bare_rule (hnode : node.valid S = true) (hbuilt : node.Built S) (hleaf : node.isLeaf = true) :
    S.validContent node.kind [] = true := by
  cases htext : node.isText with
  | true =>
    have hrule := (valid_iff.mp hnode).1
    rwa [(hbuilt.here.text htext).2.2] at hrule
  | false =>
    have hempty : (S.node node.kind).contentMatch = EMPTY_MATCH := by
      simpa [Schema.isLeaf] using hbuilt.here.leaf htext hleaf
    simp [Schema.validContent, Schema.matchFragment, Schema.matchKinds, hempty, Schema.state, S.hasEmpty,
      Schema.allowsMarks, List.getD_eq_getElem?_getD]

variable {pos : Nat} {out : Node}

/-- A node of a document may be put back with other attributes or marks, bare. -/
theorem putNode_valid {found updated : Node} (hdoc : doc.valid S = true) (hbuilt : doc.Built S)
    (hfound : doc.nodeAt pos = .ok (some found)) (h : putNode S doc pos found updated = .ok out)
    (hkind : updated.kind = found.kind) (hbare : updated.content = [])
    (hupdated : found.Built S → found.isLeaf = false → updated.Inner) : out.valid S = true := by
  have hfvalid := (nodeAt_everywhere (Node.proper_of_valid hdoc hbuilt).content hfound).1.isValid
  have hfbuilt := (nodeAt_everywhere hbuilt.content hfound).1
  obtain ⟨next, -, h⟩ := bind_ok h
  refine replace_valid hdoc hbuilt (fun p _ => ?_) h
  by_cases hleaf : found.isLeaf = true
  · have hrule := bare_rule hfvalid hfbuilt hleaf
    rw [← hkind, ← hbare] at hrule
    refine within_of_proper ⟨Node.everywhere_iff.mpr ⟨⟨hrule, fun _ => hbare⟩, ?_⟩, trivial⟩
    rw [hbare]
    exact trivial
  · have hinner := hupdated hfbuilt (by simpa using hleaf)
    have hsize := hinner.nodeSize
    refine ⟨Node.within_iff.mpr (.inr ⟨hinner, .inr ?_, ?_⟩), trivial⟩
    · rw [if_neg hleaf]
      simp only [Fragment.size]
      omega
    · rw [hbare]
      exact trivial

theorem markNode_valid {marks : List Mark → List Mark} (hdoc : doc.valid S = true) (hbuilt : doc.Built S)
    (h : markNode S doc pos marks = .ok out) :
    out.valid S = true := by
  obtain ⟨found, updated, hfound, hupdated, h⟩ := markNode_ok h
  obtain ⟨attrs, -, hupdated⟩ := bind_ok hupdated
  obtain rfl := Except.ok.inj hupdated
  exact putNode_valid hdoc hbuilt hfound h rfl rfl fun hbuilt hleaf => ⟨rfl, (hbuilt.here.inside hleaf).2⟩

theorem setAttr_valid {name : String} {value : Value} (hdoc : doc.valid S = true) (hbuilt : doc.Built S)
    (h : setAttr S doc pos name value = .ok out) :
    out.valid S = true := by
  obtain ⟨found, updated, hfound, hupdated, h⟩ := setAttr_ok h
  obtain ⟨attrs, -, hupdated⟩ := bind_ok hupdated
  obtain rfl := Except.ok.inj hupdated
  exact putNode_valid hdoc hbuilt hfound h rfl rfl fun _ hleaf => ⟨rfl, hleaf⟩

/-! ### Marks over a range -/

/-- A slice of a document that has its marks changed goes back as a slice that keeps to the schema. -/
theorem remarked_proper {old : Slice} (hjoins : S.Joins) (hchange : Lawful S change) (hdoc : doc.valid S = true)
    (hbuilt : doc.Built S) (h : doc.slice lo hi = .ok old) (parent : Node) :
    Slice.Proper S ⟨mapFragment S old.content change parent, old.openStart, old.openEnd⟩ := by
  have hold := shaped_steady.slice hbuilt.content h
  have hmapped := mapNodes_built hchange.remarks parent hold
  exact slice_proper (fromArray_validOff hmapped
    (mapNodes_validOff hjoins hchange parent hold (slice_validOff hdoc hbuilt h))) (shaped_steady.fromArray hmapped)

/-! ### Steps -/

/-- What a step relies on to keep a document valid, kind by kind: off its open sides, what it puts in
    keeps to the schema, and for marks over a range no rule counts the pieces of a text. -/
def Step.Fair (S : Schema) (doc : Node) : Step → Prop
  | .replace _ _ slice _ => validOff S slice.openStart slice.openEnd slice.content = true
  | .replaceAround _ _ gapFrom gapTo slice insert _ => ∀ gap inserted, doc.slice gapFrom gapTo = .ok gap →
      slice.insertAt S insert gap.content = .ok (some inserted) →
      validOff S inserted.openStart inserted.openEnd inserted.content = true
  | .addMark _ _ _ | .removeMark _ _ _ => S.Joins
  | .addNodeMark _ _ | .removeNodeMark _ _ | .attr _ _ _ | .docAttr _ _ => True

/-- A step from JSON that is accepted leaves a valid document valid, where what it puts in keeps to the
    schema off its open sides. -/
theorem apply_valid (S : Schema) (doc : Node) (json : Value) (step : Step) (out : Node)
    (hdoc : doc.valid S = true) (hbuilt : doc.Built S) (hstep : Step.fromJson S json = .ok step)
    (hfair : step.Fair S doc) (h : step.apply S doc = .ok out) : out.valid S = true := by
  have hslice := stepFromJson_built hstep
  cases step with
  | replace lo hi slice structure_ =>
    obtain ⟨between, -, h⟩ := bind_ok h
    split_ifs at h
    · simp [failed] at h
    · exact replace_valid hdoc hbuilt (slice_proper hfair (hslice slice rfl)) h
  | replaceAround lo hi gapFrom gapTo slice insert structure_ =>
    obtain ⟨gap, inserted, -, hgap, -, -, hinserted, h⟩ := replaceAround_ok h
    obtain ⟨_, _, -, -, hin⟩ := insertAt_ok hinserted
    have hput := shaped_steady.insertInto (hslice slice rfl) (shaped_steady.slice hbuilt.content hgap) hin
    exact replace_valid hdoc hbuilt (slice_proper (hfair gap inserted hgap hinserted) hput) h
  | addMark lo hi mark =>
    obtain ⟨old, hold, h⟩ := bind_ok h
    obtain ⟨start, -, h⟩ := bind_ok h
    obtain ⟨depth, -, h⟩ := bind_ok h
    obtain ⟨parent, -, h⟩ := bind_ok h
    exact replace_valid hdoc hbuilt
      (remarked_proper hfair (markInline_lawful mark) hdoc hbuilt hold parent) h
  | removeMark lo hi mark =>
    obtain ⟨old, hold, h⟩ := bind_ok h
    exact replace_valid hdoc hbuilt
      (remarked_proper hfair (removeFromSet_lawful mark) hdoc hbuilt hold doc) h
  | addNodeMark pos mark => exact markNode_valid hdoc hbuilt h
  | removeNodeMark pos mark => exact markNode_valid hdoc hbuilt h
  | attr pos name value => exact setAttr_valid hdoc hbuilt h
  | docAttr name value =>
    obtain ⟨attrs, -, h⟩ := bind_ok h
    obtain rfl := Except.ok.inj h
    exact valid_iff.mpr ⟨(valid_iff.mp hdoc).1, (valid_iff.mp hdoc).2⟩

theorem apply_valid_removal : ∃ out,
    Step.apply page twoLines (.replace 1 3 ⟨[], 0, 0⟩ false) = .ok out ∧ out.valid page = true := by
  obtain ⟨out, hout, -⟩ := ok_of_toOption (x := Step.apply page twoLines (.replace 1 3 ⟨[], 0, 0⟩ false))
    (f := fun _ => ()) (b := ()) (by decide +kernel)
  have hbuilt : twoLines.Built page :=
    ⟨⟨nofun, fun _ => show 0 ≠ page.textNode ∧ page.isLeaf 0 = false by decide, nofun⟩, twoLines_built⟩
  exact ⟨out, hout, apply_valid page twoLines (removal 1 3 0) _ out (by decide) hbuilt
    (fromJson_removal (by decide) (by decide) (by decide)) rfl hout⟩

/-! ### Steps that break a rule -/

/-- The JSON of a step that puts a paragraph with a paragraph inside before a document. -/
def nesting : Value :=
  .object [("stepType", .string "replace"), ("from", Derive.writeNat 0), ("to", Derive.writeNat 0),
    ("slice", .object [("content", .array [.object [("type", .string "paragraph"),
      ("content", .array [.object [("type", .string "paragraph")]])]])])]

theorem fromJson_nesting : Step.fromJson page nesting =
    .ok (.replace 0 0 ⟨[paragraph [paragraph []]], 0, 0⟩ false) := by
  simp [Step.fromJson, nesting, Value.at, Value.field, asStr, numberOf, List.lookup,
    Derive.readNat_write (show 0 < 2 ^ 64 by decide), Lib.require, Slice.fromJson, openFromJson,
    Fragment.fromJson, Fragment.readWith, Derive.readBool]
  rfl

/-- A paragraph of two texts. -/
def pairs : Schema where
  nodes := page.nodes
  marks := page.marks
  matchStates := [⟨true, []⟩, ⟨false, [(1, 2)]⟩, ⟨true, [(1, 2)]⟩, ⟨false, [(2, 4)]⟩, ⟨false, [(2, 5)]⟩,
    ⟨true, []⟩]
  text := 2
  hasText := by decide
  hasEmpty := rfl

/-- A text in two parts, the second of them strong. -/
def twoParts : Node :=
  pageOf [paragraph [words "a", (words "b").withMarks [⟨0, []⟩]]]

/-- The JSON of a step that makes all of `twoParts` strong. -/
def strengthen : Value :=
  .object [("stepType", .string "addMark"), ("from", Derive.writeNat 0), ("to", Derive.writeNat 4),
    ("mark", .object [("type", .string "strong")])]

theorem fromJson_strengthen : Step.fromJson pairs strengthen = .ok (.addMark 0 4 ⟨0, []⟩) := by
  simp [Step.fromJson, strengthen, Value.at, Value.field, asStr, numberOf, List.lookup,
    Derive.readNat_write (show 0 < 2 ^ 64 by decide), Derive.readNat_write (show 4 < 2 ^ 64 by decide),
    Lib.require]
  rfl

/-- Nodes inside a slice are not checked, and a mark over a whole paragraph joins its texts unchecked. -/
theorem steps_break_rules :
    (twoLines.valid page = true ∧
      Step.fromJson page nesting = .ok (.replace 0 0 ⟨[paragraph [paragraph []]], 0, 0⟩ false) ∧
      ∃ out, Step.apply page twoLines (.replace 0 0 ⟨[paragraph [paragraph []]], 0, 0⟩ false) = .ok out ∧
        out.valid page = false) ∧
    twoParts.valid pairs = true ∧ Step.fromJson pairs strengthen = .ok (.addMark 0 4 ⟨0, []⟩) ∧
      ∃ out, Step.apply pairs twoParts (.addMark 0 4 ⟨0, []⟩) = .ok out ∧ out.valid pairs = false :=
  ⟨⟨by decide +kernel, fromJson_nesting, ok_of_toOption (by decide +kernel)⟩,
    by decide +kernel, fromJson_strengthen, ok_of_toOption (by decide +kernel)⟩

end Kodosi.Text
