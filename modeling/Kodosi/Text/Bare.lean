import Kodosi.Text.Openers
import Kodosi.Text.Total

/-! Steps that change only marks and attributes: the tokens of a document, but for these, stay as they are. -/

namespace Kodosi.Text

open Lib Documents

variable {S : Schema} {lo hi pos n : Nat} {doc out node parent found : Node} {nodes : List Node} {slice : Slice}
  {change : Node → Node → Node}

/-- A token without its attributes and marks. -/
def Token.bare : Token → Token
  | .opening kind _ _ => .opening kind [] []
  | .closing => .closing
  | .leaf kind _ _ => .leaf kind [] []
  | .unit value _ => .unit value []

/-- Tokens without their attributes and marks. -/
def bare (ts : List Token) : List Token := ts.map Token.bare

@[simp] theorem bare_cons (t : Token) (ts : List Token) : bare (t :: ts) = t.bare :: bare ts := rfl

@[simp] theorem bare_append (ts us : List Token) : bare (ts ++ us) = bare ts ++ bare us := List.map_append

theorem bare_take (ts : List Token) (n : Nat) : bare (ts.take n) = (bare ts).take n := List.map_take

theorem bare_drop (ts : List Token) (n : Nat) : bare (ts.drop n) = (bare ts).drop n := List.map_drop

theorem length_bare (ts : List Token) : (bare ts).length = ts.length := List.length_map _

theorem bare_units (units : List UInt16) (marks old : List Mark) :
    bare (units.map fun value => .unit value marks) = bare (units.map fun value => .unit value old) := by
  simp only [bare, List.map_map]
  rfl

/-! ### Mapping marks -/

theorem Node.withMarks_bare (node : Node) (marks : List Mark) : bare (node.withMarks marks).tokens = bare node.tokens := by
  cases node with
  | mk kind attrs content old text leaf =>
    cases text with
    | some units => exact bare_units units marks old
    | none => cases leaf <;> rfl

theorem Node.copy_bare (node : Node) {content : Fragment} (h : bare (Text.tokens content) = bare (Text.tokens node.content)) :
    bare (node.copy content).tokens = bare node.tokens := by
  cases node with
  | mk kind attrs old marks text leaf =>
    cases text with
    | some units => rfl
    | none =>
      cases leaf with
      | true => rfl
      | false =>
        have hinner : (Node.mk kind attrs old marks none false).Inner := ⟨rfl, rfl⟩
        rw [hinner.copy_tokens, hinner.tokens, bare_cons, bare_cons, bare_append, bare_append, h]

theorem Node.HoldsText.withMarks (h : node.HoldsText S) (marks : List Mark) : (node.withMarks marks).HoldsText S := by
  cases node
  exact h

mutual

theorem mapNode_bare {child : Node} (h : Remarks change) (parent : Node) (hchild : child.HoldsText S) :
    bare (mapNode S change parent child).tokens = bare child.tokens ∧ (mapNode S change parent child).HoldsText S := by
  obtain ⟨marks, hmapped⟩ := mapNode_remarked (S := S) h parent child
  rw [hmapped, Node.withMarks_bare]
  cases child with
  | mk kind attrs content old text leaf =>
    have hcontent : bare (tokens (mappedContent S change (.mk kind attrs content old text leaf))) = bare (tokens content) ∧
        HoldsText S (mappedContent S change (.mk kind attrs content old text leaf)) := by
      unfold mappedContent
      split
      · obtain ⟨hbare, hholds⟩ := mapNodes_bare h (.mk kind attrs content old text leaf) hchild.2
        obtain ⟨htokens, hholds⟩ := fromArray_tokens hholds
        exact ⟨(congrArg bare htokens).trans hbare, hholds⟩
      · exact ⟨rfl, hchild.2⟩
    exact ⟨Node.copy_bare _ hcontent.1, (hchild.copy hcontent.2).withMarks marks⟩

theorem mapNodes_bare {nodes : List Node} (h : Remarks change) (parent : Node) (hnodes : HoldsText S nodes) :
    bare (tokens (mapNodes S change parent nodes)) = bare (tokens nodes) ∧
      HoldsText S (mapNodes S change parent nodes) := by
  cases nodes with
  | nil => exact ⟨rfl, trivial⟩
  | cons child rest =>
    obtain ⟨hbare, hholds⟩ := mapNode_bare h parent hnodes.1
    obtain ⟨hbares, hrest⟩ := mapNodes_bare h parent hnodes.2
    refine ⟨?_, hholds, hrest⟩
    rw [mapNodes, tokens_cons, tokens_cons, bare_append, bare_append, hbare, hbares]

end

/-- Changing marks in a fragment leaves its tokens but for the marks. -/
theorem mapFragment_bare (h : Remarks change) (parent : Node) (hnodes : HoldsText S nodes) :
    bare (tokens (mapFragment S nodes change parent)) = bare (tokens nodes) ∧
      HoldsText S (mapFragment S nodes change parent) := by
  obtain ⟨hbare, hholds⟩ := mapNodes_bare h parent hnodes
  obtain ⟨htokens, hholds⟩ := fromArray_tokens hholds
  exact ⟨(congrArg bare htokens).trans hbare, hholds⟩

/-! ### Replacing -/

/-- What a replacement gives: the tokens before the range, those of the slice without its open sides, and those from the
    end of the range on. -/
theorem replace_tokens (hdoc : HoldsText S doc.content) (hslice : HoldsText S slice.content) (hsided : slice.Sided)
    (h : doc.replace S lo hi slice = .ok out) :
    (lo ≤ Fragment.size doc.content ∧ hi ≤ Fragment.size doc.content) ∧
      tokens out.content = (tokens doc.content).take lo ++ slice.inside ++ (tokens doc.content).drop hi ∧
      HoldsText S out.content := by
  obtain ⟨fro, to_, hfro, hto, hdeep, -, hdepths, h⟩ := replace_ok h
  have hf := resolve_stand hfro
  have ht := resolve_stand hto
  exact ⟨⟨hf.le_size, ht.le_size⟩,
    (replaceOuter_tokens hf hdoc hf ht hdoc hslice hsided hdepths (by omega) h).2⟩

theorem take_range_drop {α : Type} (ts : List α) (hle : lo ≤ hi) : ts.take lo ++ (ts.take hi).drop lo ++ ts.drop hi = ts := by
  have htake : ts.take lo = (ts.take hi).take lo := by rw [List.take_take, Nat.min_eq_left hle]
  rw [htake, List.take_append_drop, List.take_append_drop]

/-! ### Marks over a range -/

/-- A slice of a document that goes back with other marks leaves the tokens but for the marks. -/
theorem remarked_bare (hchange : Remarks change) (hdoc : HoldsText S doc.content) (hle : lo ≤ hi)
    (h : doc.slice lo hi = .ok slice) (parent : Node)
    (hout : doc.replace S lo hi ⟨mapFragment S slice.content change parent, slice.openStart, slice.openEnd⟩ = .ok out) :
    bare (tokens out.content) = bare (tokens doc.content) ∧ HoldsText S out.content := by
  obtain ⟨opened, hopened, htokens, hholds⟩ := slice_tokens hdoc hle h
  obtain ⟨hbare, hmapped⟩ := mapFragment_bare hchange parent hholds
  have hcloses : Closes slice.openEnd slice.content := by
    by_cases hlt : lo < hi
    · exact (slice_whole h hlt).2
    · unfold Node.slice at h
      rw [if_pos (by omega)] at h
      obtain rfl := Except.ok.inj h
      trivial
  obtain ⟨-, hspliced, hholds'⟩ := replace_tokens hdoc hmapped (.inl (mapFragment_closes hchange hcloses parent)) hout
  have hlength : Fragment.size (mapFragment S slice.content change parent) = Fragment.size slice.content := by
    rw [← length_tokens, ← length_tokens, ← length_bare, hbare, length_bare]
  have hsize := congrArg List.length htokens
  rw [length_tokens, List.length_append, List.length_append, List.length_replicate, hopened] at hsize
  have hinside : bare (Slice.inside ⟨mapFragment S slice.content change parent, slice.openStart, slice.openEnd⟩) =
      bare (((tokens doc.content).take hi).drop lo) := by
    rw [Slice.inside, bare_drop, bare_take, hbare, ← bare_take, ← bare_drop, hlength, htokens, hsize, Nat.add_sub_cancel,
      List.take_left' (by rw [List.length_append, hopened]), ← hopened, List.drop_left]
  refine ⟨?_, hholds'⟩
  rw [hspliced, bare_append, bare_append, hinside, ← bare_append, ← bare_append, take_range_drop _ hle]

theorem addMark_bare {mark : Mark} (hdoc : HoldsText S doc.content) (hle : lo ≤ hi)
    (h : addMark S doc lo hi mark = .ok out) :
    bare (tokens out.content) = bare (tokens doc.content) ∧ HoldsText S out.content := by
  obtain ⟨old, hold, h⟩ := bind_ok h
  obtain ⟨start, -, h⟩ := bind_ok h
  obtain ⟨depth, -, h⟩ := bind_ok h
  obtain ⟨parent, -, h⟩ := bind_ok h
  exact remarked_bare (markInline_remarks mark) hdoc hle hold parent h

theorem removeMark_bare {mark : Mark} (hdoc : HoldsText S doc.content) (hle : lo ≤ hi)
    (h : removeMark S doc lo hi mark = .ok out) :
    bare (tokens out.content) = bare (tokens doc.content) ∧ HoldsText S out.content := by
  obtain ⟨old, hold, h⟩ := bind_ok h
  exact remarked_bare (fun _ _ => ⟨_, rfl⟩) hdoc hle hold doc h

/-! ### One node -/

theorem tokens_ne_nil (htext : node.isText = false) : node.tokens ≠ [] := by
  cases node with
  | mk kind attrs content marks text leaf =>
    cases text with
    | some units => cases htext
    | none => cases leaf <;> exact List.cons_ne_nil _ _

/-- The node at a position that is no text stands there with its first token. -/
theorem nodeAt_token (h : doc.nodeAt pos = .ok (some found)) (htext : found.isText = false) :
    (tokens doc.content)[pos]? = found.tokens.head? := by
  induction pos using Nat.strong_induction_on generalizing doc with
  | _ pos ih =>
  unfold Node.nodeAt at h
  obtain ⟨⟨i, o⟩, hfind, h⟩ := bind_ok h
  have hfound := findIndex_found hfind
  dsimp only at h
  split at h
  · cases Except.ok.inj h
  next child hchild =>
    have hfirst : ∀ {before after : List Node}, doc.content = before ++ child :: after → child.isText = false →
        (tokens doc.content)[Fragment.size before]? = child.tokens.head? := by
      intro before after hsplit htext
      rw [hsplit, tokens_append, tokens_cons, ← length_tokens before, List.getElem?_append_right le_rfl, Nat.sub_self]
      rw [List.getElem?_append_left (List.length_pos_iff.mpr (tokens_ne_nil htext)), List.head?_eq_getElem?]
    split_ifs at h with hplace hlt
    · obtain rfl := Option.some.inj (Except.ok.inj h)
      cases hfound with
      | @seam before after hsplit hpos =>
        have hafter : after.head? = some child := by
          have hget := hchild
          rw [Node.maybeChild, hsplit, List.getElem?_append_right le_rfl, Nat.sub_self] at hget
          rw [List.head?_eq_getElem?, hget]
        obtain ⟨rest, rfl⟩ := List.head?_eq_some_iff.mp hafter
        rw [hpos]
        exact hfirst hsplit htext
      | @inside before inner after hsplit hlo hhi =>
        obtain rfl : inner = child := by
          have hget := hchild
          rw [Node.maybeChild, hsplit, List.getElem?_append_right le_rfl, Nat.sub_self] at hget
          exact Option.some.inj hget
        rcases hplace with h | h
        · omega
        · rw [htext] at h
          cases h
    · cases hfound with
      | seam hsplit hpos => omega
      | @inside before inner after hsplit hlo hhi =>
        obtain rfl : inner = child := by
          have hget := hchild
          rw [Node.maybeChild, hsplit, List.getElem?_append_right le_rfl, Nat.sub_self] at hget
          exact Option.some.inj hget
        have hinner : inner.Inner := by
          refine inner_of_inside ?_ (Nat.sub_pos_of_lt hlo) (by omega)
          simpa using fun h => hplace (.inr h)
        have hsize := hinner.nodeSize
        have hget := ih _ (by omega) h
        have hlt' : pos - (Fragment.size before + 1) < (tokens inner.content).length := by
          by_contra hge
          rw [List.getElem?_eq_none (by omega)] at hget
          exact tokens_ne_nil htext (List.head?_eq_none_iff.mp hget.symm)
        have hpos : pos = (tokens before).length + (pos - (Fragment.size before + 1) + 1) := by
          rw [length_tokens]
          omega
        rw [← hget, hsplit, tokens_append, tokens_cons, hinner.tokens, hpos, List.getElem?_append_right (Nat.le_add_right ..),
          Nat.add_sub_cancel_left, List.cons_append, List.getElem?_cons_succ, List.append_assoc,
          List.getElem?_append_left (by omega), ← hpos]
    · simp [panics] at h

mutual

theorem Node.holdsText_everywhere {node : Node} (h : node.HoldsText S) :
    node.Everywhere fun node => node.isText = true ↔ node.kind = S.textNode := by
  cases node with
  | mk kind attrs content marks text leaf => exact ⟨h.1, holdsText_everywhere h.2⟩

theorem holdsText_everywhere {nodes : List Node} (h : HoldsText S nodes) :
    Everywhere (fun node => node.isText = true ↔ node.kind = S.textNode) nodes := by
  cases nodes with
  | nil => exact trivial
  | cons node rest => exact ⟨Node.holdsText_everywhere h.1, holdsText_everywhere h.2⟩

end

/-- A changed node in the place of the one at a position leaves the tokens but for its own. -/
theorem putNode_bare {node updated : Node} (hdoc : HoldsText S doc.content) (hnode : doc.nodeAt pos = .ok (some node))
    (htext : node.isText = false) (hkind : updated.kind = node.kind)
    (hunits : updated.units = none) (hcontent : updated.content = []) (hleaf : updated.isLeaf = node.isLeaf)
    (h : putNode S doc pos node updated = .ok out) :
    bare (tokens out.content) = bare (tokens doc.content) ∧ HoldsText S out.content := by
  obtain ⟨next, hnext, h⟩ := bind_ok h
  obtain ⟨-, rfl⟩ := add64_ok.mp hnext
  have hhere := (nodeAt_everywhere (holdsText_everywhere hdoc) hnode).1.here
  have hupdated : updated.HoldsText S := by
    refine Node.holdsText_iff.mpr ⟨?_, hcontent ▸ holdsText_nil⟩
    rw [hkind, ← hhere, htext]
    simp [Node.isText, hunits]
  -- the slice puts in one token
  have hone : ∃ t t' : Token, node.tokens.head? = some t ∧ t'.bare = t.bare ∧
      Closes (if node.isLeaf then 0 else 1) [updated] ∧
      Slice.inside ⟨[updated], 0, if node.isLeaf then 0 else 1⟩ = [t'] := by
    have hnunits : node.units = none := by simpa [Node.isText] using htext
    cases node with
    | mk kind attrs content marks text leaf =>
      cases updated with
      | mk kind' attrs' content' marks' text' leaf' =>
        cases hnunits
        cases hunits
        cases hcontent
        cases hleaf
        cases hkind
        cases leaf with
        | true => exact ⟨_, .leaf kind attrs' marks', rfl, rfl, trivial, rfl⟩
        | false => exact ⟨_, .opening kind attrs' marks', rfl, rfl, ⟨⟨rfl, rfl⟩, trivial⟩, rfl⟩
  obtain ⟨t, t', hhead, hsame, hcloses, hinside⟩ := hone
  obtain ⟨⟨-, hsize⟩, hspliced, hholds'⟩ := replace_tokens hdoc
    (show HoldsText S [updated] from ⟨hupdated, trivial⟩) (.inl hcloses) h
  have hget := (nodeAt_token hnode htext).trans hhead
  obtain ⟨hlt, hget⟩ := List.getElem?_eq_some_iff.mp hget
  refine ⟨?_, hholds'⟩
  have hdrop := List.drop_eq_getElem_cons hlt
  rw [hget] at hdrop
  calc bare (tokens out.content) = bare ((tokens doc.content).take pos) ++ t'.bare :: bare ((tokens doc.content).drop (pos + 1)) := by
        rw [hspliced, hinside]
        simp
    _ = bare ((tokens doc.content).take pos ++ (tokens doc.content).drop pos) := by
        rw [hdrop, hsame]
        simp
    _ = bare (tokens doc.content) := by rw [List.take_append_drop]

/-- A node that is taken for one is no text. -/
def NodeThere (doc : Node) (pos : Nat) : Prop := ∀ node, doc.nodeAt pos = .ok (some node) → node.isText = false

theorem setAttr_bare {name : String} {value : Value} (hdoc : HoldsText S doc.content) (hthere : NodeThere doc pos)
    (h : setAttr S doc pos name value = .ok out) :
    bare (tokens out.content) = bare (tokens doc.content) ∧ HoldsText S out.content := by
  obtain ⟨node, updated, hfound, hupdated, h⟩ := setAttr_ok h
  obtain ⟨attrs, -, hupdated⟩ := bind_ok hupdated
  obtain rfl := Except.ok.inj hupdated
  refine putNode_bare hdoc hfound (hthere node hfound) ?_ ?_ ?_ ?_ h
  all_goals rfl

/-! ### Leaves -/

/-- A token of a leaf where the type has no inside, and of an opening where it has one. -/
def Token.Typed (S : Schema) : Token → Prop
  | .opening kind _ _ => S.isLeaf kind = false
  | .leaf kind _ _ => S.isLeaf kind = true
  | .closing | .unit _ _ => True

def Typed (S : Schema) (ts : List Token) : Prop := ∀ t ∈ ts, t.Typed S

theorem Token.typed_bare (t : Token) : t.bare.Typed S ↔ t.Typed S := by
  cases t <;> exact Iff.rfl

theorem typed_congr {ts us : List Token} (h : bare ts = bare us) : Typed S ts ↔ Typed S us := by
  have hbare : ∀ ts : List Token, Typed S ts ↔ Typed S (bare ts) := fun ts => by
    simp [Typed, bare, Token.typed_bare]
  rw [hbare ts, hbare us, h]

theorem typed_append {ts us : List Token} : Typed S (ts ++ us) ↔ Typed S ts ∧ Typed S us := by
  simp [Typed, or_imp, forall_and]

theorem Typed.take {ts : List Token} (h : Typed S ts) (n : Nat) : Typed S (ts.take n) :=
  fun t ht => h t (List.mem_of_mem_take ht)

theorem Typed.drop {ts : List Token} (h : Typed S ts) (n : Nat) : Typed S (ts.drop n) :=
  fun t ht => h t (List.mem_of_mem_drop ht)

mutual

theorem Node.typed_of_built {node : Node} (h : node.Built S) : Typed S node.tokens := by
  cases node with
  | mk kind attrs content marks text leaf =>
    cases text with
    | some units =>
      intro t ht
      obtain ⟨value, -, rfl⟩ := List.mem_map.mp ht
      trivial
    | none =>
      cases leaf with
      | true =>
        intro t ht
        obtain rfl := List.mem_singleton.mp ht
        exact h.here.leaf rfl rfl
      | false =>
        have hinner : (Node.mk kind attrs content marks none false).Inner := ⟨rfl, rfl⟩
        have hcontent := typed_of_built h.content
        rw [hinner.tokens]
        rintro t (_ | ⟨_, ht⟩)
        · exact (h.here.inside rfl).2
        · rcases List.mem_append.mp ht with ht | ht
          · exact hcontent t ht
          · obtain rfl := List.mem_singleton.mp ht
            trivial

theorem typed_of_built {nodes : List Node} (h : Built S nodes) : Typed S (tokens nodes) := by
  cases nodes with
  | nil => exact fun t ht => absurd ht List.not_mem_nil
  | cons node rest => exact typed_append.mpr ⟨Node.typed_of_built h.1, typed_of_built h.2⟩

end

theorem markNode_bare {marks : List Mark → List Mark} (hdoc : HoldsText S doc.content)
    (htyped : Typed S (tokens doc.content)) (hthere : NodeThere doc pos) (h : markNode S doc pos marks = .ok out) :
    bare (tokens out.content) = bare (tokens doc.content) ∧ HoldsText S out.content := by
  obtain ⟨node, updated, hfound, hupdated, h⟩ := markNode_ok h
  obtain ⟨attrs, -, hupdated⟩ := bind_ok hupdated
  obtain rfl := Except.ok.inj hupdated
  have htext := hthere node hfound
  have hleaf : S.isLeaf node.kind = node.isLeaf := by
    have hget := nodeAt_token hfound htext
    have htokens : ∀ t, node.tokens.head? = some t → t.Typed S := fun t ht =>
      htyped t (List.mem_of_getElem? (hget.trans ht))
    cases node with
    | mk kind attrs content marks text leaf =>
      cases text with
      | some units => cases htext
      | none => cases leaf <;> exact htokens _ rfl
  refine putNode_bare hdoc hfound htext ?_ ?_ ?_ ?_ h
  · rfl
  · rfl
  · rfl
  · exact hleaf

end Kodosi.Text
