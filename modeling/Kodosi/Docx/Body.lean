import Kodosi.Docx.Write

/-! The body of a document in its text: what stands between the first child and the last section. -/

namespace Kodosi.Docx

variable {xml : String} {body : Xml} {children before behind : List Xml} {lo mid hi : Nat}

/-! ### Positions -/

@[simp] theorem toList_slice (text : String) (lo hi : Nat) :
    (slice text lo hi).toList = (text.toList.take hi).drop lo := by simp [slice]

theorem rfind_le {pattern text : List Char} {i : Nat} (h : rfind pattern text = some i) : i ≤ text.length := by
  induction text generalizing i with
  | nil =>
    unfold rfind at h
    split_ifs at h
    cases Option.some.inj h
    exact le_refl 0
  | cons c rest ih =>
    unfold rfind at h
    rw [List.length_cons]
    split at h
    next j hj =>
      obtain rfl := Option.some.inj h
      have := ih hj
      omega
    next =>
      split_ifs at h
      cases Option.some.inj h
      omega

theorem rfind_none {c : Char} {pattern text : List Char} (h : c ∉ text) : rfind (c :: pattern) text = none := by
  induction text with
  | nil => rfl
  | cons d rest ih =>
    obtain ⟨hd, hrest⟩ := not_or.mp fun hmem => h (List.mem_cons.mpr hmem)
    rw [rfind, ih hrest, List.isPrefixOf_cons_cons]
    simp [hd]

/-- A pattern whose first letter does not come again starts for the last time where it stands last. -/
theorem rfind_last {c : Char} {pattern rest : List Char} (hpattern : c ∉ pattern) (hrest : c ∉ rest)
    (front : List Char) : rfind (c :: pattern) (front ++ c :: (pattern ++ rest)) = some front.length := by
  have hnone : rfind (c :: pattern) (pattern ++ rest) = none :=
    rfind_none fun h => (List.mem_append.mp h).elim hpattern hrest
  induction front with
  | nil =>
    rw [List.nil_append, rfind, hnone]
    simp
  | cons d front ih => rw [List.cons_append, rfind, ih, List.length_cons]

/-! ### Children in a row -/

/-- The nodes stand in a row from one position to another, each with a source of its own. -/
def InRow (lo : Nat) : List Xml → Nat → Prop
  | [], hi => lo = hi
  | node :: rest, hi => node.start = lo ∧ lo < node.stop ∧ InRow node.stop rest hi

instance decideInRow : (lo : Nat) → (children : List Xml) → (hi : Nat) → Decidable (InRow lo children hi)
  | lo, [], hi => inferInstanceAs (Decidable (lo = hi))
  | _, node :: rest, hi =>
    @instDecidableAnd _ _ inferInstance (@instDecidableAnd _ _ inferInstance (decideInRow node.stop rest hi))

theorem InRow.le (h : InRow lo children hi) : lo ≤ hi := by
  induction children generalizing lo with
  | nil => exact h.le
  | cons node rest ih =>
    have := ih h.2.2
    have := h.2.1
    omega

theorem InRow.split (h : InRow lo (before ++ behind) hi) : ∃ mid, InRow lo before mid ∧ InRow mid behind hi := by
  induction before generalizing lo with
  | nil => exact ⟨lo, rfl, h⟩
  | cons node rest ih =>
    obtain ⟨mid, hrest, hbehind⟩ := ih h.2.2
    exact ⟨mid, ⟨h.1, h.2.1, hrest⟩, hbehind⟩

/-- The sources of nodes in a row, one behind the other, are the text they stand in. -/
theorem InRow.sources (h : InRow lo children hi) (hhi : hi ≤ xml.toList.length) :
    children.flatMap (fun node => (node.source xml).toList) = (xml.toList.take hi).drop lo := by
  induction children generalizing lo with
  | nil =>
    obtain rfl := h
    simp
  | cons node rest ih =>
    obtain ⟨hstart, hlt, hrest⟩ := h
    have hle := hrest.le
    rw [List.flatMap_cons, ih hrest, Xml.source, toList_slice, hstart]
    have htake : xml.toList.take node.stop = (xml.toList.take hi).take node.stop := by
      rw [List.take_take, min_eq_left hle]
    have hdrop : ((xml.toList.take hi).take node.stop).length = node.stop := by
      rw [List.length_take, List.length_take]
      omega
    conv_rhs => rw [← List.take_append_drop node.stop (xml.toList.take hi)]
    rw [List.drop_append_of_le_length (by omega), htake]

/-! ### The last section -/

def isSection (node : Xml) : Bool := node.isWord "sectPr"

/-- The children before the last section, which are all of them where there is none. -/
def beforeSection : List Xml → List Xml
  | [] => []
  | node :: rest =>
    if rest.any isSection || !isSection node then node :: beforeSection rest else []

/-- The children behind the last section. -/
def behindSection : List Xml → List Xml
  | [] => []
  | node :: rest => if rest.any isSection || !isSection node then behindSection rest else rest

/-- The last section stands between the children before it and those behind it. -/
theorem section_split (children : List Xml) :
    (children.any isSection = false ∧ beforeSection children = children ∧ behindSection children = []) ∨
      ∃ last, isSection last = true ∧
        children = beforeSection children ++ last :: behindSection children ∧
        (children.reverse.find? fun child => child.isWord "sectPr") = some last := by
  induction children with
  | nil => exact .inl ⟨rfl, rfl, rfl⟩
  | cons node rest ih =>
    rcases ih with ⟨hnone, hbefore, hbehind⟩ | ⟨last, hlast, hsplit, hfind⟩
    · by_cases hnode : isSection node = true
      · refine .inr ⟨node, hnode, ?_, ?_⟩
        · simp [beforeSection, behindSection, hnone, hnode]
        · have hrest : (rest.reverse.find? fun child => child.isWord "sectPr") = none := by
            rw [List.find?_eq_none]
            intro child hchild
            have := List.any_eq_false.mp hnone child (List.mem_reverse.mp hchild)
            simpa [isSection] using this
          rw [List.reverse_cons, List.find?_append, hrest, Option.none_or]
          exact List.find?_cons_of_pos hnode
      · refine .inl ⟨?_, ?_, ?_⟩
        · simp [hnone, hnode]
        · simp [beforeSection, hnone, hnode, hbefore]
        · simp [behindSection, hnone, hnode, hbehind]
    · have hany : rest.any isSection = true := by
        rw [hsplit]
        simp [hlast]
      refine .inr ⟨last, hlast, ?_, ?_⟩
      · rw [beforeSection, behindSection, hany]
        exact congrArg (node :: ·) hsplit
      · rw [List.reverse_cons, List.find?_append, hfind, Option.some_or]

/-- The blocks of a body are those before the last section and those behind it. -/
theorem blocks_split (children : List Xml) :
    children.filter isBlock = (beforeSection children).filter isBlock ++ (behindSection children).filter isBlock := by
  rcases section_split children with ⟨-, hbefore, hbehind⟩ | ⟨last, hlast, hsplit, -⟩
  · rw [hbefore, hbehind, List.filter_nil, List.append_nil]
  · have hnot : isBlock last = false := by
      rw [isBlock, show last.isWord "sectPr" = true from hlast, Bool.not_true, Bool.and_false]
    conv_lhs => rw [hsplit]
    rw [List.filter_append, List.filter_cons_of_neg (by simp [hnot])]

/-! ### What the parser promises -/

/-- The XML of a paragraph with nothing in it. -/
def EMPTY : String := "<w:p></w:p>"

/-- Neither of two texts starts with the other. -/
def Apart (a b : String) : Prop := ¬a.toList <+: b.toList ∧ ¬b.toList <+: a.toList

instance (a b : String) : Decidable (Apart a b) := inferInstanceAs (Decidable (_ ∧ _))

/-- The ranges of a body and of its children are exact: they stand in the text, the children in a row up to
    the tag that closes the body, and no text is the start both of a block and of something else. -/
structure Exact (xml : String) (body : Xml) : Prop where
  inside : body.start ≤ body.stop ∧ body.stop ≤ xml.toList.length
  row : body.children ≠ [] → ∃ lo hi, body.start ≤ lo ∧ InRow lo body.children hi ∧
    ∃ name, '<' ∉ name ∧ (slice xml hi body.stop).toList = '<' :: '/' :: name
  apart : ∀ block ∈ body.children, ∀ other ∈ body.children, isBlock block = true →
    isBlock other = false → Apart (block.source xml) (other.source xml)
  apartEmpty : ∀ other ∈ body.children, isBlock other = false → Apart EMPTY (other.source xml)

/-- A body of blocks: it has children, each one before the last section is a block, and there is no block
    behind it. -/
def OnlyBlocks (body : Xml) : Prop :=
  beforeSection body.children ≠ [] ∧ (∀ child ∈ beforeSection body.children, isBlock child = true) ∧
    ∀ child ∈ behindSection body.children, isBlock child = false

instance (body : Xml) : Decidable (OnlyBlocks body) :=
  inferInstanceAs (Decidable (_ ∧ _ ∧ _))

end Kodosi.Docx
