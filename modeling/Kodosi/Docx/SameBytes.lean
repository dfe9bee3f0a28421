import Kodosi.Docx.Body

/-! When saving a .docx file that nobody edited gives the same bytes, and what an edit changes in it. -/

namespace Kodosi.Docx

open Documents Text Lib

variable {xml : String} {body : Xml} {children before more : List Xml} {lo hi : Nat} {main : MainPart}

/-! ### The text between the first child and the last section -/

theorem blocks_end (h : Exact xml body) (hne : body.children ≠ []) :
    InRow (blocksStart body) (beforeSection body.children) (blocksEnd xml body) ∧
      blocksEnd xml body ≤ xml.toList.length := by
  obtain ⟨lo, hi, hlo, hrow, name, hname, hclose⟩ := h.row hne
  obtain ⟨hle, hlen⟩ := h.inside
  have hstart : blocksStart body = lo := by
    unfold blocksStart
    cases hchildren : body.children with
    | nil => exact absurd hchildren hne
    | cons first rest =>
      rw [hchildren] at hrow
      exact hrow.1
  have hclosing := congrArg List.length hclose
  rw [toList_slice, List.length_drop, List.length_take, List.length_cons] at hclosing
  rw [hstart]
  rcases section_split body.children with ⟨hnone, hbefore, -⟩ | ⟨last, -, hsplit, hfind⟩
  · have hfind : (body.children.reverse.find? fun child => child.isWord "sectPr") = none := by
      rw [List.find?_eq_none]
      intro child hchild
      have := List.any_eq_false.mp hnone child (List.mem_reverse.mp hchild)
      simpa [isSection] using this
    have hrowle := hrow.le
    have htail : (slice xml body.start body.stop).toList =
        (xml.toList.take hi).drop body.start ++ '<' :: (['/'] ++ name) := by
      rw [toList_slice] at hclose ⊢
      have htake : (xml.toList.take body.stop).take hi = xml.toList.take hi := by
        rw [List.take_take, min_eq_left (by omega)]
      conv_lhs => rw [← List.take_append_drop hi (xml.toList.take body.stop)]
      rw [htake, List.drop_append_of_le_length (by rw [List.length_take]; omega), hclose]
      rfl
    have hend : blocksEnd xml body = hi := by
      unfold blocksEnd
      rw [hfind]
      dsimp only
      rw [htail, rfind_last (by decide) hname, Option.getD_some, List.length_drop, List.length_take]
      omega
    rw [hend, hbefore]
    exact ⟨hrow, by omega⟩
  · rw [hsplit] at hrow
    obtain ⟨mid, hbefore, hbehind⟩ := hrow.split
    have hend : blocksEnd xml body = mid := by
      unfold blocksEnd
      rw [hfind]
      exact hbehind.1
    have := hbehind.le
    rw [hend]
    exact ⟨hbefore, by omega⟩

/-- Where a body has children, new blocks give the same text when they are what stands there. -/
theorem newXml_same (h : Exact main.xml main.body) (hne : main.body.children ≠ []) (blocks : String) :
    newXml main blocks = main.xml ↔
      blocks.toList = (beforeSection main.body.children).flatMap fun node =>
        (node.source main.xml).toList := by
  obtain ⟨hrow, hend⟩ := blocks_end h hne
  have hle := hrow.le
  have hwhole : main.xml.toList = main.xml.toList.take (blocksStart main.body) ++
      ((main.xml.toList.take (blocksEnd main.xml main.body)).drop (blocksStart main.body) ++
        main.xml.toList.drop (blocksEnd main.xml main.body)) := by
    conv_lhs => rw [← List.take_append_drop (blocksEnd main.xml main.body) main.xml.toList]
    conv_lhs => rw [← List.take_append_drop (blocksStart main.body)
      (main.xml.toList.take (blocksEnd main.xml main.body))]
    rw [List.take_take, min_eq_left hle, List.append_assoc]
  rw [hrow.sources hend, ← String.toList_inj, newXml, String.toList_append, String.toList_append,
    toList_slice, toList_slice, List.drop_zero, List.take_length, List.append_assoc]
  conv_lhs => rhs; rw [hwhole]
  rw [List.append_cancel_left_eq, List.append_cancel_right_eq]

/-- Where it has none, no block leaves the text as it is. -/
theorem newXml_longer (h : Exact main.xml main.body) (hnone : main.body.children = []) {blocks : String}
    (hblocks : blocks ≠ "") : newXml main blocks ≠ main.xml := by
  intro hsame
  have hlength := congrArg (fun text => text.toList.length) hsame
  obtain ⟨hle, hlen⟩ := h.inside
  have hstart : blocksStart main.body = main.body.stop := by
    unfold blocksStart
    rw [hnone]
    rfl
  have hend : blocksEnd main.xml main.body ≤ main.body.stop := by
    unfold blocksEnd
    rw [hnone]
    dsimp only [List.reverse_nil, List.find?_nil]
    have htail : (slice main.xml main.body.start main.body.stop).toList.length =
        main.body.stop - main.body.start := by
      rw [toList_slice, List.length_drop, List.length_take]
      omega
    cases hfind : rfind ['<', '/'] (slice main.xml main.body.start main.body.stop).toList with
    | none =>
      rw [Option.getD_none, htail]
      omega
    | some i =>
      have := rfind_le hfind
      rw [Option.getD_some]
      omega
  have hpos : 0 < blocks.toList.length := List.length_pos_iff.mpr fun hnil =>
    hblocks (String.toList_injective hnil)
  simp only [newXml, String.toList_append, List.length_append, toList_slice, List.length_drop,
    List.length_take, hstart] at hlength
  omega

/-! ### Blocks and what is not one -/

/-- The blocks among some nodes, with more behind them, are written as all the nodes only when all of them
    are blocks and there are no more. -/
theorem sources_same (hapart : ∀ block ∈ before ++ more, ∀ other ∈ before, isBlock block = true →
      isBlock other = false → Apart (block.source xml) (other.source xml))
    (hfull : ∀ node ∈ before ++ more, (node.source xml).toList ≠ [])
    (hmore : ∀ node ∈ more, isBlock node = true) :
    ((before.filter isBlock ++ more).flatMap fun node => (node.source xml).toList) =
        before.flatMap (fun node => (node.source xml).toList) ↔
      (∀ node ∈ before, isBlock node = true) ∧ more = [] := by
  induction before with
  | nil =>
    refine ⟨fun h => ⟨by simp, ?_⟩, fun h => by simp [h.2]⟩
    cases more with
    | nil => rfl
    | cons node rest =>
      rw [List.filter_nil, List.nil_append, List.flatMap_cons, List.flatMap_nil, List.append_eq_nil_iff] at h
      exact absurd h.1 (hfull node (by simp))
  | cons node rest ih =>
    have htail := ih (fun block hblock other hother => hapart block (by simp_all) other (by simp_all))
      (fun node hnode => hfull node (by simp_all))
    by_cases hnode : isBlock node = true
    · rw [List.filter_cons_of_pos hnode, List.cons_append, List.flatMap_cons, List.flatMap_cons,
        List.append_cancel_left_eq, htail, List.forall_mem_cons, and_assoc, and_iff_right hnode]
    · rw [List.filter_cons_of_neg hnode, List.flatMap_cons]
      refine iff_of_false (fun h => ?_) fun h => hnode (h.1 node List.mem_cons_self)
      cases hblocks : rest.filter isBlock ++ more with
      | nil =>
        rw [hblocks, List.flatMap_nil] at h
        exact hfull node (by simp) (List.append_eq_nil_iff.mp h.symm).1
      | cons block blocks =>
        have hmem : block ∈ rest.filter isBlock ++ more := by simp [hblocks]
        have hblock : isBlock block = true := by
          rcases List.mem_append.mp hmem with hmem | hmem
          · exact (List.mem_filter.mp hmem).2
          · exact hmore block hmem
        have hin : block ∈ node :: rest ++ more := by
          rcases List.mem_append.mp hmem with hmem | hmem
          · simp [(List.mem_filter.mp hmem).1]
          · simp [hmem]
        obtain ⟨hleft, hright⟩ := hapart block hin node List.mem_cons_self hblock (by simpa using hnode)
        rw [hblocks, List.flatMap_cons] at h
        rcases List.prefix_or_prefix_of_prefix ⟨_, h⟩ (List.prefix_append _ _) with hfirst | hfirst
        · exact hleft hfirst
        · exact hright hfirst

theorem InRow.full (h : InRow lo children hi) (hhi : hi ≤ xml.toList.length) :
    ∀ node ∈ children, (node.source xml).toList ≠ [] := by
  induction children generalizing lo with
  | nil => simp
  | cons first rest ih =>
    obtain ⟨hstart, hlt, hrest⟩ := h
    have := hrest.le
    refine List.forall_mem_cons.mpr ⟨fun hnil => ?_, ih hrest⟩
    have hlength := congrArg List.length hnil
    rw [Xml.source, toList_slice, List.length_drop, List.length_take, List.length_nil] at hlength
    omega

/-- What is written for a body that was only read: its blocks, or an empty paragraph. -/
def readXml (main : MainPart) : String :=
  if main.body.children.filter isBlock = [] then EMPTY
  else String.join ((main.body.children.filter isBlock).map (Xml.source main.xml))

/-- It is what stood there only where the body holds blocks and nothing else. -/
theorem readXml_same (h : Exact main.xml main.body) : newXml main (readXml main) = main.xml ↔ OnlyBlocks main.body := by
  have hempty : EMPTY ≠ "" := by decide
  by_cases hnone : main.body.children = []
  · refine iff_of_false ?_ fun honly => honly.1 (by simp [hnone, beforeSection])
    refine newXml_longer h hnone ?_
    rw [readXml, if_pos (by simp [hnone])]
    exact hempty
  · rw [newXml_same h hnone]
    obtain ⟨lo, hi, -, hrow, name, -, hclose⟩ := h.row hnone
    have hlength := congrArg List.length hclose
    rw [toList_slice, List.length_drop, List.length_take, List.length_cons] at hlength
    have hfull : ∀ node ∈ main.body.children, (node.source main.xml).toList ≠ [] := hrow.full (by omega)
    have hbefore : ∀ node ∈ beforeSection main.body.children, node ∈ main.body.children := by
      rcases section_split main.body.children with ⟨-, hall, -⟩ | ⟨last, -, hsplit, -⟩
      · rw [hall]
        exact fun _ hnode => hnode
      · intro node hnode
        rw [hsplit]
        exact List.mem_append_left _ hnode
    have hbehind : ∀ node ∈ behindSection main.body.children, node ∈ main.body.children := by
      rcases section_split main.body.children with ⟨-, -, hall⟩ | ⟨last, -, hsplit, -⟩
      · rw [hall]
        simp
      · intro node hnode
        rw [hsplit]
        simp [hnode]
    by_cases hblocks : main.body.children.filter isBlock = []
    · rw [readXml, if_pos hblocks]
      refine iff_of_false (fun hsame => ?_) fun honly => ?_
      · cases hfirst : beforeSection main.body.children with
        | nil =>
          rw [hfirst, List.flatMap_nil] at hsame
          exact hempty (String.toList_injective hsame)
        | cons first rest =>
          have hmem := hbefore first (by simp [hfirst])
          have hnot : isBlock first = false := by
            simpa using List.filter_eq_nil_iff.mp hblocks first hmem
          obtain ⟨hleft, hright⟩ := h.apartEmpty first hmem hnot
          rw [hfirst, List.flatMap_cons] at hsame
          exact hright ⟨_, hsame.symm⟩
      · obtain ⟨first, hfirst⟩ := List.exists_mem_of_ne_nil _ honly.1
        have := List.filter_eq_nil_iff.mp hblocks first (hbefore first hfirst)
        exact this (honly.2.1 first hfirst)
    · have hjoin : (readXml main).toList = ((beforeSection main.body.children).filter isBlock ++
          (behindSection main.body.children).filter isBlock).flatMap
            fun node => (node.source main.xml).toList := by
        rw [readXml, if_neg hblocks, String.toList_join, List.flatMap_map, ← blocks_split]
      have hin : ∀ node ∈ beforeSection main.body.children ++
          (behindSection main.body.children).filter isBlock, node ∈ main.body.children := by
        intro node hnode
        rcases List.mem_append.mp hnode with hnode | hnode
        · exact hbefore node hnode
        · exact hbehind node (List.mem_filter.mp hnode).1
      rw [hjoin, sources_same
        (fun block hblock other hother => h.apart block (hin block hblock) other (hbefore other hother))
        (fun node hnode => hfull node (hin node hnode)) fun node hnode => (List.mem_filter.mp hnode).2]
      constructor
      · rintro ⟨hall, hno⟩
        refine ⟨fun hnil => hblocks ?_, hall, fun child hchild => ?_⟩
        · rw [blocks_split, hnil, hno]
          rfl
        · simpa using List.filter_eq_nil_iff.mp hno child hchild
      · rintro ⟨-, hall, hno⟩
        refine ⟨hall, List.filter_eq_nil_iff.mpr fun child hchild => ?_⟩
        simp [hno child hchild]

end Kodosi.Docx
