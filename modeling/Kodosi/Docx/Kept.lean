import Kodosi.Docx.SameBytes
import Kodosi.Text.Total

/-! Blocks that nobody changed: each one keeps the XML that it came with, and is written as it. -/

namespace Kodosi.Docx

open Documents Text Lib

/-! ### Calls with a state -/

section

variable {σ α β : Type} {s s' : σ}

variable {x : StateT σ Out α} {f : α → StateT σ Out β}

theorem pass_bind {b : β} (h : (x >>= f) s = .ok (b, s')) : ∃ a mid, x s = .ok (a, mid) ∧ f a mid = .ok (b, s') := by
  obtain ⟨⟨a, mid⟩, hx, hf⟩ := bind_ok (x := x s) (f := fun result => f result.1 result.2) h
  exact ⟨a, mid, hx, hf⟩

theorem bind_pass {a : α} (h : x s = .ok (a, s')) : (x >>= f) s = f a s' :=
  ok_bind (x := x s) (f := fun result => f result.1 result.2) h

theorem pass_lift {x : Out α} {a : α} (h : (liftM x : StateT σ Out α) s = .ok (a, s')) : x = .ok a ∧ s' = s := by
  obtain ⟨b, hx, hb⟩ := bind_ok (x := x) (f := fun b => .ok (b, s)) h
  cases hb
  exact ⟨hx, rfl⟩

end

variable {R : Reader} {W : Writer} {element : Xml} {kept kept' : Kept} {node : Node} {id : String}

/-! ### The id of a block -/

variable {name : String}

theorem computeAttrs_first {value : Option Value} {rest : List Attribute} {given : Option Value} {attrs : Attrs}
    {v : Value} (hv : given.bind (Value.field name) = some v)
    (h : Schema.computeAttrs (⟨name, value⟩ :: rest) given = .ok attrs) : attrs.lookup name = some v := by
  unfold Schema.computeAttrs at h
  rw [List.mapM_cons] at h
  obtain ⟨first, hfirst, h⟩ := bind_ok h
  obtain ⟨others, -, h⟩ := bind_ok h
  obtain rfl := Except.ok.inj h
  obtain ⟨value', hvalue, hfirst⟩ := bind_ok hfirst
  obtain rfl := Except.ok.inj hfirst
  rw [hv, Option.some_or] at hvalue
  obtain rfl := Except.ok.inj hvalue
  simp

/-- A type of blocks: its first attribute is the id. -/
def HasId (name : String) : Prop :=
  ∃ rest, (schema.node ((schema.nodeId name).getD 0)).attrs = withDefault "id" .null :: rest

theorem newNode_id {v : Value} {fields : List (String × Value)} {content : List Node} (hname : HasId name)
    (h : newNode name (.object (("id", v) :: fields)) content = .ok node) :
    node.attrs.lookup "id" = some v ∧ node.isText = false := by
  obtain ⟨rest, hrest⟩ := hname
  obtain ⟨attrs, hattrs, h⟩ := bind_ok h
  obtain rfl := Except.ok.inj h
  unfold Schema.nodeAttrs at hattrs
  rw [hrest] at hattrs
  refine ⟨computeAttrs_first ?_ hattrs, rfl⟩
  simp [Value.field]

/-- A block holds the id that it is given. -/
theorem block_id (h : R.block (some id) element kept = .ok (node, kept')) :
    textAttr node "id" = some id ∧ node.isText = false := by
  have given : ∀ {name : String} {fields : List (String × Value)} {content : List Node},
      HasId name → newNode name (.object (("id", orNull (some id)) :: fields)) content = .ok node →
      textAttr node "id" = some id ∧ node.isText = false := by
    intro name fields content hname hnode
    obtain ⟨hid, htext⟩ := newNode_id hname hnode
    exact ⟨by rw [textAttr, hid]; rfl, htext⟩
  have opaquely : R.opaqueBlock element (some id) kept = .ok (node, kept') →
      textAttr node "id" = some id ∧ node.isText = false := by
    intro h
    obtain ⟨raw, mid, -, h⟩ := pass_bind h
    exact given ⟨_, rfl⟩ (pass_lift h).1
  unfold Reader.block at h
  split at h
  next start stop tag children =>
    dsimp only at h
    by_cases hp : (Xml.element start stop tag children).isWord "p" = true
    · rw [if_pos hp] at h
      obtain ⟨props, mid, -, h⟩ := pass_bind h
      obtain ⟨inlines, mid', -, h⟩ := pass_bind h
      exact given ⟨_, rfl⟩ (pass_lift h).1
    · rw [if_neg hp] at h
      by_cases htbl : ((Xml.element start stop tag children).isWord "tbl" &&
          simpleTable (.element start stop tag children)) = true
      · rw [if_pos htbl] at h
        obtain ⟨props, mid, -, h⟩ := pass_bind h
        obtain ⟨rows, mid', -, h⟩ := pass_bind h
        exact given ⟨_, rfl⟩ (pass_lift h).1
      · rw [if_neg htbl] at h
        exact opaquely h
  next => exact opaquely h

/-! ### Each id stands once -/

theorem length_hex (bytes : Bytes) : (hex bytes).toList.length = 2 * bytes.length := by
  rw [hex, String.toList_ofList]
  induction bytes with
  | nil => rfl
  | cons byte rest ih =>
    rw [List.flatMap_cons, List.length_append, ih, List.length_cons]
    simp only [hexByte, List.length_cons, List.length_nil]
    omega

theorem length_hashOf (sha256 : Bytes → Digest) (text : String) : (hashOf sha256 text).toList.length = SHORT_HASH := by
  rw [hashOf, length_hex, List.length_take, (sha256 (utf8 text)).property]
  rfl

/-- Two ids are the same only for the same hash and the same count. -/
theorem id_inj {a b : String} {m n : Nat} (hlength : a.toList.length = b.toList.length)
    (h : s!"{a}-{m}" = s!"{b}-{n}") : a = b ∧ m = n := by
  have hchars := congrArg String.toList h
  simp only [String.toList_append, toString, List.append_assoc] at hchars
  obtain ⟨hhash, hrest⟩ := List.append_inj hchars (by simpa using hlength)
  refine ⟨String.toList_injective hhash, Nat.repr_inj.mp (String.toList_injective ?_)⟩
  simpa using hrest

/-- What is known while the body is read: each block holds its id, under which its XML is kept, and no id
    was given out with a count that is still to come. -/
structure Known (R : Reader) (done : List Xml) (body : Body) : Prop where
  blocks : List.Forall₂ (fun node element => node.isText = false ∧ ∃ id, textAttr node "id" = some id ∧
    body.sources.lookup id = some ⟨node, R.xmlOf element⟩) body.blocks done
  counted : ∀ hash n, hash.toList.length = SHORT_HASH →
    (body.sources.lookup s!"{hash}-{n}").isSome → n ≤ (body.seen.lookup hash).getD 0

theorem topBlock_known {done : List Xml} {body body' : Body} (h : Known R done body)
    (hblock : topBlock R body element = .ok body') : Known R (done ++ [element]) body' := by
  obtain ⟨⟨node, kept⟩, hnode, hblock⟩ := bind_ok hblock
  obtain rfl := Except.ok.inj hblock
  obtain ⟨hid, htext⟩ := block_id hnode
  have hlen := length_hashOf R.sha256 (R.xmlOf element)
  constructor
  · refine List.rel_append (List.Forall₂.imp ?_ h.blocks) (.cons ⟨htext, _, hid, ?_⟩ .nil)
    · rintro old from_ ⟨hold, oldId, holdId, hsource⟩
      refine ⟨hold, oldId, holdId, ?_⟩
      rw [List.lookup_cons]
      split
      next hsame =>
        obtain rfl := beq_iff_eq.mp hsame
        have := h.counted _ _ hlen (by rw [hsource]; rfl)
        omega
      next => exact hsource
    · exact List.lookup_cons_self
  · intro hash n hhash hsome
    rw [List.lookup_cons] at hsome
    simp only [List.lookup_cons]
    split at hsome
    next hsame =>
      obtain ⟨rfl, rfl⟩ := id_inj (hhash.trans hlen.symm) (beq_iff_eq.mp hsame)
      simp
    next =>
      have := h.counted hash n hhash hsome
      split
      next hsame =>
        obtain rfl := beq_iff_eq.mp hsame
        rw [Option.getD_some]
        omega
      next => exact this

variable {assets : Assets}

theorem blocks_known {body : Xml} {read : Body}
    (h : (body.children.filter isBlock).foldlM (topBlock R) ⟨[], [], [], ⟨[], assets⟩⟩ = .ok read) :
    Known R (body.children.filter isBlock) read := by
  have hnone : Known R [] ⟨[], [], [], ⟨[], assets⟩⟩ := ⟨.nil, fun _ _ _ hsome => by simp at hsome⟩
  exact foldlM_ok (I := Known R) topBlock_known hnone h

/-! ### Writing -/

variable {nodes : List Node}

theorem fromArray_blocks (h : ∀ node ∈ nodes, node.isText = false) : Fragment.fromArray nodes = nodes := by
  have push : ∀ {joined : List Node}, nodes.foldl Fragment.pushJoined joined = joined ++ nodes := by
    induction nodes with
    | nil => simp
    | cons node rest ih =>
      intro joined
      obtain ⟨hnode, hrest⟩ := List.forall_mem_cons.mp h
      have hpush : Fragment.pushJoined joined node = joined ++ [node] := by
        unfold Fragment.pushJoined
        cases hlast : joined.getLast? with
        | none => simp [List.getLast?_eq_none_iff.mp hlast]
        | some last => simp [hnode]
      rw [List.foldl_cons, hpush, ih hrest, List.append_assoc, List.singleton_append]
  exact push

variable {out : Output}

theorem block_kept {xml : String} (h : W.sourceOf node = some xml) : W.block node out = .ok (xml, out) := by
  cases node with
  | mk kind attrs content marks text leaf =>
    unfold Writer.block
    dsimp only
    rw [h]
    rfl

/-- Blocks that are as they came are written as they stood, and ask for no relationship. -/
theorem blocks_kept {xmls : List String} (h : List.Forall₂ (fun node xml => W.sourceOf node = some xml) nodes xmls) :
    W.blocks nodes out = .ok (String.join xmls, out) := by
  induction h with
  | nil => rfl
  | cons hnode _ ih =>
    rw [Writer.blocks, bind_pass (block_kept hnode), bind_pass ih, String.join_cons]
    rfl

/-- What a write of blocks gives, block by block. -/
theorem blocks_each {text : String} {out' : Output} (h : W.blocks nodes out = .ok (text, out')) :
    ∃ outs : List String, text = String.join outs ∧
      List.Forall₂ (fun node xml => ∀ source, W.sourceOf node = some source → xml = source) nodes outs := by
  induction nodes generalizing text out with
  | nil =>
    obtain ⟨rfl, -⟩ := Prod.mk.inj (Except.ok.inj h)
    exact ⟨[], rfl, .nil⟩
  | cons node rest ih =>
    rw [Writer.blocks] at h
    obtain ⟨here, mid, hhere, h⟩ := pass_bind h
    obtain ⟨others, last, hothers, h⟩ := pass_bind h
    obtain ⟨rfl, rfl⟩ := Prod.mk.inj (Except.ok.inj h)
    obtain ⟨outs, rfl, houts⟩ := ih hothers
    refine ⟨here :: outs, String.join_cons.symm, .cons (fun source hsource => ?_) houts⟩
    rw [block_kept hsource] at hhere
    exact (Prod.mk.inj (Except.ok.inj hhere)).1.symm

/-- The empty paragraph that stands for a body without blocks. -/
def emptyNode : Node :=
  .mk 1 [("id", .null), ("style", .null), ("align", .null), ("numId", .null), ("ilvl", .null),
    ("props", .null), ("pageBreak", .bool false)] [] [] none false

theorem blocks_empty (out : Output) : W.blocks [emptyNode] out = .ok (EMPTY, out) := rfl

/-! ### The main part of a written file -/

variable {V : Type} {T : Tools V} {file : Bytes} {main : MainPart}

/-- The main part of a file. -/
def mainOf (T : Tools V) (file : Bytes) : Except String MainPart := openPackage T file >>= mainPart T

theorem mapError_ok {ε ε' α : Type} {x : Except ε α} {f : ε → ε'} {a : α} : x.mapError f = .ok a ↔ x = .ok a := by
  cases x <;> simp [Except.mapError]

/-- A block of a model that holds its id, under which the model keeps the XML that the block came with. -/
def AsRead (main : MainPart) (model : Model V) (node : Node) (element : Xml) : Prop :=
  ∃ id, textAttr node "id" = some id ∧ model.sources.lookup id = some ⟨node, element.source main.xml⟩

variable {model : Model V}

/-- What reading gives: a block for each block of the body, or one empty paragraph. -/
theorem read_known {assets' : Assets} (hmain : mainOf T file = .ok main) (h : read T file assets = .ok (model, assets')) :
    main.body.children.filter isBlock = [] ∧ model.doc.content = [emptyNode] ∨
      main.body.children.filter isBlock ≠ [] ∧
        List.Forall₂ (AsRead main model) model.doc.content (main.body.children.filter isBlock) := by
  obtain ⟨package, hpackage, h⟩ := bind_ok (mapError_ok.mp h)
  obtain ⟨main', hmain', h⟩ := bind_ok h
  obtain rfl : main' = main := by
    rw [mainOf, ok_bind hpackage, hmain'] at hmain
    exact Except.ok.inj hmain
  obtain ⟨body, hbody, h⟩ := bind_ok h
  obtain ⟨doc, hdoc, h⟩ := bind_ok h
  obtain ⟨rfl, rfl⟩ := Prod.mk.inj (Except.ok.inj h)
  obtain ⟨attrs, -, hdoc⟩ := bind_ok (mapError_ok.mp hdoc)
  obtain rfl := Except.ok.inj hdoc
  obtain ⟨found, hfound, hbody⟩ := bind_ok (mapError_ok.mp hbody)
  obtain ⟨htext, hknown⟩ := (List.forall₂_and_left _ _).mp (blocks_known hfound).blocks
  by_cases hnone : found.blocks = []
  · rw [if_pos hnone] at hbody
    obtain ⟨empty, hempty, hbody⟩ := bind_ok hbody
    obtain rfl := Except.ok.inj hempty
    obtain rfl := Except.ok.inj hbody
    rw [hnone, List.forall₂_nil_left_iff] at hknown
    exact .inl ⟨hknown, rfl⟩
  · rw [if_neg hnone] at hbody
    obtain rfl := Except.ok.inj hbody
    refine .inr ⟨fun hnil => hnone (by simpa [hnil] using hknown), ?_⟩
    change List.Forall₂ _ (Fragment.fromArray found.blocks) _
    rw [fromArray_blocks htext]
    exact hknown

/-- A model that was just read writes its blocks as they stood. -/
theorem read_blocks {assets' : Assets} (hmain : mainOf T file = .ok main)
    (h : read T file assets = .ok (model, assets')) (saved : Assets) (out : Output) :
    (writerOf T model main saved).blocks model.doc.content out = .ok (readXml main, out) := by
  rcases read_known hmain h with ⟨hnone, hempty⟩ | ⟨hsome, hknown⟩
  · rw [readXml, if_pos hnone, hempty]
    exact blocks_empty out
  · rw [readXml, if_neg hsome]
    refine blocks_kept ?_
    rw [List.forall₂_map_right_iff]
    refine List.Forall₂.imp ?_ hknown
    rintro node element ⟨id, hid, hsource⟩
    simp [Writer.sourceOf, writerOf, hid, hsource]

/-! ### The parts of a written file -/

variable {entries : List Entry}

theorem check_size {unpacked total : Nat} (h : entries.foldlM Package.check unpacked = .ok total) :
    ∀ entry ∈ entries, entry.size ≤ MOST_UNPACKED := by
  induction entries generalizing unpacked with
  | nil => simp
  | cons entry rest ih =>
    rw [List.foldlM_cons] at h
    obtain ⟨next, hnext, h⟩ := bind_ok h
    obtain ⟨⟨⟩, -, hnext⟩ := bind_ok hnext
    obtain ⟨⟨⟩, hsize, -⟩ := bind_ok hnext
    have := reject_ok.mp hsize
    exact List.forall_mem_cons.mpr ⟨by omega, ih h⟩

variable {package : Package}

theorem openPackage_ok (h : openPackage T file = .ok package) :
    T.zip.entries file = .ok package.entries ∧ ∀ entry ∈ package.entries, entry.size ≤ MOST_UNPACKED := by
  obtain ⟨entries, hentries, h⟩ := bind_ok (mapError_ok.mp h)
  obtain ⟨⟨⟩, -, h⟩ := bind_ok h
  obtain ⟨total, hcheck, h⟩ := bind_ok h
  obtain rfl := Except.ok.inj h
  exact ⟨mapError_ok.mp hentries, check_size hcheck⟩

variable {parts : Parts}

theorem lookup_insertPart {other : String} {bytes : Bytes} (h : other ≠ name) :
    (insertPart parts name bytes).lookup other = parts.lookup other := by
  have hfilter : ∀ rest : Parts, (rest.filter fun part => part.1 ≠ name).lookup other = rest.lookup other := by
    intro rest
    induction rest with
    | nil => rfl
    | cons part rest ih =>
      by_cases hpart : part.1 = name
      · rw [List.filter_cons_of_neg (by simp [hpart]), ih, List.lookup_cons, hpart, beq_false_of_ne h]
      · rw [List.filter_cons_of_pos (by simp [hpart]), List.lookup_cons, List.lookup_cons, ih]
  rw [insertPart, List.lookup_append, List.lookup_cons, beq_false_of_ne h, hfilter, ← List.lookup_append,
    List.takeWhile_append_dropWhile]

theorem picture_not_main (image : String × Hash × String) : MAIN_PART ≠ s!"word/{pictureTarget image}" := by
  intro h
  have hchars := congrArg (fun text => text.toList[5]?) h
  simp [MAIN_PART, pictureTarget, toString] at hchars

theorem addPictures_main {images : List (String × Hash × String)} {parts' : Parts}
    (h : addPictures assets images parts = .ok parts') :
    parts'.lookup MAIN_PART = parts.lookup MAIN_PART := by
  induction images generalizing parts with
  | nil =>
    obtain rfl := Except.ok.inj h
    rfl
  | cons image rest ih =>
    obtain ⟨bytes, -, h⟩ := bind_ok h
    rw [ih h, lookup_insertPart (picture_not_main image)]

theorem finishParts_main {parts' : Parts} (h : finishParts package assets out parts = .ok parts') :
    parts'.lookup MAIN_PART = parts.lookup MAIN_PART := by
  unfold finishParts at h
  split_ifs at h
  · obtain rfl := Except.ok.inj h
    rfl
  · obtain ⟨relations, -, h⟩ := bind_ok h
    obtain ⟨pictured, hpictured, h⟩ := bind_ok h
    obtain ⟨updated, -, h⟩ := bind_ok h
    rw [← addPictures_main hpictured]
    dsimp only at h
    split_ifs at h
    · obtain rfl := Except.ok.inj h
      exact lookup_insertPart (by decide)
    · obtain ⟨types, -, h⟩ := bind_ok h
      obtain ⟨known, -, h⟩ := bind_ok h
      obtain rfl := Except.ok.inj h
      rw [lookup_insertPart (by decide), lookup_insertPart (by decide)]

/-- The entry of a part that was written anew is the new one. -/
theorem find_rewritten {Z : Zip} {bytes : Bytes} (hpart : parts.lookup name = some (some bytes))
    (hhas : (entries.find? fun entry => entry.name = name).isSome) :
    (rewrittenEntries Z parts entries).find? (fun entry => entry.name = name) = some (deflated Z name bytes) := by
  have hold : (entries.filterMap (rewriteEntry Z parts)).find? (fun entry => entry.name = name) =
      some (deflated Z name bytes) := by
    induction entries with
    | nil => simp at hhas
    | cons entry rest ih =>
      by_cases hname : entry.name = name
      · have hentry : rewriteEntry Z parts entry = some (deflated Z name bytes) := by
          simp [rewriteEntry, hname, hpart]
        rw [List.filterMap_cons_some hentry, List.find?_cons_of_pos (by simp [deflated])]
      · rw [List.find?_cons_of_neg (by simpa using hname)] at hhas
        cases hentry : rewriteEntry Z parts entry with
        | none => rw [List.filterMap_cons_none hentry, ih hhas]
        | some kept =>
          have hkept : kept.name = entry.name := by
            unfold rewriteEntry at hentry
            split at hentry
            · rw [Option.some.inj hentry]
            · cases hentry
            · rw [← Option.some.inj hentry]
              rfl
          rw [List.filterMap_cons_some hentry, List.find?_cons_of_neg (by simpa [hkept] using hname), ih hhas]
  rw [rewrittenEntries, List.find?_append, hold, Option.some_or]

/-- What the archive library promises: it reads the entries that it wrote. -/
def Zip.Reads (Z : Zip) : Prop := ∀ entries file, Z.finish entries = .ok file → Z.entries file = .ok entries

/-- A written file holds the text around its blocks as it was; where that makes the same text, it is the
    same file. -/
theorem write_text {file' : Bytes} (hzip : T.zip.Reads) (hmain : mainOf T file = .ok main)
    (h : write T model file assets = .ok file') :
    ∃ text out, (writerOf T model main assets).blocks model.doc.content .begin = .ok (text, out) ∧
      (newXml main text = main.xml → file' = file) ∧
      ∀ package, openPackage T file' = .ok package → package.text MAIN_PART = some (newXml main text) := by
  obtain ⟨package, hpackage, h⟩ := bind_ok (mapError_ok.mp h)
  obtain ⟨main', hmain', h⟩ := bind_ok h
  obtain rfl : main' = main := by
    rw [mainOf, ok_bind hpackage, hmain'] at hmain
    exact Except.ok.inj hmain
  obtain ⟨xml, hxml, hmain'⟩ := bind_ok hmain'
  have htext : package.text MAIN_PART = some main'.xml := by
    obtain ⟨parsed, -, hmain'⟩ := bind_ok hmain'
    obtain ⟨body, -, hmain'⟩ := bind_ok hmain'
    obtain rfl := Except.ok.inj hmain'
    exact require_ok.mp hxml
  obtain ⟨⟨text, out⟩, hblocks, h⟩ := bind_ok h
  refine ⟨text, out, mapError_ok.mp hblocks, ?_⟩
  dsimp only at h
  by_cases hsame : newXml main' text = main'.xml
  · rw [if_pos hsame] at h
    obtain rfl := Except.ok.inj h
    refine ⟨fun _ => rfl, fun other hother => ?_⟩
    obtain rfl := Except.ok.inj (hpackage.symm.trans hother)
    rw [hsame, htext]
  · rw [if_neg hsame] at h
    refine ⟨fun hsame' => absurd hsame' hsame, fun other hother => ?_⟩
    obtain ⟨parts, hparts, h⟩ := bind_ok h
    obtain ⟨entries, hentries, h⟩ := bind_ok (mapError_ok.mp h)
    obtain ⟨hfile, -⟩ := openPackage_ok hpackage
    obtain rfl := Except.ok.inj (hfile.symm.trans (mapError_ok.mp hentries))
    obtain ⟨hother, hsizes⟩ := openPackage_ok hother
    have hwritten := hzip _ _ (mapError_ok.mp h)
    have hfound : (package.entries.find? fun entry => entry.name = MAIN_PART).isSome := by
      rw [Package.text, Package.bytes] at htext
      cases hfind : package.entries.find? fun entry => decide (entry.name = MAIN_PART) with
      | none => simp [hfind] at htext
      | some entry => rfl
    have hlookup : parts.lookup MAIN_PART = some (some (utf8 (newXml main' text))) := by
      rw [finishParts_main (mapError_ok.mp hparts)]
      simp
    have hfind := find_rewritten (Z := T.zip) hlookup hfound
    rw [← Except.ok.inj (hother.symm.trans hwritten)] at hfind
    have hshort := hsizes _ (List.mem_of_find?_eq_some hfind)
    rw [Package.text, Package.bytes, hfind]
    simp only [deflated, Option.bind_some, Option.map_some]
    rw [List.take_of_length_le hshort, ofUtf8_utf8]

/-! ### Saving -/

/-- What the parser promises: the ranges of the body and of its children are exact. -/
def Exactly (parse : Parser) : Prop :=
  ∀ xml parsed body, parse xml = .ok parsed → parsed.root.wordChild "body" = some body → Exact xml body

theorem mainOf_ok (hmain : mainOf T file = .ok main) (hpackage : openPackage T file = .ok package) :
    mainPart T package = .ok main ∧ package.text MAIN_PART = some main.xml ∧
      T.parse main.xml = .ok main.parsed ∧ main.parsed.root.wordChild "body" = some main.body := by
  rw [mainOf, ok_bind hpackage] at hmain
  refine ⟨hmain, ?_⟩
  obtain ⟨xml, hxml, hmain⟩ := bind_ok hmain
  obtain ⟨parsed, hparsed, hmain⟩ := bind_ok hmain
  obtain ⟨body, hbody, hmain⟩ := bind_ok hmain
  obtain rfl := Except.ok.inj hmain
  exact ⟨require_ok.mp hxml, hparsed, require_ok.mp hbody⟩

/-- A block that is still as it was read from an element is written as that element. -/
def WrittenAsRead (main : MainPart) (edited : Model V) (node : Node) (xml : String) : Prop :=
  ∀ element, AsRead main edited node element → xml = element.source main.xml

/-- Saving a file that was only read gives the same bytes exactly where its body holds blocks and nothing
    else. There an edited model is written with the same text around its blocks, and each block that is as
    it was read with the text that it had. -/
theorem write_read (T : Tools V) (file : Bytes) (assets kept saved : Assets) (model : Model V)
    (main : MainPart) (hzip : T.zip.Reads) (hparse : Exactly T.parse) (hmain : mainOf T file = .ok main)
    (hread : read T file assets = .ok (model, kept)) :
    (write T model file saved = .ok file ↔ OnlyBlocks main.body) ∧
      (OnlyBlocks main.body →
        List.Forall₂ (AsRead main model) model.doc.content (main.body.children.filter isBlock) ∧
        main.xml = newXml main (String.join ((main.body.children.filter isBlock).map (Xml.source main.xml))) ∧
        ∀ edited file' package, write T edited file saved = .ok file' →
          openPackage T file' = .ok package →
          ∃ outs, package.text MAIN_PART = some (newXml main (String.join outs)) ∧
            List.Forall₂ (WrittenAsRead main edited) edited.doc.content outs) := by
  obtain ⟨package, hpackage, -⟩ := bind_ok hmain
  obtain ⟨hmainPart, htext, hparsed, hbody⟩ := mainOf_ok hmain hpackage
  have hexact := hparse _ _ _ hparsed hbody
  have hblocks := read_blocks hmain hread saved .begin
  refine ⟨?_, fun honly => ?_⟩
  · rw [← readXml_same hexact]
    refine ⟨fun hwrite => ?_, fun hsame => ?_⟩
    · obtain ⟨text, out, hwritten, -, hpart⟩ := write_text hzip hmain hwrite
      obtain ⟨rfl, -⟩ := Prod.mk.inj (Except.ok.inj (hblocks.symm.trans hwritten))
      exact (Option.some.inj (htext.symm.trans (hpart package hpackage))).symm
    · unfold write
      rw [ok_bind hpackage, ok_bind hmainPart]
      change Except.mapError Unwritable.mk ((Except.mapError Fault.text
        ((writerOf T model main saved).blocks model.doc.content .begin)) >>= _) = _
      rw [hblocks, ok_bind (show Except.mapError Fault.text (.ok (readXml main, Output.begin)) = .ok _ from rfl)]
      simp only [hsame, if_true]
      rfl
  · have hsome : main.body.children.filter isBlock ≠ [] := by
      obtain ⟨first, hfirst⟩ := List.exists_mem_of_ne_nil _ honly.1
      rw [blocks_split]
      exact List.ne_nil_of_mem (List.mem_append_left _ (List.mem_filter.mpr ⟨hfirst, honly.2.1 first hfirst⟩))
    have hsame := (readXml_same hexact).mpr honly
    rw [readXml, if_neg hsome] at hsame
    refine ⟨?_, hsame.symm, fun edited file' package' hwrite hopen => ?_⟩
    · rcases read_known hmain hread with ⟨hnone, -⟩ | ⟨-, hknown⟩
      · exact absurd hnone hsome
      · exact hknown
    · obtain ⟨text, out, hwritten, -, hpart⟩ := write_text hzip hmain hwrite
      obtain ⟨outs, rfl, houts⟩ := blocks_each hwritten
      refine ⟨outs, hpart package' hopen, List.Forall₂.imp ?_ houts⟩
      rintro node xml hxml element ⟨id, hid, hsource⟩
      exact hxml _ (by simp [Writer.sourceOf, writerOf, hid, hsource])

/-! ### Two paragraphs -/

theorem ok_of_except {ε α β : Type} {x : Except ε α} {f : α → β} {b : β}
    (h : x.toOption.map f = some b) : ∃ a, x = .ok a ∧ f a = b := by
  cases x with
  | error e => simp [Except.toOption] at h
  | ok a => exact ⟨a, rfl, Option.some.inj h⟩

/-- An archive of the main part alone, which is stored as it is. -/
def onePart : Zip where
  entries file := .ok [⟨MAIN_PART, file.length, file.length, some file⟩]
  packed := List.length
  finish
    | [⟨name, size, compressed, some bytes⟩] =>
      if name = MAIN_PART ∧ size = bytes.length ∧ compressed = bytes.length then .ok bytes
      else .error "There is more than the main part"
    | _ => .error "There is more than the main part"

theorem onePart_reads : onePart.Reads := by
  intro entries file h
  simp only [onePart] at h
  split at h
  next name size compressed bytes =>
    split_ifs at h with hsame
    obtain ⟨rfl, rfl, rfl⟩ := hsame
    obtain rfl := Except.ok.inj h
    rfl
  next => cases h

def OPENING : String :=
  "<w:document xmlns:w=\"http://schemas.openxmlformats.org/wordprocessingml/2006/main\"><w:body>"

/-- The main part of two empty paragraphs with a gap between them. -/
def twoWith (gap : String) : String := OPENING ++ EMPTY ++ gap ++ EMPTY ++ "</w:body></w:document>"

def wordTag (name : String) : Tag := ⟨name, some MAIN, []⟩

def twoBody (gap : String) : Xml :=
  let first := OPENING.toList.length
  let second := first + 11 + gap.toList.length
  .element (first - 8) (second + 20) (wordTag "body")
    (.element first (first + 11) (wordTag "p") [] ::
      (if gap = "" then [] else [.text (first + 11) second gap]) ++
      [.element second (second + 11) (wordTag "p") []])

def twoParsed (gap : String) : Parsed :=
  ⟨.element 0 (twoWith gap).toList.length (wordTag "document") [twoBody gap], [(some "w", MAIN)]⟩

def twoTools : Tools Unit where
  zip := onePart
  parse xml :=
    if xml = twoWith "\n" then .ok (twoParsed "\n")
    else if xml = twoWith "" then .ok (twoParsed "")
    else .error "There is another text"
  sha256 _ := ⟨List.replicate 32 0, rfl⟩
  pixels _ := .null
  length _ := ""
  view _ _ := ()

/-- The ranges of the two paragraphs are exact, as one computation finds. -/
theorem twoBody_exact (gap : String) (hi : Nat)
    (h : ((twoBody gap).start ≤ (twoBody gap).stop ∧ (twoBody gap).stop ≤ (twoWith gap).toList.length) ∧
      ((twoBody gap).start ≤ 91 ∧ InRow 91 (twoBody gap).children hi ∧
        (slice (twoWith gap) hi (twoBody gap).stop).toList = "</w:body>".toList) ∧
      (∀ block ∈ (twoBody gap).children, ∀ other ∈ (twoBody gap).children, isBlock block = true →
        isBlock other = false → Apart (block.source (twoWith gap)) (other.source (twoWith gap))) ∧
      ∀ other ∈ (twoBody gap).children, isBlock other = false → Apart EMPTY (other.source (twoWith gap))) :
    Exact (twoWith gap) (twoBody gap) := by
  obtain ⟨hinside, ⟨hstart, hrow, hclosing⟩, hapart, hempty⟩ := h
  exact ⟨hinside, fun _ => ⟨91, hi, hstart, hrow, "w:body>".toList, by decide, hclosing⟩, hapart, hempty⟩

theorem twoTools_exactly : Exactly twoTools.parse := by
  intro xml parsed body hparsed hbody
  simp only [twoTools] at hparsed
  split_ifs at hparsed with hgap hnone
  · obtain rfl := Except.ok.inj hparsed
    obtain rfl : twoBody "\n" = body := Option.some.inj hbody
    subst hgap
    exact twoBody_exact "\n" 114 (by decide +kernel)
  · obtain rfl := Except.ok.inj hparsed
    obtain rfl : twoBody "" = body := Option.some.inj hbody
    subst hnone
    exact twoBody_exact "" 113 (by decide +kernel)

theorem write_read_two : ∃ main model kept, mainOf twoTools (utf8 (twoWith "")) = .ok main ∧
    read twoTools (utf8 (twoWith "")) ⟨[]⟩ = .ok (model, kept) ∧ OnlyBlocks main.body ∧
    write twoTools model (utf8 (twoWith "")) kept = .ok (utf8 (twoWith "")) := by
  obtain ⟨main, hmain, hbody⟩ := ok_of_except (x := mainOf twoTools (utf8 (twoWith "")))
    (f := fun main => decide (OnlyBlocks main.body)) (b := true) (by decide +kernel)
  obtain ⟨⟨model, kept⟩, hread, -⟩ := ok_of_except (x := read twoTools (utf8 (twoWith "")) ⟨[]⟩)
    (f := fun _ => ()) (b := ()) (by decide +kernel)
  have honly := of_decide_eq_true hbody
  exact ⟨main, model, kept, hmain, hread, honly, (write_read twoTools (utf8 (twoWith "")) ⟨[]⟩ kept kept model
    main onePart_reads twoTools_exactly hmain hread).1.mpr honly⟩

/-- Saving a file that was only read drops what stands between two of its paragraphs. -/
theorem gap_goes : twoTools.zip.Reads ∧ Exactly twoTools.parse ∧
    ∃ model kept, read twoTools (utf8 (twoWith "\n")) ⟨[]⟩ = .ok (model, kept) ∧
      write twoTools model (utf8 (twoWith "\n")) kept = .ok (utf8 (twoWith "")) ∧
      write twoTools model (utf8 (twoWith "\n")) kept ≠ .ok (utf8 (twoWith "\n")) := by
  refine ⟨onePart_reads, twoTools_exactly, ?_⟩
  obtain ⟨⟨model, kept⟩, hread, hwrite⟩ := ok_of_except (x := read twoTools (utf8 (twoWith "\n")) ⟨[]⟩)
    (f := fun read => (write twoTools read.1 (utf8 (twoWith "\n")) read.2).toOption)
    (b := some (utf8 (twoWith ""))) (by decide +kernel)
  have hfile : write twoTools model (utf8 (twoWith "\n")) kept = .ok (utf8 (twoWith "")) := by
    dsimp only at hwrite
    generalize write twoTools model (utf8 (twoWith "\n")) kept = written at hwrite
    cases written with
    | error e => cases hwrite
    | ok file => exact congrArg Except.ok (Option.some.inj hwrite)
  refine ⟨model, kept, hread, hfile, fun hother => ?_⟩
  exact absurd (Except.ok.inj (hfile.symm.trans hother)) (by decide)

end Kodosi.Docx
