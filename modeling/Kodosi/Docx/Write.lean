import Kodosi.Docx.Read

/-! Writing a .docx file: new XML for the blocks that changed, between the bytes around the body's blocks. -/

namespace Kodosi.Docx

open Documents Text Lib

def RELATIONS_PART : String := "word/_rels/document.xml.rels"
def CONTENT_TYPES : String := "[Content_Types].xml"
def HYPERLINK_KIND : String :=
  "http://schemas.openxmlformats.org/officeDocument/2006/relationships/hyperlink"
def IMAGE_KIND : String :=
  "http://schemas.openxmlformats.org/officeDocument/2006/relationships/image"
def FIRST_CHANGE_ID : Nat := 90000

/-- The children of `w:rPr` in their order in the schema, which readers hold a file to. -/
def RUN_ORDER : List String :=
  ["rStyle", "rFonts", "b", "bCs", "i", "iCs", "caps", "smallCaps", "strike", "dstrike", "outline", "shadow",
    "emboss", "imprint", "noProof", "snapToGrid", "vanish", "webHidden", "color", "spacing", "w", "kern",
    "position", "sz", "szCs", "highlight", "u", "effect", "bdr", "shd", "fitText", "vertAlign", "rtl", "cs",
    "em", "lang", "eastAsianLayout", "specVanish", "oMath"]

def PARAGRAPH_ORDER : List String :=
  ["pStyle", "keepNext", "keepLines", "pageBreakBefore", "framePr", "widowControl", "numPr",
    "suppressLineNumbers", "pBdr", "shd", "tabs", "suppressAutoHyphens", "kinsoku", "wordWrap",
    "overflowPunct", "topLinePunct", "autoSpaceDE", "autoSpaceDN", "bidi", "adjustRightInd", "snapToGrid",
    "spacing", "ind", "contextualSpacing", "mirrorIndents", "suppressOverlap", "jc", "textDirection",
    "textAlignment", "textboxTightWrap", "outlineLvl", "divId", "cnfStyle", "rPr", "sectPr", "pPrChange"]

def rank (order : List String) (name : String) : Nat := order.idxOf name

/-- Pieces of XML by their rank, those of one rank in the order they came. -/
def byRank (children : List (Nat × String)) : String :=
  String.join ((children.insertionSort fun a b => a.1 ≤ b.1).map (·.2))

/-- The state of a write: the links and pictures that are new in this save, and the next numbers. -/
structure Output where
  links : List (String × String)
  images : List (String × Hash × String)
  nextRelation : Nat
  nextChange : Nat
  nextPicture : Nat

def Output.begin : Output := ⟨[], [], 1, FIRST_CHANGE_ID, 1⟩

abbrev Writing := StateT Output Out

/-- What a write takes: the sources and the pieces of its model, the assets, the namespaces of the main
    part, the parser, and a length in the units of drawings. -/
structure Writer where
  sources : List (String × Source)
  raws : List (String × String)
  assets : Assets
  namespaces : String
  parse : Parser
  length : Option Value → String

/-! ### Looks and properties -/

def lookOf (marks : List Mark) : RunLook :=
  let style := markNamed marks "textStyle"
  let value := fun name => style.bind fun mark => markText mark name
  { bold := (markNamed marks "bold").isSome
    italic := (markNamed marks "italic").isSome
    underline := (markNamed marks "underline").isSome
    strike := (markNamed marks "strike").isSome
    color := value "color"
    size := value "size"
    font := value "font"
    highlight := value "highlight" }

/-- An element with one value and nothing inside. -/
def valued (name value : String) : String := s!"<w:{name} w:val=\"{escape value}\"/>"

def numbered (level : Option String) (list : String) : String :=
  "<w:numPr>" ++ valued "ilvl" (level.getD "0") ++ valued "numId" list ++ "</w:numPr>"

def addParagraphProps (style align list level : Option String) : String :=
  (style.elim "" (valued "pStyle")) ++ (list.elim "" (numbered level)) ++ (align.elim "" (valued "jc"))

/-- The pieces of a look, each with its rank. -/
def addRunLook (look : RunLook) : List (Nat × String) :=
  let add := fun name xml => (rank RUN_ORDER name, xml)
  (look.font.elim [] fun font =>
      [add "rFonts" s!"<w:rFonts w:ascii=\"{escape font}\" w:hAnsi=\"{escape font}\"/>"]) ++
    (if look.bold then [add "b" "<w:b/>"] else []) ++
    (if look.italic then [add "i" "<w:i/>"] else []) ++
    (if look.strike then [add "strike" "<w:strike/>"] else []) ++
    (look.color.elim [] fun color => [add "color" (valued "color" color)]) ++
    (look.size.elim [] fun size => [add "sz" (valued "sz" size)]) ++
    (look.highlight.elim [] fun highlight => [add "highlight" (valued "highlight" highlight)]) ++
    (if look.underline then [add "u" (valued "u" "single")] else [])

def wrapRunProps (children : List (Nat × String)) : String :=
  if children = [] then "" else s!"<w:rPr>{byRank children}</w:rPr>"

/-- The text of a child of a piece, which starts where the piece does. -/
def childText (raw : String) (piece child : Xml) : String :=
  slice raw (child.start - piece.start) (child.stop - piece.start)

/-- The children of a piece that stay, each with its rank. -/
def keptChildren (order : List String) (raw : String) (piece : Xml) (stays : Xml → Bool) :
    List (Nat × String) :=
  (piece.elements.filter stays).map fun child => (rank order child.tagName, childText raw piece child)

/-- The marks that wrap runs in an element of their own. -/
structure Wrappers where
  link : Option Mark
  insertion : Option Mark
  deletion : Option Mark
  deriving DecidableEq

def Wrappers.of (node : Node) : Wrappers :=
  ⟨markNamed node.marks "link", markNamed node.marks "insertion", markNamed node.marks "deletion"⟩

/-! ### Text -/

/-- The units of a text as a text again. Units that make no character become replacement characters. -/
def decodeUnits : List UInt16 → List Char
  | [] => []
  | unit :: rest =>
    if unit < 0xD800 ∨ 0xDFFF < unit then Char.ofNat unit.toNat :: decodeUnits rest
    else
      match rest with
      | low :: more =>
        if unit < 0xDC00 ∧ 0xDC00 ≤ low ∧ low ≤ 0xDFFF then
          Char.ofNat (0x10000 + (unit.toNat - 0xD800) * 0x400 + (low.toNat - 0xDC00)) :: decodeUnits more
        else '\ufffd' :: decodeUnits (low :: more)
      | [] => ['\ufffd']

def textTag (deleted : Bool) : String := if deleted then "w:delText" else "w:t"

/-- A stretch of text without a tab or a break in it. -/
def textPiece (deleted : Bool) (piece : List Char) : String :=
  if piece = [] then ""
  else s!"<{textTag deleted} xml:space=\"preserve\">{escape (String.ofList piece)}</{textTag deleted}>"

/-- The loop over the letters of a text; `piece` waits to be written. -/
def textInner (deleted : Bool) (piece : List Char) : List Char → String
  | [] => textPiece deleted piece
  | '\t' :: rest => textPiece deleted piece ++ "<w:tab/>" ++ textInner deleted [] rest
  | '\n' :: rest => textPiece deleted piece ++ "<w:br/>" ++ textInner deleted [] rest
  | letter :: rest => textInner deleted (piece ++ [letter]) rest

/-! ### Pictures -/

def hashFromHex (text : String) : Option Hash :=
  if text.toList.length = 64 ∧ text.toList.all (·.toNat < 128) then hexPairs text.toList else none

def pictureExtension (bytes : Bytes) : Option String :=
  if [0x89, 0x50, 0x4E, 0x47].isPrefixOf bytes then some "png"
  else if [0xff, 0xd8, 0xff].isPrefixOf bytes then some "jpeg"
  else if [0x47, 0x49, 0x46, 0x38].isPrefixOf bytes then some "gif"
  else none

def pictureRun (relation : String) (picture : Nat) (width height : String) : String :=
  let id := s!"{9000 + picture}"
  String.join [
    "<w:r><w:drawing><wp:inline xmlns:wp=\"http://schemas.openxmlformats.org/drawingml/2006/wordprocessingDrawing\" distT=\"0\" distB=\"0\" distL=\"0\" distR=\"0\">",
    s!"<wp:extent cx=\"{width}\" cy=\"{height}\"/><wp:docPr id=\"{id}\" name=\"Picture {id}\"/>",
    "<a:graphic xmlns:a=\"http://schemas.openxmlformats.org/drawingml/2006/main\"><a:graphicData uri=\"http://schemas.openxmlformats.org/drawingml/2006/picture\">",
    s!"<pic:pic xmlns:pic=\"http://schemas.openxmlformats.org/drawingml/2006/picture\"><pic:nvPicPr><pic:cNvPr id=\"{id}\" name=\"Picture {id}\"/><pic:cNvPicPr/></pic:nvPicPr>",
    s!"<pic:blipFill><a:blip xmlns:r=\"{RELATIONSHIPS}\" r:embed=\"{relation}\"/><a:stretch><a:fillRect/></a:stretch></pic:blipFill>",
    s!"<pic:spPr><a:xfrm><a:off x=\"0\" y=\"0\"/><a:ext cx=\"{width}\" cy=\"{height}\"/></a:xfrm><a:prstGeom prst=\"rect\"><a:avLst/></a:prstGeom></pic:spPr>",
    "</pic:pic></a:graphicData></a:graphic></wp:inline></w:drawing></w:r>"]

def newRelation : Writing String := fun out =>
  .ok (s!"rIdDoc{out.nextRelation}", { out with nextRelation := out.nextRelation + 1 })

namespace Writer

variable (W : Writer)

def raw (name : String) : Out String :=
  Lib.require (.failed s!"the piece {name} is missing") (W.raws.lookup name)

def parsePiece (xml : String) : Out Xml := do
  let parsed ← (W.parse s!"<piece{W.namespaces}>{xml}</piece>").mapError .failed
  Lib.require (.failed "an empty piece") parsed.root.elements.head?

def rawAttr (node : Node) (name : String) : Out String := (textAttr node name).elim (.ok "") (raw W)

def paragraphProps (node : Node) : Out String := do
  let raw ← rawAttr W node "props"
  let style := textAttr node "style"
  let align := textAttr node "align"
  let list := textAttr node "numId"
  let level := textAttr node "ilvl"
  if raw = "" then
    let props := addParagraphProps style align list level
    pure (if props = "" then "" else s!"<w:pPr>{props}</w:pPr>")
  else do
    let piece ← parsePiece W raw
    let value := fun name => (piece.wordChild name).bind fun child => child.wordAttribute "val"
    let numberValue := fun name =>
      ((piece.wordChild "numPr").bind fun node => node.wordChild name).bind fun child =>
        child.wordAttribute "val"
    if value "pStyle" = style ∧ value "jc" = align ∧ numberValue "numId" = list ∧
        numberValue "ilvl" = level then pure raw
    else
      let kept := keptChildren PARAGRAPH_ORDER raw piece fun child =>
        !child.isWord "pStyle" && !child.isWord "jc" && !child.isWord "numPr"
      let add := fun name xml => (rank PARAGRAPH_ORDER name, xml)
      let children := kept ++
        (style.elim [] fun style => [add "pStyle" (valued "pStyle" style)]) ++
        (list.elim [] fun list => [add "numPr" (numbered level list)]) ++
        (align.elim [] fun align => [add "jc" (valued "jc" align)])
      pure s!"<w:pPr>{byRank children}</w:pPr>"

def runProps (marks : List Mark) : Out String := do
  let wanted := lookOf marks
  let raw ← ((markNamed marks "run").bind fun mark => markText mark "props").elim (.ok "") (raw W)
  if raw = "" then pure (wrapRunProps (addRunLook wanted))
  else do
    let piece ← parsePiece W raw
    if runLook piece = wanted then pure raw
    else
      let managed := ["b", "i", "u", "strike", "color", "sz", "highlight"]
      let keepFonts := decide ((runLook piece).font = wanted.font)
      let kept := keptChildren RUN_ORDER raw piece fun child =>
        (!child.isWord "rFonts" || keepFonts) && !managed.any child.isWord
      let look := if keepFonts then { wanted with font := none } else wanted
      pure (wrapRunProps (kept ++ addRunLook look))

/-! ### Inline nodes -/

def changeOpen (tag : String) (mark : Mark) : Writing String := fun out =>
  let author := escape ((markText mark "author").getD "")
  let date := escape ((markText mark "date").getD "")
  .ok (s!"<w:{tag} w:id=\"{out.nextChange}\" w:author=\"{author}\" w:date=\"{date}\">",
    { out with nextChange := out.nextChange + 1 })

def linkOpen (link : Mark) : Writing String :=
  match markText link "relation" with
  | some relation => pure s!"<w:hyperlink xmlns:r=\"{RELATIONSHIPS}\" r:id=\"{escape relation}\">"
  | none => do
    let id ← newRelation
    let href := (markText link "href").getD ""
    modify fun out => { out with links := out.links ++ [(id, href)] }
    pure s!"<w:hyperlink xmlns:r=\"{RELATIONSHIPS}\" r:id=\"{id}\">"

/-- The asset of a picture, and the kind of picture that it is. -/
def pictureOf (node : Node) : Out (Hash × String) := do
  let asset ← Lib.require (.failed "an image has no asset") (textAttr node "asset")
  let hash ← Lib.require (.failed "the asset name is not a hash") (hashFromHex asset)
  let bytes ← Lib.require (.failed s!"the asset {asset} is missing") (W.assets.get hash)
  let extension ← Lib.require (.failed "this kind of picture cannot go in") (pictureExtension bytes)
  pure (hash, extension)

def newImage (node : Node) : Writing String := do
  let (hash, extension) ← pictureOf W node
  let id ← newRelation
  let out ← get
  set { out with images := out.images ++ [(id, hash, extension)], nextPicture := out.nextPicture + 1 }
  pure (pictureRun id out.nextPicture (W.length (node.attrs.lookup "width"))
    (W.length (node.attrs.lookup "height")))

/-- A run that holds a break or a tab. -/
def markerRun (node : Node) (marker : String) : Out String := do
  let props ← runProps W node.marks
  pure s!"<w:r>{props}<w:{marker}/></w:r>"

def textRun (units : List UInt16) (marks : List Mark) (deleted : Bool) : Out String := do
  let props ← runProps W marks
  pure s!"<w:r>{props}{textInner deleted [] (decodeUnits units)}</w:r>"

def inline (node : Node) (deleted : Bool) : Writing String :=
  match node.units with
  | some units => textRun W units node.marks deleted
  | none =>
    if nodeName node = "hardBreak" then markerRun W node "br"
    else if nodeName node = "tab" then markerRun W node "tab"
    else if nodeName node = "inlineOpaque" then raw W ((textAttr node "raw").getD "")
    else if nodeName node = "image" then (textAttr node "raw").elim (newImage W node) fun name => raw W name
    else failed s!"{nodeName node} cannot stand in a paragraph"

def inlines (deleted : Bool) : List Node → Writing String
  | [] => pure ""
  | node :: rest => do
    let here ← inline W node deleted
    let rest ← inlines deleted rest
    pure (here ++ rest)

/-- Puts runs in an element, where there is a mark for it. -/
def wrapped (mark : Option Mark) (opening : Mark → Writing String) (tag runs : String) : Writing String :=
  match mark with
  | none => pure runs
  | some mark => do
    let opening ← opening mark
    pure s!"{opening}{runs}</w:{tag}>"

def wrappedRuns (nodes : List Node) (wrappers : Wrappers) : Writing String := do
  let runs ← inlines W wrappers.deletion.isSome nodes
  let runs ← wrapped wrappers.link linkOpen "hyperlink" runs
  let runs ← wrapped wrappers.deletion (changeOpen "del") "del" runs
  wrapped wrappers.insertion (changeOpen "ins") "ins" runs

/-- Neighbours that have the same wrappers. -/
def grouped (nodes : List Node) : List (List Node) :=
  nodes.splitBy fun a b => decide (Wrappers.of a = Wrappers.of b)

def groups : List (List Node) → Writing String
  | [] => pure ""
  | [] :: rest => groups rest
  | (node :: nodes) :: rest => do
    let here ← wrappedRuns W (node :: nodes) (Wrappers.of node)
    let rest ← groups rest
    pure (here ++ rest)

def paragraph (node : Node) : Writing String := do
  let props ← paragraphProps W node
  let runs ← groups W (grouped node.content)
  pure s!"<w:p>{props}{runs}</w:p>"

/-! ### Blocks -/

/-- The original XML of a node that is as it came. -/
def sourceOf (node : Node) : Option String :=
  ((textAttr node "id").bind fun id => W.sources.lookup id).bind fun source =>
    if source.node = node then some source.xml else none

mutual

def block : Node → Writing String
  | .mk kind attrs content marks text leaf =>
    let node := Node.mk kind attrs content marks text leaf
    match sourceOf W node with
    | some xml => pure xml
    | none =>
      if nodeName node = "paragraph" then paragraph W node
      else if nodeName node = "table" then do
        let props ← ((textAttr node "props").elim (.ok "<w:tblPr/>") (raw W) : Out String)
        let rows ← rows content
        pure s!"<w:tbl>{props}{rows}</w:tbl>"
      else if nodeName node = "opaque" then raw W ((textAttr node "raw").getD "")
      else failed s!"{nodeName node} cannot stand as a block"

def rows : List Node → Writing String
  | [] => pure ""
  | .mk kind attrs content marks text leaf :: rest => do
    let props ← rawAttr W (.mk kind attrs content marks text leaf) "props"
    let cells ← cells content
    let rest ← rows rest
    pure s!"<w:tr>{props}{cells}</w:tr>{rest}"

def cells : List Node → Writing String
  | [] => pure ""
  | .mk kind attrs content marks text leaf :: rest => do
    let props ← rawAttr W (.mk kind attrs content marks text leaf) "props"
    let inner ← blocks content
    let rest ← cells rest
    pure s!"<w:tc>{props}{inner}</w:tc>{rest}"

def blocks : List Node → Writing String
  | [] => pure ""
  | node :: rest => do
    let here ← block node
    let rest ← blocks rest
    pure (here ++ rest)

end

end Writer

/-! ### Parts -/

/-- The XML of a new link and of a new picture in the relationships. -/
def linkRelation (link : String × String) : String :=
  s!"<Relationship Id=\"{link.1}\" Type=\"{HYPERLINK_KIND}\" Target=\"{escape link.2}\" TargetMode=\"External\"/>"

def pictureTarget (image : String × Hash × String) : String :=
  s!"media/{hex (image.2.1.take 8)}.{image.2.2}"

def imageRelation (image : String × Hash × String) : String :=
  s!"<Relationship Id=\"{image.1}\" Type=\"{IMAGE_KIND}\" Target=\"{pictureTarget image}\"/>"

/-- A text with more before the last tag that closes. -/
def beforeClosing (text added : String) : Option String :=
  (rfind ['<', '/'] text.toList).map fun closing =>
    slice text 0 closing ++ added ++ slice text closing text.toList.length

def insertPart (parts : Parts) (name : String) (bytes : Bytes) : Parts :=
  parts.takeWhile (fun part => decide (part.1 < name)) ++ (name, some bytes) ::
    (parts.dropWhile fun part => decide (part.1 < name)).filter fun part => part.1 ≠ name

def addPictures (assets : Assets) : List (String × Hash × String) → Parts → Out Parts
  | [], parts => .ok parts
  | image :: rest, parts => do
    let bytes ← Lib.require (.failed "an asset is missing") (assets.get image.2.1)
    addPictures assets rest (insertPart parts s!"word/{pictureTarget image}" bytes)

/-- The content types with one for each kind of picture that they do not know. -/
def addTypes (types : String) : List String → String → Out String
  | [], known => .ok known
  | extension :: rest, known =>
    if (rfind s!"Extension=\"{extension}\"".toList types.toList).isSome then addTypes types rest known
    else do
      let known ← Lib.require (.failed "the content types are broken")
        (beforeClosing known s!"<Default Extension=\"{extension}\" ContentType=\"image/{extension}\"/>")
      addTypes types rest known

def finishParts (package : Package) (assets : Assets) (out : Output) (parts : Parts) : Out Parts :=
  if out.links = [] ∧ out.images = [] then .ok parts
  else do
    let relations ← Lib.require (.failed "the document has no relationships") (package.text RELATIONS_PART)
    let parts ← addPictures assets out.images parts
    let added := String.join (out.links.map linkRelation) ++ String.join (out.images.map imageRelation)
    let updated ← Lib.require (.failed "the relationships are broken") (beforeClosing relations added)
    let parts := insertPart parts RELATIONS_PART (utf8 updated)
    let extensions := (out.images.map (·.2.2)).dedup
    if extensions = [] then pure parts
    else do
      let types ← Lib.require (.failed "the content types are missing") (package.text CONTENT_TYPES)
      let known ← addTypes types extensions types
      pure (insertPart parts CONTENT_TYPES (utf8 known))

/-! ### The file -/

def namespacesOf (parsed : Parsed) : String :=
  String.join <| parsed.namespaces.filterMap fun entry =>
    entry.1.map fun name => s!" xmlns:{name}=\"{escape entry.2}\""

/-- Where the blocks of a body start. -/
def blocksStart (body : Xml) : Nat := (body.children.head?).elim body.stop Xml.start

/-- Where they end: at the last section, or else where the body closes. -/
def blocksEnd (xml : String) (body : Xml) : Nat :=
  match body.children.reverse.find? fun child => child.isWord "sectPr" with
  | some sect => sect.start
  | none =>
    let tail := (slice xml body.start body.stop).toList
    body.start + (rfind ['<', '/'] tail).getD tail.length

variable {V : Type} (T : Tools V)

def writerOf (model : Model V) (main : MainPart) (assets : Assets) : Writer :=
  ⟨model.sources, model.raws, assets, namespacesOf main.parsed, T.parse, T.length⟩

/-- The text of the main part with other blocks in its body. -/
def newXml (main : MainPart) (blocks : String) : String :=
  slice main.xml 0 (blocksStart main.body) ++ blocks ++
    slice main.xml (blocksEnd main.xml main.body) main.xml.toList.length

def write (model : Model V) (file : Bytes) (assets : Assets) : Except Unwritable Bytes :=
  Except.mapError Unwritable.mk do
    let package ← openPackage T file
    let main ← mainPart T package
    let (blocks, out) ← (((writerOf T model main assets).blocks model.doc.content).run .begin).mapError
      Fault.text
    let xml := newXml main blocks
    if xml = main.xml then pure file
    else do
      let parts ← (finishParts package assets out [(MAIN_PART, some (utf8 xml))]).mapError Fault.text
      (rewrite T.zip file parts).mapError PackageError.text

end Kodosi.Docx
