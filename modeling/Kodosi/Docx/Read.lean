import Kodosi.Docx.Model
import Kodosi.Documents.Format

/-! Reading a .docx file: every element of the body becomes a block, and the original XML of each one is
    kept beside it. -/

namespace Kodosi.Docx

open Documents Text Lib

def MAIN_PART : String := "word/document.xml"
def SHORT_HASH : Nat := 16
/-- Stands in the text of a run that holds a page break, so that a view can start a new page. -/
def PAGE_BREAK : Char := '\x0c'

/-- The bytes of a hash. -/
abbrev Digest := { hash : Bytes // hash.length = HASH_BYTES }

/-! ### Hashes -/

def hexDigit (n : Nat) : Char := "0123456789abcdef".toList.getD n '0'

def hexByte (byte : UInt8) : List Char := [hexDigit (byte.toNat / 16), hexDigit (byte.toNat % 16)]

def hex (bytes : Bytes) : String := String.ofList (bytes.flatMap hexByte)

/-- What reading takes from outside: the text and the relationships of the main part, the package, the
    hash, and the pixels of a length that an attribute gives. -/
structure Reader where
  source : String
  relations : List (String × Relation)
  package : Package
  sha256 : Bytes → Digest
  pixels : Option String → Value

/-- What reading blocks keeps: the pieces of XML by their hash, and the pictures. -/
structure Kept where
  raws : List (String × String)
  assets : Assets

abbrev Reading := StateT Kept Out

def hashOf (sha256 : Bytes → Digest) (text : String) : String :=
  hex ((sha256 (utf8 text)).val.take (SHORT_HASH / 2))

/-! ### Pieces -/

/-- Text or null. -/
def orNull (text : Option String) : Value := Derive.writeOption .string text

def newMark (name : String) (attrs : Option Value) : Out Mark :=
  Mark.new schema ((schema.markId name).getD 0) attrs

def newNode (name : String) (attrs : Value) (content : List Node) : Out Node :=
  Node.new schema ((schema.nodeId name).getD 0) (some attrs) (Fragment.fromArray content) []

def emptyParagraph : Out Node := Node.new schema ((schema.nodeId "paragraph").getD 0) none [] []

def withMarksOf (name : String) (marks : List Mark) : Out Node :=
  Node.new schema ((schema.nodeId name).getD 0) none [] marks

def changeMark (name : String) (element : Xml) : Out Mark :=
  newMark name <| some <| .object
    [("author", .string ((element.wordAttribute "author").getD "")),
      ("date", .string ((element.wordAttribute "date").getD ""))]

def lookMarks (look : RunLook) : Out (List Mark) := do
  let plain ← ([(look.bold, "bold"), (look.italic, "italic"), (look.underline, "underline"),
    (look.strike, "strike")].filter (·.1)).mapM fun entry => newMark entry.2 none
  if look.color.isSome || look.size.isSome || look.font.isSome || look.highlight.isSome then do
    let style ← newMark "textStyle" <| some <| .object
      [("color", orNull look.color), ("size", orNull look.size), ("font", orNull look.font),
        ("highlight", orNull look.highlight)]
    pure (plain ++ [style])
  else pure plain

/-- Digits as a number of 32 bits, with or without a plus. -/
def parseU32 (text : String) : Option Nat :=
  let digits := match text.toList with
    | '+' :: rest => rest
    | digits => digits
  if digits ≠ [] ∧ digits.all Char.isDigit then
    some (digits.foldl (fun n c => n * 10 + (c.toNat - '0'.toNat)) 0) |>.filter (· < 2 ^ 32)
  else none

/-- A table that holds only rows of cells, and their properties. -/
def simpleRow (row : Xml) : Bool :=
  row.elements.all (fun cell => cell.isWord "tc" || cell.isWord "trPr" || cell.isWord "tblPrEx") &&
    row.elements.any fun cell => cell.isWord "tc"

def simpleTable (element : Xml) : Bool :=
  element.elements.all (fun child =>
    if child.isWord "tr" then simpleRow child else child.isWord "tblPr" || child.isWord "tblGrid") &&
    element.elements.any fun child => child.isWord "tr"

namespace Reader

variable (R : Reader)

def xmlOf (node : Xml) : String := node.source R.source

/-- Keeps a piece of the original XML, and gives the name that attributes hold. -/
def keep (xml : String) : Reading String := fun kept =>
  let hash := hashOf R.sha256 xml
  .ok (hash,
    if (kept.raws.lookup hash).isSome then kept else { kept with raws := (hash, xml) :: kept.raws })

def keepChild (parent : Xml) (name : String) : Reading (Option String) :=
  match parent.wordChild name with
  | some child => do
    let hash ← keep R (xmlOf R child)
    pure (some hash)
  | none => pure none

/-- Keeps a picture, and gives its hash. -/
def putAsset (bytes : Bytes) : Reading Hash := fun kept =>
  let hash := (R.sha256 bytes).val
  .ok (hash,
    if (kept.assets.get hash).isSome then kept
    else { kept with assets := ⟨(hash, bytes) :: kept.assets.held⟩ })

/-! ### Runs -/

def linkMark (element : Xml) : Out (Option Mark) :=
  match element.relationId "id" with
  | none => .ok none
  | some id =>
    match R.relations.lookup id with
    | none => .ok none
    | some relation => do
      let mark ← newMark "link" (some (.object [("href", .string relation.target), ("relation", .string id)]))
      pure (some mark)

def opaqueInline (element : Xml) (text : String) : Reading Node := do
  let raw ← keep R (xmlOf R element)
  newNode "inlineOpaque" (.object [("raw", .string raw), ("text", .string text)]) []

def drawing (run drawing : Xml) (marks : List Mark) : Reading Node := do
  let raw ← keep R (xmlOf R run)
  let picture := do
    let blip ← drawing.descendants.find? fun node => node.hasTag DRAWING_MAIN "blip"
    let id ← blip.relationId "embed"
    let relation ← R.relations.lookup id
    R.package.bytes relation.target
  let extent := drawing.descendants.find? fun node => node.hasTag WORD_DRAWING "extent"
  let pixels := fun name => R.pixels (extent.bind fun node => node.attributeOf name)
  match picture with
  | none => newNode "inlineOpaque" (.object [("raw", .string raw), ("text", .string (allText run))]) []
  | some bytes => do
    let hash ← putAsset R bytes
    Node.new schema ((schema.nodeId "image").getD 0)
      (some (.object [("asset", .string (hex hash)), ("width", pixels "cx"), ("height", pixels "cy"),
        ("raw", .string raw)])) [] marks

/-- What the children of a run become, from left to right: a child that the tree does not hold ends them
    with a piece for the whole run. -/
def runChildren (run : Xml) (marks : List Mark) : List Xml → Reading (List Node)
  | [] => pure []
  | child :: rest =>
    if child.isWord "rPr" then runChildren run marks rest
    else if child.isWord "t" || child.isWord "delText" then do
      let here ← (match child.textOf.filter (· ≠ "") with
        | some text => do
          let node ← Node.text schema (encodeUtf16 text) marks
          pure [node]
        | none => pure [] : Out (List Node))
      let rest ← runChildren run marks rest
      pure (here ++ rest)
    else if child.isWord "tab" then do
      let here ← withMarksOf "tab" marks
      let rest ← runChildren run marks rest
      pure (here :: rest)
    else if child.isWord "br" && (child.wordAttribute "type").isNone then do
      let here ← withMarksOf "hardBreak" marks
      let rest ← runChildren run marks rest
      pure (here :: rest)
    else if child.isWord "drawing" then do
      let here ← drawing R run child marks
      let rest ← runChildren run marks rest
      pure (here :: rest)
    else do
      let text := if child.isWord "br" && child.wordAttribute "type" = some "page" then
        (allText run).push PAGE_BREAK else allText run
      let piece ← opaqueInline R run text
      pure [piece]

def run (element : Xml) (marks : List Mark) : Reading (List Node) :=
  match element.wordChild "rPr" with
  | none => runChildren R element marks element.elements
  | some properties => do
    let props ← keep R (xmlOf R properties)
    let mark ← newMark "run" (some (.object [("props", .string props)]))
    let look ← lookMarks (runLook properties)
    runChildren R element (marks ++ mark :: look) element.elements

/-- The mark of an element that wraps runs. -/
def wrapperOf (element : Xml) : Out (Option Mark) :=
  if element.isWord "hyperlink" then linkMark R element
  else if element.isWord "ins" then (changeMark "insertion" element).map some
  else if element.isWord "del" then (changeMark "deletion" element).map some
  else .ok none

mutual

def inline (marks : List Mark) : Xml → Reading (List Node)
  | .element start stop tag children =>
    let element := Xml.element start stop tag children
    if element.isWord "r" then run R element marks
    else do
      let wrapper ← wrapperOf R element
      match wrapper with
      | none => do
        let piece ← opaqueInline R element (allText element)
        pure [piece]
      | some wrapper => inlinesOf (marks ++ [wrapper]) children
  | _ => pure []

/-- What the elements among some nodes become. -/
def inlinesOf (marks : List Mark) : List Xml → Reading (List Node)
  | [] => pure []
  | child :: rest => do
    let here ← inline marks child
    let rest ← inlinesOf marks rest
    pure (here ++ rest)

end

/-! ### Blocks -/

def pageBreak (properties : Option Xml) : Bool :=
  (properties.bind fun node => node.wordChild "pageBreakBefore").any fun node =>
    node.wordAttribute "val" ≠ some "0" && node.wordAttribute "val" ≠ some "false"

def paragraph (element : Xml) (id : Option String) : Reading Node := do
  let properties := element.wordChild "pPr"
  let value := fun name => (properties.bind fun node => node.wordChild name).bind fun node =>
    node.wordAttribute "val"
  let number := properties.bind fun node => node.wordChild "numPr"
  let numberValue := fun name => (number.bind fun node => node.wordChild name).bind fun node =>
    node.wordAttribute "val"
  let props ← keepChild R element "pPr"
  let inlines ← inlinesOf R [] (element.elements.filter fun child => !child.isWord "pPr")
  newNode "paragraph" (.object [("id", orNull id), ("style", orNull (value "pStyle")),
    ("align", orNull (value "jc")), ("numId", orNull (numberValue "numId")),
    ("ilvl", orNull (numberValue "ilvl")), ("props", orNull props),
    ("pageBreak", .bool (pageBreak properties))]) inlines

def opaqueBlock (element : Xml) (id : Option String) : Reading Node := do
  let raw ← keep R (xmlOf R element)
  newNode "opaque" (.object [("id", orNull id), ("raw", .string raw), ("text", .string (allText element))]) []

def tableProps (element : Xml) : String :=
  String.join ([element.wordChild "tblPr", element.wordChild "tblGrid"].filterMap (Option.map (xmlOf R)))

def spanOf (properties : Option Xml) : Nat :=
  (((properties.bind fun node => node.wordChild "gridSpan").bind fun node =>
    node.wordAttribute "val").bind parseU32).getD 1

def mergedOf (properties : Option Xml) : Bool :=
  (properties.bind fun node => node.wordChild "vMerge").any fun node =>
    node.wordAttribute "val" ≠ some "restart"

mutual

def block (id : Option String) : Xml → Reading Node
  | .element start stop tag children =>
    let element := Xml.element start stop tag children
    if element.isWord "p" then paragraph R element id
    else if element.isWord "tbl" && simpleTable element then do
      let props ← keep R (tableProps R element)
      let rows ← rowsOf children
      newNode "table" (.object [("id", orNull id), ("props", .string props)]) rows
    else opaqueBlock R element id
  | node => opaqueBlock R node id

def rowsOf : List Xml → Reading (List Node)
  | [] => pure []
  | .element start stop tag children :: rest =>
    let row := Xml.element start stop tag children
    if row.isWord "tr" then do
      let cells ← cellsOf children
      let props ← keepChild R row "trPr"
      let here ← newNode "tableRow" (.object [("props", orNull props)]) cells
      let rest ← rowsOf rest
      pure (here :: rest)
    else rowsOf rest
  | _ :: rest => rowsOf rest

def cellsOf : List Xml → Reading (List Node)
  | [] => pure []
  | .element start stop tag children :: rest =>
    let cell := Xml.element start stop tag children
    if cell.isWord "tc" then do
      let properties := cell.wordChild "tcPr"
      let blocks ← blocksOf children
      let blocks ← (if blocks = [] then emptyParagraph.map fun node => [node] else .ok blocks : Out (List Node))
      let props ← keepChild R cell "tcPr"
      let here ← newNode "tableCell" (.object [("props", orNull props),
        ("span", Derive.writeNat (spanOf properties)), ("merged", .bool (mergedOf properties))]) blocks
      let rest ← cellsOf rest
      pure (here :: rest)
    else cellsOf rest
  | _ :: rest => cellsOf rest

/-- The blocks of a cell: its elements, but for its properties. -/
def blocksOf : List Xml → Reading (List Node)
  | [] => pure []
  | child :: rest =>
    if child.isElement && !child.isWord "tcPr" then do
      let here ← block none child
      let rest ← blocksOf rest
      pure (here :: rest)
    else blocksOf rest

end

end Reader

/-! ### The body -/

/-- The blocks read so far, with how often the XML of each was seen, and where they came from. -/
structure Body where
  blocks : List Node
  seen : List (String × Nat)
  sources : List (String × Source)
  kept : Kept

/-- Gives a top-level block an id that stays the same for the same XML, and only one block in the
    document holds it. -/
def nextId (sha256 : Bytes → Digest) (seen : List (String × Nat)) (xml : String) :
    String × List (String × Nat) :=
  let hash := hashOf sha256 xml
  let count := (seen.lookup hash).getD 0 + 1
  (s!"{hash}-{count}", (hash, count) :: seen)

def topBlock (R : Reader) (body : Body) (element : Xml) : Out Body := do
  let xml := R.xmlOf element
  let (id, seen) := nextId R.sha256 body.seen xml
  let (node, kept) ← R.block (some id) element body.kept
  pure ⟨body.blocks ++ [node], seen, (id, ⟨node, xml⟩) :: body.sources, kept⟩

/-- An element of the body that is not a section. -/
def isBlock (node : Xml) : Bool := node.isElement && !node.isWord "sectPr"

/-- The blocks of a body, and a paragraph where it has none. -/
def bodyBlocks (R : Reader) (body : Xml) (assets : Assets) : Out Body := do
  let body ← (body.children.filter isBlock).foldlM (topBlock R) ⟨[], [], [], ⟨[], assets⟩⟩
  if body.blocks = [] then do
    let empty ← emptyParagraph
    pure { body with blocks := [empty] }
  else pure body

/-- What the format takes from other libraries: archives, the parser, the hash, and numbers with a
    fraction; and what a view needs in order to draw. -/
structure Tools (V : Type) where
  zip : Zip
  parse : Parser
  sha256 : Bytes → Digest
  pixels : Option String → Value
  length : Option Value → String
  view : Package → Xml → V

/-- The main part: its text, as it is parsed, and its body. -/
structure MainPart where
  xml : String
  parsed : Parsed
  body : Xml

variable {V : Type} (T : Tools V)

def PackageError.text : PackageError → String
  | .broken problem => s!"The file is not a package: {problem}"
  | .unsafeFile problem => s!"The file is not safe to open: {problem}"

def Fault.text : Fault → String
  | .failed message => message
  | .panic => ""

def mainPart (package : Package) : Except String MainPart := do
  let xml ← Lib.require "the file has no document part" (package.text MAIN_PART)
  let parsed ← T.parse xml
  let body ← Lib.require "the document has no body" (parsed.root.wordChild "body")
  pure ⟨xml, parsed, body⟩

def openPackage (file : Bytes) : Except String Package :=
  (Package.open T.zip file).mapError PackageError.text

def read (file : Bytes) (assets : Assets) : Except Unreadable (Model V × Assets) :=
  Except.mapError Unreadable.mk do
    let package ← openPackage T file
    let main ← mainPart T package
    let relations := package.relations T.parse
    let R : Reader := ⟨main.xml, relations, package, T.sha256, T.pixels⟩
    let body ← (bodyBlocks R main.body assets).mapError Fault.text
    let doc ← (Node.new schema topNode none (Fragment.fromArray body.blocks) []).mapError Fault.text
    pure (⟨doc, body.sources, body.kept.raws, T.view package main.body⟩, body.kept.assets)

end Kodosi.Docx
