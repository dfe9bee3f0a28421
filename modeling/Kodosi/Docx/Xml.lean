import Kodosi.Lib.Faults

/-! XML as the parser reports it: every node with the range of its source. -/

namespace Kodosi.Docx

def MAIN : String := "http://schemas.openxmlformats.org/wordprocessingml/2006/main"
def STRICT_MAIN : String := "http://purl.oclc.org/ooxml/wordprocessingml/main"
def RELATIONSHIPS : String := "http://schemas.openxmlformats.org/officeDocument/2006/relationships"
def STRICT_RELATIONSHIPS : String := "http://purl.oclc.org/ooxml/officeDocument/relationships"
def DRAWING_MAIN : String := "http://schemas.openxmlformats.org/drawingml/2006/main"
def WORD_DRAWING : String :=
  "http://schemas.openxmlformats.org/drawingml/2006/wordprocessingDrawing"

/-! ### Text -/

/-- The part of a text between two positions. -/
def slice (text : String) (lo hi : Nat) : String := String.ofList ((text.toList.take hi).drop lo)

/-- Where a pattern starts for the last time. -/
def rfind (pattern : List Char) : List Char → Option Nat
  | [] => if pattern = [] then some 0 else none
  | c :: rest =>
    match rfind pattern rest with
    | some i => some (i + 1)
    | none => if pattern.isPrefixOf (c :: rest) then some 0 else none

/-- Text for XML content. -/
def escape (text : String) : String :=
  String.join <| text.toList.map fun letter =>
    match letter with
    | '&' => "&amp;"
    | '<' => "&lt;"
    | '>' => "&gt;"
    | '"' => "&quot;"
    | letter => String.singleton letter

/-! ### Nodes -/

structure XmlAttribute where
  name : String
  space : Option String
  value : String

/-- What an element has of its own. -/
structure Tag where
  name : String
  space : Option String
  attributes : List XmlAttribute

/-- A node with the start and the end of its source. A node that is neither an element nor text is a
    comment or a processing instruction. -/
inductive Xml where
  | element (start stop : Nat) (tag : Tag) (children : List Xml)
  | text (start stop : Nat) (value : String)
  | other (start stop : Nat)

/-- A document that was read: its root element, and the namespaces in its scope. -/
structure Parsed where
  root : Xml
  namespaces : List (Option String × String)

/-- The parser. -/
abbrev Parser := String → Except String Parsed

namespace Xml

def start : Xml → Nat
  | element start _ _ _ | text start _ _ | other start _ => start

def stop : Xml → Nat
  | element _ stop _ _ | text _ stop _ | other _ stop => stop

def children : Xml → List Xml
  | element _ _ _ children => children
  | _ => []

def attributes : Xml → List XmlAttribute
  | element _ _ tag _ => tag.attributes
  | _ => []

def isElement : Xml → Bool
  | element _ _ _ _ => true
  | _ => false

def tagName : Xml → String
  | element _ _ tag _ => tag.name
  | _ => ""

/-- The text of a text node, or of an element whose first child is text. -/
def textOf : Xml → Option String
  | text _ _ value => some value
  | element _ _ _ (text _ _ value :: _) => some value
  | _ => none

/-- Whether a node is an element of this name and namespace. -/
def hasTag (node : Xml) (space name : String) : Bool :=
  match node with
  | element _ _ tag _ => tag.space = some space && tag.name = name
  | _ => false

def isWord (node : Xml) (name : String) : Bool := node.hasTag MAIN name || node.hasTag STRICT_MAIN name

def wordChild (node : Xml) (name : String) : Option Xml := node.children.find? fun child => child.isWord name

def attributeIn (node : Xml) (spaces : List String) (name : String) : Option String :=
  (node.attributes.find? fun entry =>
    entry.name = name && entry.space.any fun space => decide (space ∈ spaces)).map (·.value)

def wordAttribute (node : Xml) (name : String) : Option String :=
  node.attributeIn [MAIN, STRICT_MAIN] name

def relationId (node : Xml) (name : String) : Option String :=
  node.attributeIn [RELATIONSHIPS, STRICT_RELATIONSHIPS] name

/-- An attribute without a namespace. -/
def attributeOf (node : Xml) (name : String) : Option String :=
  (node.attributes.find? fun entry => entry.name = name && entry.space.isNone).map (·.value)

mutual

/-- A node and all that is below it, in the order of the text. -/
def descendants : Xml → List Xml
  | element start stop tag children => element start stop tag children :: descendantsOf children
  | node => [node]

def descendantsOf : List Xml → List Xml
  | [] => []
  | child :: rest => child.descendants ++ descendantsOf rest

end

/-- The source of a node. -/
def source (xml : String) (node : Xml) : String := slice xml node.start node.stop

def elements (node : Xml) : List Xml := node.children.filter isElement

end Xml

def allText (node : Xml) : String :=
  String.join <| node.descendants.filterMap fun inner =>
    match inner with
    | .text _ _ value => some value
    | _ => none

end Kodosi.Docx
