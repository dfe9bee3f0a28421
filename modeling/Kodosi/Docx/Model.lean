import Kodosi.Docx.Package
import Kodosi.Text.Step

/-! The live copy of a .docx file: a text tree of the body, and the original XML of each block. -/

namespace Kodosi.Docx

open Documents Text Lib

/-! ### The schema -/

def withDefault (name : String) (value : Value) : Attribute := ⟨name, some value⟩

/-- The node and mark types of a document. -/
def schema : Schema where
  nodes :=
    [⟨"doc", [], true, false, 1, some []⟩,
      ⟨"paragraph", [withDefault "id" .null, withDefault "style" .null, withDefault "align" .null,
        withDefault "numId" .null, withDefault "ilvl" .null, withDefault "props" .null,
        withDefault "pageBreak" (.bool false)], true, false, 3, none⟩,
      ⟨"table", [withDefault "id" .null, withDefault "props" .null], true, false, 4, some []⟩,
      ⟨"tableRow", [withDefault "props" .null], true, false, 6, some []⟩,
      ⟨"tableCell", [withDefault "props" .null, withDefault "span" (.number "1"),
        withDefault "merged" (.bool false)], true, false, 1, some []⟩,
      ⟨"opaque", [withDefault "id" .null, withDefault "raw" .null, withDefault "text" (.string "")],
        true, true, 0, some []⟩,
      ⟨"text", [], false, false, 0, some []⟩,
      ⟨"hardBreak", [], false, false, 0, some []⟩,
      ⟨"tab", [], false, false, 0, some []⟩,
      ⟨"image", [⟨"asset", none⟩, ⟨"width", none⟩, ⟨"height", none⟩, withDefault "raw" .null],
        false, true, 0, some []⟩,
      ⟨"inlineOpaque", [⟨"raw", none⟩, withDefault "text" (.string "")], false, true, 0, some []⟩]
  marks :=
    [⟨"run", [⟨"props", none⟩], []⟩, ⟨"bold", [], [1]⟩, ⟨"italic", [], [2]⟩, ⟨"underline", [], [3]⟩,
      ⟨"strike", [], [4]⟩,
      ⟨"textStyle", [withDefault "color" .null, withDefault "size" .null, withDefault "font" .null,
        withDefault "highlight" .null], [5]⟩,
      ⟨"link", [⟨"href", none⟩, withDefault "relation" .null], [6]⟩,
      ⟨"insertion", [withDefault "author" (.string ""), withDefault "date" (.string "")], [7]⟩,
      ⟨"deletion", [withDefault "author" (.string ""), withDefault "date" (.string "")], [8]⟩]
  matchStates :=
    [⟨true, []⟩, ⟨false, [(1, 2), (2, 2), (5, 2)]⟩, ⟨true, [(1, 2), (2, 2), (5, 2)]⟩,
      ⟨true, [(6, 3), (7, 3), (8, 3), (9, 3), (10, 3)]⟩, ⟨false, [(3, 5)]⟩, ⟨true, [(3, 5)]⟩,
      ⟨false, [(4, 7)]⟩, ⟨true, [(4, 7)]⟩]
  text := 6
  hasText := by decide
  hasEmpty := rfl

def topNode : NodeId := 0

def nodeName (node : Node) : String := schema.nodeName node.kind

def markName (mark : Mark) : String := (schema.mark mark.kind).name

def textAttr (node : Node) (name : String) : Option String := (node.attrs.lookup name).bind asStr

def markNamed (marks : List Mark) (name : String) : Option Mark :=
  marks.find? fun mark => markName mark = name

def markText (mark : Mark) (name : String) : Option String := (mark.attrs.lookup name).bind asStr

/-! ### Equal nodes -/

mutual

def sameNode : (a b : Node) → Decidable (a = b)
  | .mk k at_ c ms t l, .mk k' at' c' ms' t' l' =>
    @decidable_of_iff _ (c = c' ∧ k = k' ∧ at_ = at' ∧ ms = ms' ∧ t = t' ∧ l = l')
      (by simp only [Node.mk.injEq]; tauto)
      (@instDecidableAnd _ _ (sameNodes c c') inferInstance)

def sameNodes : (as bs : List Node) → Decidable (as = bs)
  | [], [] => .isTrue rfl
  | [], _ :: _ | _ :: _, [] => .isFalse nofun
  | a :: as, b :: bs =>
    @decidable_of_iff _ (a = b ∧ as = bs) (by simp)
      (@instDecidableAnd _ _ (sameNode a b) (sameNodes as bs))

end

instance : DecidableEq Node := sameNode

/-! ### The model -/

/-- A top-level block as it came from the file. -/
structure Source where
  node : Node
  xml : String

/-- The live copy of a .docx file. What a view needs in order to draw is left to the reader. -/
structure Model (V : Type) where
  doc : Node
  sources : List (String × Source)
  /-- Pieces of the original XML that the tree does not hold, by the hash in its attributes. -/
  raws : List (String × String)
  view : V

/-- The look of a run, which marks hold apart from its original XML. -/
structure RunLook where
  bold : Bool
  italic : Bool
  underline : Bool
  strike : Bool
  color : Option String
  size : Option String
  font : Option String
  highlight : Option String
  deriving DecidableEq

def truth (value : Option String) : Bool :=
  value ≠ some "0" && value ≠ some "false" && value ≠ some "off"

def runLook (properties : Xml) : RunLook :=
  let on := fun name => (properties.wordChild name).any fun node => truth (node.wordAttribute "val")
  let value := fun name key => (properties.wordChild name).bind fun node => node.wordAttribute key
  { bold := on "b"
    italic := on "i"
    underline := (properties.wordChild "u").any fun node => node.wordAttribute "val" ≠ some "none"
    strike := on "strike"
    color := (value "color" "val").filter (· ≠ "auto")
    size := value "sz" "val"
    font := value "rFonts" "ascii"
    highlight := value "highlight" "val" }

end Kodosi.Docx
