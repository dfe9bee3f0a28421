import Kodosi.Documents.Contract
import Kodosi.Lib.Faults

/-! The node and mark types of tree text. A schema is held as the tables that its content rules compile
    to. -/

namespace Kodosi.Text

open Documents Lib

abbrev NodeId := Nat
abbrev MarkId := Nat
abbrev MatchId := Nat

def EMPTY_MATCH : MatchId := 0

/-- The attributes of a node or a mark, in the order of their type. -/
abbrev Attrs := List (String × Value)

/-! ### Equal attributes -/

mutual

def sameValue : (a b : Value) → Decidable (a = b)
  | .null, .null => .isTrue rfl
  | .bool a, .bool b => decidable_of_iff (a = b) (by simp)
  | .number a, .number b => decidable_of_iff (a = b) (by simp)
  | .string a, .string b => decidable_of_iff (a = b) (by simp)
  | .array as, .array bs => @decidable_of_iff _ (as = bs) (by simp) (sameValues as bs)
  | .object as, .object bs => @decidable_of_iff _ (as = bs) (by simp) (sameFields as bs)
  | .null, .bool _ | .null, .number _ | .null, .string _ | .null, .array _ | .null, .object _
  | .bool _, .null | .bool _, .number _ | .bool _, .string _ | .bool _, .array _ | .bool _, .object _
  | .number _, .null | .number _, .bool _ | .number _, .string _ | .number _, .array _
  | .number _, .object _ | .string _, .null | .string _, .bool _ | .string _, .number _
  | .string _, .array _ | .string _, .object _ | .array _, .null | .array _, .bool _
  | .array _, .number _ | .array _, .string _ | .array _, .object _ | .object _, .null
  | .object _, .bool _ | .object _, .number _ | .object _, .string _ | .object _, .array _ =>
    .isFalse nofun

def sameValues : (as bs : List Value) → Decidable (as = bs)
  | [], [] => .isTrue rfl
  | [], _ :: _ | _ :: _, [] => .isFalse nofun
  | a :: as, b :: bs =>
    @decidable_of_iff _ (a = b ∧ as = bs) (by simp)
      (@instDecidableAnd _ _ (sameValue a b) (sameValues as bs))

def sameFields : (as bs : List (String × Value)) → Decidable (as = bs)
  | [], [] => .isTrue rfl
  | [], _ :: _ | _ :: _, [] => .isFalse nofun
  | (a, v) :: as, (b, w) :: bs =>
    @decidable_of_iff _ (a = b ∧ v = w ∧ as = bs) (by simp [and_assoc])
      (@instDecidableAnd _ _ inferInstance
        (@instDecidableAnd _ _ (sameValue v w) (sameFields as bs)))

end

instance : DecidableEq Value := sameValue

/-- `Value::get` with a field's name. -/
def Value.field (name : String) : Value → Option Value
  | .object fields => fields.lookup name
  | _ => none

/-! ### Types -/

structure Attribute where
  name : String
  default : Option Value

structure NodeType where
  name : String
  attrs : List Attribute
  isBlock : Bool
  atom : Bool
  contentMatch : MatchId
  markSet : Option (List MarkId)

structure MarkType where
  name : String
  attrs : List Attribute
  excluded : List MarkId

structure MatchState where
  validEnd : Bool
  next : List (NodeId × MatchId)

/-- The id of a name: a later type of the same name takes it over. -/
def idOf (names : List String) (name : String) : Option Nat :=
  (names.zipIdx.reverse.find? fun entry => entry.1 = name).map (·.2)

/-- The node and mark types of a document. Every schema has a text type, and compiling starts from the
    rule that takes no children. -/
structure Schema where
  nodes : List NodeType
  marks : List MarkType
  matchStates : List MatchState
  text : NodeId
  hasText : idOf (nodes.map (·.name)) "text" = some text
  hasEmpty : matchStates[EMPTY_MATCH]? = some ⟨true, []⟩

theorem idOf_name {names : List String} {name : String} {i : Nat} (h : idOf names name = some i) :
    names[i]? = some name := by
  obtain ⟨⟨found, j⟩, hfound, rfl⟩ := Option.map_eq_some_iff.mp h
  have hname : found = name := by simpa using List.find?_some hfound
  have hmem := List.mem_of_find?_eq_some hfound
  rw [List.mem_reverse, List.mem_zipIdx_iff_getElem?] at hmem
  rw [← hname]
  exact hmem

/-- Two names do not share an id. -/
theorem idOf_inj {names : List String} {a b : String} {i : Nat} (ha : idOf names a = some i)
    (hb : idOf names b = some i) : a = b :=
  Option.some.inj ((idOf_name ha).symm.trans (idOf_name hb))

namespace Schema

variable (S : Schema)

def nodeId (name : String) : Option NodeId := idOf (S.nodes.map (·.name)) name

def markId (name : String) : Option MarkId := idOf (S.marks.map (·.name)) name

def textNode : NodeId := S.text

/-- A type of this schema by its id. Ids come from these tables. -/
def node (id : NodeId) : NodeType := S.nodes.getD id ⟨"", [], false, false, EMPTY_MATCH, none⟩

def mark (id : MarkId) : MarkType := S.marks.getD id ⟨"", [], []⟩

def state (id : MatchId) : MatchState := S.matchStates.getD id ⟨false, []⟩

def nodeName (id : NodeId) : String := (S.node id).name

def isLeaf (id : NodeId) : Bool := (S.node id).contentMatch = EMPTY_MATCH

def isAtom (id : NodeId) : Bool := S.isLeaf id || (S.node id).atom

def isInline (id : NodeId) : Bool := !(S.node id).isBlock

/-- The attributes of a type, each from what is given or by its default. -/
def computeAttrs (attrs : List Attribute) (given : Option Value) : Out Attrs :=
  attrs.mapM fun rule => do
    let value ← Lib.require
      (.failed ("No value supplied for attribute " ++ rule.name))
      ((given.bind (Value.field rule.name)).or rule.default)
    pure (rule.name, value)

def nodeAttrs (id : NodeId) (given : Option Value) : Out Attrs := computeAttrs (S.node id).attrs given

def markAttrs (id : MarkId) (given : Option Value) : Out Attrs := computeAttrs (S.mark id).attrs given

def excludes (mark other : MarkId) : Bool := other ∈ (S.mark mark).excluded

def allowsMarkType (node : NodeId) (mark : MarkId) : Bool :=
  ((S.node node).markSet.map fun set => decide (mark ∈ set)).getD true

/-- Whether the contents of two types have a first child's type in common. -/
def compatibleContent (node other : NodeId) : Bool :=
  node = other ||
    (S.state (S.node node).contentMatch).next.any fun left =>
      (S.state (S.node other).contentMatch).next.any fun right => right.1 = left.1

/-- Where a content rule stands after children of these types. -/
def matchKinds (start : MatchId) : List NodeId → Option MatchId
  | [] => some start
  | kind :: kinds =>
    ((S.state start).next.find? fun entry => entry.1 = kind).bind fun entry =>
      matchKinds entry.2 kinds

end Schema

end Kodosi.Text
