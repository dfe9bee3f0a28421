import Kodosi.Documents.Format
import Kodosi.Lib.Checks

/-! A PDF as its objects, the pages that reading finds, and the live copy of a file. `F` are the numbers of the file, `R`
    those of the program and `O` every other object. -/

namespace Kodosi.Pdf
open Kodosi.Lib
open Kodosi.Documents (Refused Unreadable)

structure ObjectId where
  number : UInt32
  generation : UInt16
  deriving DecidableEq

/-! ### Page names -/

def pageId (id : ObjectId) : String := id.number.toNat.repr ++ "-" ++ id.generation.toNat.repr

def dropPlus : List Char → List Char
  | '+' :: digits => digits
  | digits => digits

/-- A number below a bound as text, which a plus may lead. -/
def parse (bound : Nat) (text : List Char) : Option Nat :=
  let digits := dropPlus text
  if digits ≠ [] ∧ digits.all Char.isDigit ∧ Nat.ofDigitChars 10 digits 0 < bound then some (Nat.ofDigitChars 10 digits 0)
  else none

def objectId (id : String) : Option ObjectId :=
  let (number, rest) := (id.toList.dropWhile (· == 'a')).span (· != '-')
  match rest with
  | [] => none
  | _ :: generation => do
    let number ← parse (2 ^ 32) number
    let generation ← parse (2 ^ 16) generation
    return ⟨.ofNat number, .ofNat generation⟩

theorem isDigit_repr {n : Nat} {c : Char} (h : c ∈ n.repr.toList) : c.isDigit = true := by
  rw [Nat.toList_repr] at h
  exact Nat.isDigit_of_mem_toDigits (b := 10) (by decide) (by decide) h

theorem repr_ne_nil (n : Nat) : n.repr.toList ≠ [] := by
  rw [Nat.toList_repr]
  exact Nat.toDigits_ne_nil

theorem dropPlus_digits {text : List Char} (h : ∀ c ∈ text, c.isDigit = true) : dropPlus text = text := by
  cases text with
  | nil => rfl
  | cons c rest =>
    refine dropPlus.eq_2 _ fun digits heq => ?_
    have hc := h c List.mem_cons_self
    rw [(List.cons.inj heq).1] at hc
    exact absurd hc (by decide)

theorem parse_repr {bound n : Nat} (h : n < bound) : parse bound n.repr.toList = some n := by
  have hvalue : Nat.ofDigitChars 10 n.repr.toList 0 = n := by rw [Nat.toList_repr, Nat.ofDigitChars_ten_toDigits]
  have hdigits : n.repr.toList.all Char.isDigit = true := List.all_eq_true.mpr fun _ => isDigit_repr
  rw [parse, dropPlus_digits fun _ => isDigit_repr, if_pos ⟨repr_ne_nil n, hdigits, hvalue.symm ▸ h⟩, hvalue]

/-- A page's name names its object. -/
theorem objectId_pageId (id : ObjectId) : objectId (pageId id) = some id := by
  have htext : (pageId id).toList = id.number.toNat.repr.toList ++ '-' :: id.generation.toNat.repr.toList := by
    simp [pageId]
  have hdrop : (pageId id).toList.dropWhile (· == 'a') = (pageId id).toList := by
    rw [htext]
    cases hnumber : id.number.toNat.repr.toList with
    | nil => exact absurd hnumber (repr_ne_nil _)
    | cons c rest =>
      have hc : c.isDigit = true := isDigit_repr (hnumber ▸ List.mem_cons_self)
      refine List.dropWhile_cons_of_neg fun ha => ?_
      rw [beq_iff_eq.mp ha] at hc
      exact absurd hc (by decide)
  have hspan : (pageId id).toList.span (· != '-') =
      (id.number.toNat.repr.toList, '-' :: id.generation.toNat.repr.toList) := by
    rw [htext, List.span_eq_takeWhile_dropWhile]
    have hall : ∀ c ∈ id.number.toNat.repr.toList, (c != '-') = true := by
      intro c hc
      have hd := isDigit_repr hc
      refine bne_iff_ne.mpr fun heq => ?_
      rw [heq] at hd
      exact absurd hd (by decide)
    rw [List.takeWhile_append_of_pos hall, List.dropWhile_append_of_pos hall]
    simp
  rw [objectId, hdrop, hspan]
  dsimp only
  rw [parse_repr id.number.toNat_lt, parse_repr id.generation.toNat_lt]
  simp

theorem pageId_inj {a b : ObjectId} (h : pageId a = pageId b) : a = b := by
  have hsame := objectId_pageId a
  rw [h, objectId_pageId] at hsame
  exact (Option.some.inj hsame).symm

/-! ### The objects of a file -/

/-- What a dictionary holds under a key. -/
inductive Object (F O : Type) where
  | integer (n : Int64)
  | real (x : F)
  | reference (id : ObjectId)
  | array (items : List (Object F O))
  | other (o : O)

variable {File F R O N V : Type}

def Object.asReference : Object F O → Option ObjectId
  | .reference id => some id
  | _ => none

def Object.asInteger : Object F O → Option Int64
  | .integer n => some n
  | _ => none

abbrev Dictionary (F O : Type) := String → Option (Object F O)

def Dictionary.set (d : Dictionary F O) (key : String) (value : Object F O) : Dictionary F O :=
  Function.update d key (some value)

/-- An object that has an id. -/
inductive Indirect (F O : Type) where
  | dictionary (d : Dictionary F O)
  | other (o : O)

/-- The objects of a file, or the new ones of an update of it. -/
abbrev Objects (F O : Type) := ObjectId → Option (Indirect F O)

def Objects.dictionary (objects : Objects F O) (id : ObjectId) : Option (Dictionary F O) :=
  match objects id with
  | some (.dictionary d) => some d
  | _ => none

/-- Sets a value of a dictionary that is there. -/
def Objects.set (objects : Objects F O) (id : ObjectId) (key : String) (value : Object F O) : Option (Objects F O) :=
  (objects.dictionary id).map fun d => Function.update objects id (some (.dictionary (d.set key value)))

structure Document (F O : Type) where
  objects : Objects F O
  /-- The catalog's object, as the trailer says. -/
  root : Option ObjectId

def Document.dictionary (d : Document F O) (id : ObjectId) : Option (Dictionary F O) := d.objects.dictionary id

/-- The root of the page tree. -/
def Document.pagesRoot (d : Document F O) : Option ObjectId := do
  let catalog ← d.root.bind d.dictionary
  let pages ← catalog "Pages"
  pages.asReference

/-- A document after an update, whose objects go before the old ones. -/
def Document.updated (d : Document F O) (new : Objects F O) : Document F O :=
  { d with objects := fun id => (new id).or (d.objects id) }

/-- The library that reads and writes PDF files. -/
structure Lopdf (File F O : Type) where
  load : File → Option (Document F O)
  /-- Appends the new objects to a file. -/
  save : File → Objects F O → File
  getPages : Document F O → List ObjectId
  /-- The array that an object is or refers to. -/
  array : Document F O → Object F O → Option (List (Object F O))

/-- Two sets of objects that differ in dictionaries alone. -/
def Objects.SameBesides (a b : Objects F O) : Prop :=
  ∀ id, a id = b id ∨ ((a.dictionary id).isSome ∧ (b.dictionary id).isSome)

/-- What the library's documentation says. -/
structure Lopdf.Lawful (L : Lopdf File F O) : Prop where
  load_save : ∀ {file d new}, L.load file = some d → L.load (L.save file new) = some (d.updated new)
  /-- The kids of a root are the pages in their order when each of them is a page. -/
  flat : ∀ {d d' : Document F O} {root tree ids}, d'.pagesRoot = some root → d'.dictionary root = some tree →
    tree "Kids" = some (.array (ids.map .reference)) → root ∉ ids →
    (∀ id ∈ ids, ∃ page page', id ∈ L.getPages d ∧ d.dictionary id = some page ∧ d'.dictionary id = some page' ∧
      page' "Type" = page "Type") → L.getPages d' = ids
  root_not_page : ∀ {d : Document F O} {root}, d.pagesRoot = some root → root ∉ L.getPages d
  /-- References lead on until there is none. -/
  array_same : ∀ {d d' : Document F O}, d.objects.SameBesides d'.objects → ∀ o, L.array d' o = L.array d o

/-- The numbers of the program. -/
structure Floats (F R : Type) where
  ofInteger : Int64 → R
  ofReal : F → R
  sub : R → R → R

/-! ### Pages -/

structure Page (R : Type) where
  id : String
  width : R
  height : R
  rotation : Int64

def MOST_FIELD_DEPTH : Nat := 32

def inheritedFrom (d : Document F O) : Nat → Dictionary F O → String → Option (Object F O)
  | 0, _, _ => none
  | n + 1, current, key =>
    match current key with
    | some value => some value
    | none => do
      let parent ← (current "Parent").bind Object.asReference
      inheritedFrom d n (← d.dictionary parent) key

/-- A page's own value, or the one that it inherits from its parents. -/
def inherited (d : Document F O) (page : Dictionary F O) (key : String) : Option (Object F O) :=
  inheritedFrom d MOST_FIELD_DEPTH page key

def numberOf (floats : Floats F R) : Object F O → Option R
  | .integer n => some (floats.ofInteger n)
  | .real x => some (floats.ofReal x)
  | _ => none

def numbers (L : Lopdf File F O) (floats : Floats F R) (d : Document F O) (object : Object F O) : Option (List R) :=
  (L.array d object).bind fun items => items.mapM (numberOf floats)

/-- A page by its box and its rotation. `broken` is the library's own text. -/
def pageOf (L : Lopdf File F O) (floats : Floats F R) (broken : String) (d : Document F O) (id : ObjectId) :
    Except Unreadable (Page R) := do
  let dictionary ← require ⟨broken⟩ (d.dictionary id)
  let bounds ← require ⟨"a page has no size"⟩ ((inherited d dictionary "MediaBox").bind (numbers L floats d))
  match bounds with
  | [left, bottom, right, top] =>
    let rotation := ((inherited d dictionary "Rotate").bind Object.asInteger).getD 0
    return ⟨pageId id, floats.sub right left, floats.sub top bottom, rotation⟩
  | _ => throw ⟨"a page has a broken size"⟩

def pagesOf (L : Lopdf File F O) (floats : Floats F R) (broken : String) (d : Document F O) :
    Except Unreadable (List (Page R)) :=
  (L.getPages d).mapM (pageOf L floats broken d)

/-- The live copy of a PDF file. `N` are its notes and `V` its form values. -/
structure Model (File R N V : Type) where
  file : File
  asset : String
  pages : List (Page R)
  notes : N
  fields : V
  fileNotes : N
  fileFields : V

end Kodosi.Pdf
