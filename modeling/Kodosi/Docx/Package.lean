import Kodosi.Documents.Contract
import Kodosi.Docx.Xml
import Kodosi.Lib.Bytes

/-! An Open XML file as a package of parts. Writing copies each part that did not change as it is. -/

namespace Kodosi.Docx

open Documents Lib

def MOST_ENTRIES : Nat := 16 * 1024
def MOST_UNPACKED : Nat := 512 * 1024 * 1024
def MOST_RATIO : Nat := 1000
def RATIO_FROM : Nat := 1024 * 1024

inductive PackageError where
  | broken (problem : String)
  | unsafeFile (problem : String)

/-- An entry of an archive: the sizes that it states, and its bytes where they can be unpacked. -/
structure Entry where
  name : String
  size : Nat
  compressed : Nat
  bytes : Option Bytes
  deriving DecidableEq

/-- The library that reads and writes archives: the entries of a file, by name once each, the packed size
    of bytes, and the file of some entries. -/
structure Zip where
  entries : Bytes → Except String (List Entry)
  packed : Bytes → Nat
  finish : List Entry → Except String Bytes

/-- The parts of a path. -/
def pathParts (path : String) : List String := (path.toList.splitOn '/').map String.ofList

def safeName (name : String) : Bool :=
  name ≠ "" && name.toList.head? ≠ some '/' && decide ('\\' ∉ name.toList) &&
    decide ('\x00' ∉ name.toList) && decide (".." ∉ pathParts name)

/-- A checked package. -/
structure Package where
  entries : List Entry

/-- New bytes for parts of a package. Nothing removes a part. -/
abbrev Parts := List (String × Option Bytes)

structure Relation where
  kind : String
  target : String
  outside : Bool
  deriving DecidableEq

namespace Package

/-- The check of one entry, after entries that unpack to so many bytes. -/
def check (unpacked : Nat) (entry : Entry) : Except PackageError Nat := do
  Lib.reject (safeName entry.name = false) (.unsafeFile s!"the entry name {entry.name}")
  Lib.reject (MOST_UNPACKED < unpacked + entry.size) (.unsafeFile "too much unpacked data")
  Lib.reject (RATIO_FROM < entry.size ∧ MOST_RATIO < entry.size / max entry.compressed 1)
    (.unsafeFile s!"the ratio of {entry.name}")
  pure (unpacked + entry.size)

def «open» (Z : Zip) (file : Bytes) : Except PackageError Package := do
  let entries ← (Z.entries file).mapError .broken
  Lib.reject (MOST_ENTRIES < entries.length) (.unsafeFile "too many entries")
  let _ ← entries.foldlM check 0
  pure ⟨entries⟩

def bytes (package : Package) (name : String) : Option Bytes :=
  ((package.entries.find? fun entry => entry.name = name).bind (·.bytes)).map (·.take MOST_UNPACKED)

def text (package : Package) (name : String) : Option String := (package.bytes name).bind ofUtf8

end Package

/-! ### Relationships -/

def PACKAGE_RELATIONSHIPS : String := "http://schemas.openxmlformats.org/package/2006/relationships"

/-- One part of a path, behind those of the folder so far. -/
def enter (folders : List String) (step : String) : List String :=
  if step = "" ∨ step = "." then folders
  else if step = ".." then folders.dropLast
  else folders ++ [step]

/-- The part that a relative target names, seen from a folder. -/
def joinPart (folder target : String) : String :=
  let folders := if target.toList.head? = some '/' then [] else (pathParts folder).filter (· ≠ "")
  "/".intercalate ((pathParts target).foldl enter folders)

/-- A relationship with its id, if an element is a whole one. -/
def relationOf (folder : String) (node : Xml) : Option (String × Relation) := do
  let outside := decide (node.attributeOf "TargetMode" = some "External")
  let target ← node.attributeOf "Target"
  let id ← node.attributeOf "Id"
  let kind ← node.attributeOf "Type"
  pure (id, ⟨kind, if outside then target else joinPart folder target, outside⟩)

/-- The relationships that a text holds, in its order. -/
def relationsIn (parse : Parser) (folder text : String) : List (String × Relation) :=
  match parse text with
  | .error _ => []
  | .ok rels =>
    (rels.root.children.filter fun node => node.hasTag PACKAGE_RELATIONSHIPS "Relationship").filterMap
      (relationOf folder)

/-- The relationships of the main part: of two with one id the later one stands. -/
def Package.relations (parse : Parser) (package : Package) : List (String × Relation) :=
  ((package.text "word/_rels/document.xml.rels").elim [] (relationsIn parse "word")).reverse

/-! ### Writing -/

/-- The new entry of a changed part. -/
def deflated (Z : Zip) (name : String) (bytes : Bytes) : Entry :=
  ⟨name, bytes.length, Z.packed bytes, some bytes⟩

/-- What becomes of an entry: it stays as it is, or is written anew, or goes. -/
def rewriteEntry (Z : Zip) (parts : Parts) (entry : Entry) : Option Entry :=
  match parts.lookup entry.name with
  | none => some entry
  | some none => none
  | some (some bytes) => some (deflated Z entry.name bytes)

/-- The entry of a part that the file did not have. -/
def addedEntry (Z : Zip) (entries : List Entry) (part : String × Option Bytes) : Option Entry :=
  if part.1 ∈ entries.map (·.name) then none else part.2.map (deflated Z part.1)

def rewrittenEntries (Z : Zip) (parts : Parts) (entries : List Entry) : List Entry :=
  entries.filterMap (rewriteEntry Z parts) ++ parts.filterMap (addedEntry Z entries)

/-- Writes a package with some parts changed. All others keep their compressed bytes. -/
def rewrite (Z : Zip) (file : Bytes) (parts : Parts) : Except PackageError Bytes := do
  let entries ← (Z.entries file).mapError .broken
  (Z.finish (rewrittenEntries Z parts entries)).mapError .broken

end Kodosi.Docx
