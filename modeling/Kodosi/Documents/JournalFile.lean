import Kodosi.Documents.Live
import Kodosi.Lib.Log
import Kodosi.Lib.Run

/-! The journal as it stands in its folder: the file as it was opened, what a restart needs beside the records, and the
    records one after the other. Whatever part of the records a crash leaves, the journal comes back with those that
    are whole, and goes on from there. -/

namespace Kodosi.Documents.OnDisk
open Kodosi.Lib

def CHANGE : UInt8 := 0
def SAVED : UInt8 := 1
def HEADER : Nat := 1 + 4

/-- What a restart needs beside the records. -/
structure Meta where
  path : String
  epoch : Nat
  firstRev : Nat
  seqs : Std.TreeMap String Nat

/-- What the journal takes from its libraries. -/
structure Libraries where
  /-- The JSON writer of a journal's `Meta`, and its reader. -/
  toVec : Meta → Option Bytes
  fromSlice : Bytes → Option Meta
  sha256 : Bytes → Hash

/-- The files in the folder of a journal. -/
structure Folder where
  original : Option Bytes
  records : Option Bytes
  «meta» : Option Bytes
  assets : Option (List (String × Bytes))

/-- A journal as a restart finds it. -/
structure Found where
  original : Bytes
  restored : Restored
  records : List Bytes
  assets : Assets
  savedHash : Option Hash

/-- A copy of the file as it was opened, and each change since, with the folder as the disk has it. -/
structure Journal where
  folder : Folder
  isOpen : Bool
  bytes : Nat

/-- Puts an asset under the hash of its bytes. -/
def putAsset (sha256 : Bytes → Hash) (a : Assets) (bytes : Bytes) : Assets :=
  match a.get (sha256 bytes) with
  | some _ => a
  | none => ⟨(sha256 bytes, bytes) :: a.held⟩

/-! ### What is written -/

/-- Starts a journal from a file, in place of any earlier one. -/
def start (L : Libraries) (path : String) (file : Bytes) (epoch firstRev : Nat) (seqs : Std.TreeMap String Nat) :
    Option Journal := do
  let bytes ← L.toVec ⟨path, epoch, firstRev, seqs⟩
  return ⟨⟨some file, some [], some bytes, some []⟩, true, 0⟩

namespace Journal

/-- Writes one record at the end of the file, when its length has a number. -/
def record (j : Journal) (kind : UInt8) (body : Bytes) : Option Journal :=
  if body.length < 2 ^ 32 then
    let record := kind :: toBe 4 body.length ++ body
    let records := if j.isOpen then some (j.folder.records.getD [] ++ record) else j.folder.records
    some { j with folder := { j.folder with records }, bytes := j.bytes + record.length }
  else none

def append (j : Journal) (change : Bytes) : Option Journal := j.record CHANGE change

def saved (j : Journal) (rev : UInt64) (hash : Hash) : Option Journal :=
  j.record SAVED (toBe 8 rev.toNat ++ hash)

def keepAsset (j : Journal) (name : String) (bytes : Bytes) : Option Journal :=
  j.folder.assets.map fun assets =>
    { j with folder := { j.folder with assets := some ((name, bytes) :: assets.filter (·.1 != name)) } }

def remove (j : Journal) : Journal := { j with folder := ⟨none, none, none, none⟩, isOpen := false }

end Journal

/-! ### What is found -/

/-- The kind and the body of the record in front, and what comes after it, when the record is whole. -/
def nextRecord : Bytes → Option ((UInt8 × Bytes) × Bytes)
  | kind :: a :: b :: c :: d :: tail =>
    let length := ofBe [a, b, c, d]
    if length ≤ tail.length then some ((kind, tail.take length), tail.drop length) else none
  | _ => none

/-- What the records held so far. -/
structure Seen where
  records : List Bytes
  saved : List Nat
  savedHash : Option Hash

/-- Takes in one record; there are two kinds. -/
def Seen.take (seen : Seen) (kind : UInt8) (body : Bytes) : Option Seen :=
  if kind = CHANGE then some { seen with records := seen.records ++ [body] }
  else if kind = SAVED then
    if 8 ≤ body.length then
      let hash := body.drop 8
      some { seen with
        saved := seen.saved ++ [ofBe (body.take 8)]
        savedHash := if hash.length = HASH_BYTES then some hash else none }
    else some seen
  else none

theorem length_nextRecord {bytes tail : Bytes} {record : UInt8 × Bytes} (h : nextRecord bytes = some (record, tail)) :
    tail.length < bytes.length := by
  match bytes with
  | [] | [_] | [_, _] | [_, _, _] | [_, _, _, _] => simp [nextRecord] at h
  | kind :: a :: b :: c :: d :: rest =>
    simp only [nextRecord] at h
    split at h
    · obtain ⟨-, rfl⟩ := Prod.mk.inj (Option.some.inj h)
      simp only [List.length_drop, List.length_cons]
      omega
    · cases h

/-- Takes in each whole record, and gives what is left after the last one. -/
def readRecords (seen : Seen) (rest : Bytes) : Option (Seen × Bytes) :=
  match _h : nextRecord rest with
  | none => some (seen, rest)
  | some ((kind, body), tail) =>
    match seen.take kind body with
    | some seen => readRecords seen tail
    | none => none
termination_by rest.length
decreasing_by exact length_nextRecord _h

/-- Opens the journal of an earlier run, if a usable one is there. A torn last record goes. -/
def find (L : Libraries) (folder : Folder) (path : String) : Option (Journal × Found) := do
  let known ← L.fromSlice (← folder.meta)
  guard (known.path = path)
  let original ← folder.original
  let bytes := folder.records.getD []
  let (seen, rest) ← readRecords ⟨[], [], none⟩ bytes
  let whole := bytes.length - rest.length
  let assets ← folder.assets
  let journal := ⟨{ folder with records := some (bytes.take whole) }, true, whole⟩
  return (journal, ⟨original, ⟨known.epoch, known.firstRev, known.seqs, seen.saved⟩, seen.records,
    assets.foldl (fun a asset => putAsset L.sha256 a asset.2) ⟨[]⟩, seen.savedHash⟩)

end Kodosi.Documents.OnDisk
