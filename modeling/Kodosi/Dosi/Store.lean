import Kodosi.Dosi.Records
import Kodosi.Lib.Log
import Kodosi.Lib.Reads
import Kodosi.Lib.Run

/-! The file that keeps a conversation with Dosi: a line of JSON for each entry. Entries are appended, the file is read up
    to a limit, and a file that has grown is written again with the newest entries only. -/

namespace Kodosi.Dosi
open Kodosi.Lib

def MAX_LOG_BYTES : Nat := 8 * 1024 * 1024
def COMPACT_BYTES : Nat := 4 * 1024 * 1024

/-- How many items a conversation holds. -/
def MAX_ITEMS : Nat := 1000

/-- How an entry is written as JSON, and how a text is read as an entry. -/
structure Json where
  write : DosiEntry → String
  read : String → Option DosiEntry

/-- An entry comes back from its line, which has no line break in it, and from no part of it. -/
structure Json.Fits (json : Json) (e : DosiEntry) : Prop where
  back : json.read (json.write e) = some e
  filled : (json.write e).toList ≠ []
  lineFeed : '\n' ∉ (json.write e).toList
  carriageReturn : '\r' ∉ (json.write e).toList
  torn : ∀ part, part <+: (json.write e).toList → part ≠ (json.write e).toList → json.read (String.ofList part) = none

/-! ### Lines -/

/-- A line without the carriage return in front of its line feed. -/
def ended (line : List Char) : List Char := if line.getLast? = some '\r' then line.dropLast else line

/-- The lines of a text, when a part of the first one was passed already. -/
def linesFrom (line : List Char) : List Char → List String
  | [] => if line = [] then [] else [String.ofList line]
  | c :: rest => if c = '\n' then String.ofList (ended line) :: linesFrom [] rest else linesFrom (line ++ [c]) rest

def lines (text : String) : List String := linesFrom [] text.toList

theorem ended_eq {line : List Char} (h : '\r' ∉ line) : ended line = line := by
  refine if_neg fun hlast => h ?_
  exact List.mem_of_getLast? hlast

theorem linesFrom_feed {cs : List Char} (h : '\n' ∉ cs) (line rest : List Char) :
    linesFrom line (cs ++ '\n' :: rest) = String.ofList (ended (line ++ cs)) :: linesFrom [] rest := by
  induction cs generalizing line with
  | nil => rw [List.nil_append, List.append_nil, linesFrom, if_pos rfl]
  | cons c cs ih =>
    rw [List.mem_cons, not_or] at h
    obtain ⟨hc, hcs⟩ := h
    rw [List.cons_append, linesFrom, if_neg (Ne.symm hc), ih hcs, List.append_assoc, List.singleton_append]

theorem linesFrom_end {cs : List Char} (h : '\n' ∉ cs) (line : List Char) :
    linesFrom line cs = if line ++ cs = [] then [] else [String.ofList (line ++ cs)] := by
  induction cs generalizing line with
  | nil => rw [List.append_nil, linesFrom]
  | cons c cs ih =>
    rw [List.mem_cons, not_or] at h
    obtain ⟨hc, hcs⟩ := h
    rw [linesFrom, if_neg (Ne.symm hc), ih hcs, List.append_assoc, List.singleton_append]

/-! ### The file -/

namespace DosiEntry

def isBegin (e : DosiEntry) : Bool :=
  match e.record with
  | .begin _ => true
  | _ => false

end DosiEntry

/-- The position of the last element that meets a test. -/
def rposition {α : Type} (p : α → Bool) : List α → Option Nat
  | [] => none
  | a :: as =>
    match rposition p as with
    | some i => some (i + 1)
    | none => if p a then some 0 else none

namespace Json

variable (json : Json)

/-- The bytes that one entry takes. -/
def line (e : DosiEntry) : List UInt8 := utf8 (json.write e) ++ [10]

def entriesOf (text : List Char) : List DosiEntry := (linesFrom [] text).filterMap json.read

/-- A file that is missing has no bytes. -/
def log (file : List UInt8) : DosiLog :=
  match ofUtf8 (file.take MAX_LOG_BYTES) with
  | none => ⟨[], 0, false⟩
  | some text =>
    let entries := (lines text).filterMap json.read
    ⟨entries, (entries.getLast?.map (·.sequence)).getD 0, false⟩

/-- What a file is written again with. -/
def newest (entries : List DosiEntry) : List DosiEntry :=
  entries.drop (max ((rposition DosiEntry.isBegin entries).getD 0) (entries.length - MAX_ITEMS * 2))

def compact (file : List UInt8) : List UInt8 := logged json.line (newest (json.log file).entries)

def append (file : List UInt8) (entries : List DosiEntry) : List UInt8 :=
  if entries.isEmpty then file
  else
    let file := file ++ logged json.line entries
    if COMPACT_BYTES < file.length then json.compact file else file

/-- The file after appends to a new book. -/
def filed (batches : List (List DosiEntry)) : List UInt8 := batches.foldl json.append []

end Json

end Kodosi.Dosi
