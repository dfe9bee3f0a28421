import Kodosi.Documents.Contract

/-! JSON as serde's derives write and read it: numbers, options, lists, and the fields of objects. Beside
    each reader stands what it gives for what the writer wrote. -/

namespace Kodosi.Derive

/-- A JSON value. -/
abbrev Json := Documents.Value

abbrev Fields := List (String × Json)

variable {α β : Type}

/-! ### Values -/

def writeNat (n : Nat) : Json := .number n.repr

/-- A number of at most so many bits. -/
def readNat (bits : Nat) : Json → Option Nat
  | .number digits => digits.toNat?.filter (· < 2 ^ bits)
  | _ => none

def readU16 (json : Json) : Option UInt16 := (readNat 16 json).map .ofNat

def readU32 (json : Json) : Option UInt32 := (readNat 32 json).map .ofNat

def readU64 (json : Json) : Option UInt64 := (readNat 64 json).map .ofNat

def writeI32 (n : Int32) : Json := .number n.toInt.repr

def readI32 : Json → Option Int32
  | .number digits => digits.toInt?.bind fun n =>
    if -2 ^ 31 ≤ n ∧ n < 2 ^ 31 then some (.ofInt n) else none
  | _ => none

def readBool : Json → Option Bool
  | .bool b => some b
  | _ => none

def readString : Json → Option String
  | .string s => some s
  | _ => none

def writeArray (write : α → Json) (items : List α) : Json := .array (items.map write)

def readArray (read : Json → Option α) : Json → Option (List α)
  | .array items => items.mapM read
  | _ => none

def writeOption (write : α → Json) : Option α → Json
  | some a => write a
  | none => .null

/-- Null is read as nothing, whatever was meant to be inside. -/
def readOption (read : Json → Option α) : Json → Option (Option α)
  | .null => some none
  | json => (read json).map some

/-! ### Fields -/

/-- The fields of an object. -/
def fieldsOf : Json → Option Fields
  | .object fields => some fields
  | _ => none

/-- The fields of an object that may have no others than these. -/
def onlyFieldsOf (names : List String) : Json → Option Fields
  | .object fields => if fields.all (·.1 ∈ names) then some fields else none
  | _ => none

/-- A field that must be there. -/
def required (fields : Fields) (name : String) (read : Json → Option α) : Option α :=
  (fields.lookup name).bind read

/-- A field with a default. -/
def defaulted (fields : Fields) (name : String) (default : α) (read : Json → Option α) : Option α :=
  (fields.lookup name).elim (some default) read

/-- A field that is skipped when it holds nothing. -/
def skipped (name : String) (write : α → Json) (field : Option α) : Fields :=
  (field.map fun a => (name, write a)).toList

/-- A field that is skipped when it is false. -/
def skippedFalse (name : String) (field : Bool) : Fields :=
  if field then [(name, .bool true)] else []

/-- The fields of a variant, with the tag that tells which one it is. -/
def tagged (tag kind : String) (fields : Fields) : Json := .object ((tag, .string kind) :: fields)

def textOf (fields : Fields) (name : String) : Option String := required fields name readString

/-! ### What is read of what was written -/

theorem readNat_write {bits n : Nat} (h : n < 2 ^ bits) : readNat bits (writeNat n) = some n := by
  simp [readNat, writeNat, Nat.toNat?_repr, h]

@[simp] theorem readU32_write (n : UInt32) : readU32 (writeNat n.toNat) = some n := by
  simp [readU32, readNat_write n.toNat_lt]

@[simp] theorem readU64_write (n : UInt64) : readU64 (writeNat n.toNat) = some n := by
  simp [readU64, readNat_write n.toNat_lt]

@[simp] theorem readI32_write (n : Int32) : readI32 (writeI32 n) = some n := by
  have hge : -2147483648 ≤ n.toInt := Int32.le_toInt n
  have hlt : n.toInt < 2147483648 := Int32.toInt_lt n
  simp [readI32, writeI32, Int.toInt?_repr, hge, hlt]

@[simp] theorem readString_string (s : String) : readString (.string s) = some s := rfl

@[simp] theorem readBool_bool (b : Bool) : readBool (.bool b) = some b := rfl

theorem readString_null : readString .null = none := rfl

theorem readU32_null : readU32 .null = none := rfl

variable {read : Json → Option α}

theorem readOption_some (hnull : read .null = none) {json : Json} {a : α} :
    readOption read json = some (some a) ↔ read json = some a := by
  cases json with
  | null => simp [readOption, hnull]
  | _ => simp [readOption]

variable {write : α → Json}

variable {field : Option α}

theorem readOption_write (hnull : read .null = none) :
    readOption read (writeOption write field) = some field ↔ ∀ a ∈ field, read (write a) = some a := by
  cases field with
  | none => simp [writeOption, readOption]
  | some a => simp [writeOption, readOption_some hnull]

/-- What is there but empty is written as null, which is read as not there. -/
theorem readOption_readOption_write (hnull : read .null = none) :
    readOption (readOption read) (writeOption write field) = some (some field) ↔
      ∃ a, field = some a ∧ read (write a) = some a := by
  cases field with
  | none => simp [writeOption, readOption]
  | some a =>
    have hsome : readOption (readOption read) (write a) = some (some (some a)) ↔
        read (write a) = some a := by
      cases hjson : write a with
      | null => simp [readOption, hnull]
      | _ => simp [readOption]
    simp [writeOption, hsome]

variable {name key : String}

theorem lookup_field {json : Json} {fields : Fields} :
    List.lookup key ((name, json) :: fields) = if key = name then some json else fields.lookup key := by
  by_cases h : key = name
  · simp [h]
  · simp [h, List.lookup, beq_eq_false_iff_ne.mpr h]

theorem lookup_skipped : (skipped name write field).lookup key = if key = name then field.map write else none := by
  cases field with
  | none => simp [skipped]
  | some a => simp [skipped, lookup_field]

theorem lookup_skippedFalse {field : Bool} :
    (skippedFalse name field).lookup key =
      if key = name then (if field then some (.bool true) else none) else none := by
  cases field with
  | false => simp [skippedFalse]
  | true => simp [skippedFalse, lookup_field]

/-- A skipped field that is read with nothing as its default. -/
theorem elim_skipped {read : Json → Option (Option α)} :
    (field.map write).elim (some none) read = some field ↔ ∀ a ∈ field, read (write a) = some (some a) := by
  cases field <;> simp

theorem elim_skippedFalse {field : Bool} :
    (if field then some (Documents.Value.bool true) else none).elim (some false) readBool = some field := by
  cases field <;> rfl

/-- A list of results holds one for each element. -/
theorem mapM_eq_some_iff {f : α → Option β} : ∀ {as : List α} {bs : List β},
    as.mapM f = some bs ↔ List.Forall₂ (fun a b => f a = some b) as bs
  | [], bs => by simp [eq_comm]
  | a :: as, bs => by
    simp only [List.mapM_cons, Option.bind_eq_bind, Option.bind_eq_some_iff, Option.pure_def,
      Option.some.injEq]
    constructor
    · rintro ⟨b, hb, bs, hbs, rfl⟩
      exact .cons hb (mapM_eq_some_iff.mp hbs)
    · rintro (_ | ⟨hb, hbs⟩)
      exact ⟨_, hb, _, mapM_eq_some_iff.mpr hbs, rfl⟩

theorem readArray_write {items : List α} :
    readArray read (writeArray write items) = some items ↔ ∀ a ∈ items, read (write a) = some a := by
  unfold readArray writeArray
  rw [mapM_eq_some_iff, List.forall₂_map_left_iff, List.forall₂_same]

end Kodosi.Derive
