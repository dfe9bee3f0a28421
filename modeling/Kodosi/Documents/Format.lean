import Kodosi.Documents.Contract

/-! One kind of file, as a live document uses it: functions from values to values. A format reads a
    file, puts changes in a model, compares two models and writes a model back. The laws that the
    document relies on are stated here, each one once. -/

namespace Kodosi.Documents

/-- Pictures and other large parts, by hash. -/
structure Assets where
  held : List (Hash × Bytes)

namespace Assets

def get (a : Assets) (hash : Hash) : Option Bytes := a.held.lookup hash

/-- The bytes of all assets together. -/
def bytes (a : Assets) : Nat := (a.held.map fun asset => asset.2.length).sum

/-- Takes an asset that a client sent, when its bytes fit its name. -/
def take (sha256 : Bytes → Hash) (a : Assets) (hash : Hash) (bytes : Bytes) : Assets × Bool :=
  if sha256 bytes = hash then
    match a.get hash with
    | some _ => (a, true)
    | none => (⟨(hash, bytes) :: a.held⟩, true)
  else (a, false)

end Assets

/-- One change in the order, with who made it. -/
structure Ordered (C : Type) where
  rev : Nat
  author : String
  client : String
  seq : Nat
  change : C

/-- Why a change does not go in the order. -/
inductive Refused where
  | behind (detail : String)
  | invalid (detail : String)

def Refused.text : Refused → String
  | .behind detail => s!"Someone changed this first: {detail}"
  | .invalid detail => s!"The change is not valid: {detail}"

/-- Why a file cannot be read. -/
structure Unreadable where
  reason : String

/-- Why a file cannot be written. -/
structure Unwritable where
  reason : String

/-- One kind of file. `apply` works on the model in place, so it gives the model and the assets also
    when it refuses. -/
structure Format (M C Q : Type) where
  read : Bytes → Assets → Except Unreadable (M × Assets)
  snapshot : M → Value
  apply : M → C → List (Ordered C) → Assets → Except Refused C × M × Assets
  compare : M → M → List C
  write : M → Bytes → Assets → Except Unwritable Bytes
  query : M → Q → Value
  seals : C → Bool
  mapPlace : Value → C → Value
  describePlace : M → Value → Value
  /-- The hash that names an asset. -/
  sha256 : Bytes → Hash
  /-- The JSON of a change, or null when it has none. -/
  toValue : C → Value
  /-- The change that a JSON value holds, or the reader's error. -/
  fromValue : Value → Except String C
  toQuery : Value → Option Q

variable {M C Q : Type}

/-- "Puts a change in the model, or changes nothing and refuses." -/
def Format.RefusesClean (F : Format M C Q) : Prop :=
  ∀ m c since a r m' a', F.apply m c since a = (.error r, m', a') → m' = m

/-- Reading only puts assets; what it reads does not depend on those it finds. -/
def Format.ReadsAlone (F : Format M C Q) : Prop :=
  ∀ file a m a', F.read file a = .ok (m, a') → ∀ b, ∃ b', F.read file b = .ok (m, b')

/-- A change as views and the journal see it. -/
def changedOf (F : Format M C Q) (o : Ordered C) : Changed :=
  ⟨o.rev, o.author, o.client, o.seq, F.toValue o.change⟩

/-- A view's own copy of a format: how it loads a snapshot and how it applies the body of a change. -/
structure ViewFormat (M : Type) where
  load : Value → Option M
  apply : M → Value → Option M

/-- The view's side of a format agrees with the document's: a snapshot is faithful, and the body of an
    ordered change turns the model just before it into the model just after it. -/
structure ViewFormat.Follows (V : ViewFormat M) (F : Format M C Q) : Prop where
  load : ∀ m, V.load (F.snapshot m) = some m
  apply : ∀ m c since a c' m' a', F.apply m c since a = (.ok c', m', a') →
    V.apply m (F.toValue c') = some m'

/-! ### A small format

    A counter: a file holds it as its length, a change adds to it, and nothing goes past a hundred. A
    small wire writes what goes with it. -/

namespace Tally

/-- A number as JSON: so many nulls. -/
def nulls (n : Nat) : Value := .array (List.replicate n .null)

def size : Value → Nat
  | .array items => items.length
  | _ => 0

theorem size_nulls (n : Nat) : size (nulls n) = n := by simp [size, nulls]

def apply (m c : Nat) (_ : List (Ordered Nat)) (a : Assets) : Except Refused Nat × Nat × Assets :=
  if 100 < m + c then (.error (.invalid "too much"), m, a) else (.ok c, m + c, a)

def format : Format Nat Nat Unit where
  read file a := if file = [] then .error ⟨"no bytes"⟩ else .ok (file.length, a)
  snapshot := nulls
  apply := apply
  compare m n := if m < n then [n - m] else []
  write m _ _ := .ok (List.replicate m 0)
  query m _ := nulls m
  seals _ := false
  mapPlace place _ := place
  describePlace _ place := place
  sha256 bytes := bytes.take HASH_BYTES
  toValue := nulls
  fromValue v := .ok (size v)
  toQuery _ := some ()

def view : ViewFormat Nat where
  load v := some (size v)
  apply m v := some (m + size v)

def letters (s : String) : List Nat := s.toList.map Char.toNat

def ofLetters (l : List Nat) : String := String.ofList (l.map Char.ofNat)

theorem ofLetters_letters (s : String) : ofLetters (letters s) = s := by
  have : (Char.ofNat ∘ Char.toNat) = id := funext Char.ofNat_toNat
  simp [ofLetters, letters, this]

/-- A record is a run of zeros whose length numbers what the record says. -/
def wire : Wire where
  fromSlice
    | [0, epoch, rev] => some (.join CONTRACT "ana" epoch.toNat rev.toNat)
    | [1, seq, base, n] => some (.change seq.toNat base.toNat (nulls n.toNat))
    | _ => none
  gunzip _ bytes := some bytes
  recordOf c := List.replicate
    (Encodable.encode (c.rev, letters c.author, letters c.client, c.seq, size c.body)) 0
  readRecord bytes :=
    match (Encodable.decode bytes.length : Option (Nat × List Nat × List Nat × Nat × Nat)) with
    | some (rev, author, client, seq, n) => .ok ⟨rev, ofLetters author, ofLetters client, seq, nulls n⟩
    | none => .error "not a record"

theorem readRecord_recordOf (c : Changed) :
    wire.readRecord (wire.recordOf c) = .ok { c with body := nulls (size c.body) } := by
  simp only [wire, List.length_replicate, Encodable.encodek, ofLetters_letters]

theorem refusesClean : format.RefusesClean := by
  intro m c since a r m' a' h
  simp only [format, apply] at h
  split at h
  · exact (congrArg (·.2.1) h).symm
  · simp at h

theorem follows : view.Follows format := by
  refine ⟨fun m => by simp [view, format, size_nulls], ?_⟩
  intro m c since a c' m' a' h
  simp only [format, apply] at h
  split at h
  · simp at h
  · obtain ⟨rfl, rfl, rfl⟩ : c = c' ∧ m + c = m' ∧ a = a' := by simpa using h
    simp [view, format, size_nulls]

end Tally

end Kodosi.Documents
