import Kodosi.Documents.Live
import Kodosi.Lib.Run

/-! What a live document is for: one order of changes over one model, saved now and then, whose log
    starts again at a rebase. `Core` is the part of a document that its journal keeps, and `Next` is
    the machine that each step of the document refines: it puts one legal change, saves or rebases. -/

namespace Kodosi.Documents
open Kodosi.Lib

/-- The part of a document that its journal keeps. -/
structure Core (M C : Type) where
  model : M
  original : Bytes
  epoch : Nat
  firstRev : Nat
  rev : Nat
  log : List (Ordered C)
  seqs : Std.TreeMap String Nat
  savedRev : Nat

/-- A change of the order, and the model just after it. -/
structure Commit (M C : Type) where
  entry : Ordered C
  model : M

/-- One thing that happens to the order. -/
inductive Act (M C : Type) where
  | put (c : Commit M C)
  | save (rev : Nat)
  | rebase (file : Bytes) (epoch : Nat)

/-- The commits among the acts. -/
def commits {M C : Type} (acts : List (Act M C)) : List (Commit M C) :=
  acts.filterMap fun
    | .put c => some c
    | _ => none

namespace Core

variable {M C Q : Type}

/-- The last seq of a client that the order holds. -/
def lastSeq (k : Core M C) (client : String) : Nat := k.seqs[client]?.getD 0

def put (k : Core M C) (c : Commit M C) : Core M C :=
  { k with
    model := c.model
    rev := c.entry.rev
    log := k.log ++ [c.entry]
    seqs := if 0 < c.entry.seq then k.seqs.insert c.entry.client c.entry.seq else k.seqs }

def save (k : Core M C) (rev : Nat) : Core M C := { k with savedRev := rev }

def rebase (k : Core M C) (file : Bytes) (epoch : Nat) : Core M C :=
  { k with original := file, epoch, firstRev := k.rev, log := [], savedRev := k.rev }

def act (k : Core M C) : Act M C → Core M C
  | .put c => k.put c
  | .save rev => k.save rev
  | .rebase file epoch => k.rebase file epoch

/-- A change may go in the order when the format applied it to this model, its rev is the next one and
    its seq is new for its client. A write of another program has no seq. -/
structure Fits (F : Format M C Q) (k : Core M C) (c : Commit M C) : Prop where
  applied : ∃ change since a a',
    F.apply k.model change since a = (.ok c.entry.change, c.model, a')
  rev : c.entry.rev = k.rev + 1
  seq : c.entry.seq = 0 ∨ k.lastSeq c.entry.client < c.entry.seq

def Legal (F : Format M C Q) (k : Core M C) : Act M C → Prop
  | .put c => Fits F k c
  | _ => True

/-- One change goes in the order. -/
def Put (F : Format M C Q) (k : Core M C) (c : Commit M C) (k' : Core M C) : Prop :=
  Fits F k c ∧ k' = k.put c

/-- One act of the order. -/
def Next (F : Format M C Q) (k : Core M C) (a : Act M C) (k' : Core M C) : Prop :=
  Legal F k a ∧ k' = k.act a

end Core

end Kodosi.Documents
