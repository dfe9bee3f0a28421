import Kodosi.Xlsx.Pending

/-! What a pending change of a view means, by where each line came from, and when it means the same after it is moved across
    lines that the document ordered first. -/

namespace Kodosi.Xlsx.View
open Kodosi.Lib

variable {R : Type}

/-! ### Where lines came from -/

/-- A line of the sheet that the view changed, a line that the document put in first, or a line of the change itself. -/
inductive Origin where
  | old (n : Nat)
  | remote
  | own (part n : Nat)
  deriving DecidableEq

/-- What stands at each row and column of each sheet. -/
abbrev Board := String → Line → Nat → Origin

/-- The board that the view changed. -/
def start : Board := fun _ _ n => .old n

def Board.update (B : Board) (sheet : String) (kind : Line) (lines : Nat → Origin) : Board :=
  fun sheet' kind' => if sheet' = sheet ∧ kind' = kind then lines else B sheet' kind'

/-- Lines come in with their origins, or go. -/
def Board.move (B : Board) (kind : Line) (sheet : String) (at' : Nat) (count : Int) (new : Nat → Origin) : Board :=
  B.update sheet kind
    (if 0 < count then putIn (B sheet kind) at' count.toNat new else takeOut (B sheet kind) at' (-count).toNat)

/-- The board after the document's lines. -/
def LineMove.board (r : LineMove) : Board := start.move r.kind r.sheet r.at' r.count fun _ => .remote

/-- Where the lines of one kind on one sheet go. -/
def LineMove.goes (r : LineMove) (sheet : String) (kind : Line) (line : Nat) : Option Nat :=
  if sheet = r.sheet ∧ kind = r.kind then moveLine line r.at' r.count else some line

/-- What is there before and after the document's lines. -/
def LineMove.lives (r : LineMove) (sheet : String) (kind : Line) : Origin → Bool
  | .old n => (r.goes sheet kind n).isSome
  | .remote => false
  | .own _ _ => true

/-! ### What a change affects -/

/-- What one part does, named by where its lines came from. -/
inductive Effect (R : Type) where
  | writes (sheet : String) (row column : Origin) (content : Content R)
  | deletes (sheet : String) (kind : Line) (line : Origin)
  | inserts (sheet : String) (kind : Line) (count : Nat) (behind : Set Origin)
  | sizes (sheet : String) (kind : Line) (line : Origin) (size : R)
  | merges (added : Bool) (sheet : String) (rows columns : List Origin)
  | sheets (change : Part R)

/-- A merge of these rows and columns, where that is any cell. -/
def mergeEffect (added : Bool) (sheet : String) (rows columns : List Origin) : Option (Effect R) :=
  if rows = [] ∨ columns = [] then none else some (.merges added sheet rows columns)

/-- The lines of one kind that a merge names. -/
def Merge.lines (m : Merge) : Line → List Nat
  | .rows => (List.range (m.bottom + 1 - m.top)).map (m.top + ·)
  | .columns => (List.range (m.right + 1 - m.left)).map (m.left + ·)

def Part.effects (B : Board) : Part R → List (Effect R)
  | .cell sheet c => [.writes sheet (B sheet .rows c.row) (B sheet .columns c.column) c.toContent]
  | .lines kind sheet at' count =>
    -- new lines are in front of all that is behind them, lines of the document aside
    if 0 < count then
      [.inserts sheet kind count.toNat {o | ¬o = .remote ∧ ∃ l, at' ≤ l ∧ B sheet kind l = o}]
    else ((List.range (-count).toNat).map fun i => B sheet kind (at' + i)).map (.deletes sheet kind)
  | .size kind sheet line s => [.sizes sheet kind (B sheet kind line) s]
  | .merge added sheet m =>
    (mergeEffect added sheet ((m.lines .rows).map (B sheet .rows)) ((m.lines .columns).map (B sheet .columns))).toList
  | part => [.sheets part]

/-- The board after a part, which is the part of that number. -/
def Part.after (number : Nat) (B : Board) : Part R → Board
  | .lines kind sheet at' count => B.move kind sheet at' count (.own number)
  | .addSheet id _ => fun sheet kind => if sheet = id then .own number else B sheet kind
  | _ => B

/-- What is left of an effect where the document's lines came first. -/
def Effect.rest (r : LineMove) : Effect R → Option (Effect R)
  | .writes sheet row column content =>
    if r.lives sheet .rows row ∧ r.lives sheet .columns column then some (.writes sheet row column content) else none
  | .deletes sheet kind line => if r.lives sheet kind line then some (.deletes sheet kind line) else none
  | .inserts sheet kind count behind => some (.inserts sheet kind count {o | o ∈ behind ∧ r.lives sheet kind o = true})
  | .sizes sheet kind line size => if r.lives sheet kind line then some (.sizes sheet kind line size) else none
  | .merges added sheet rows columns =>
    mergeEffect added sheet (rows.filter (r.lives sheet .rows)) (columns.filter (r.lives sheet .columns))
  | .sheets part => some (.sheets part)

/-- Each part, moved and applied after the document's lines and the moved parts before it, affects what is left of what it
    would have affected, and nothing else. -/
def KeptFrom (r : LineMove) : Nat → Board → Board → List (Part R) → Prop
  | _, _, _, [] => True
  | number, B, B', p :: ps =>
    (movedParts r p.change).flatMap (·.effects B') = (p.effects B).filterMap (·.rest r) ∧
      KeptFrom r (number + 1) (p.after number B) ((movedParts r p.change).foldl (fun B p => p.after number B) B') ps

/-- A pending change keeps its meaning across the document's lines. -/
def Change.Kept (r : LineMove) (c : Change R) : Prop := KeptFrom r 0 start r.board c.parts

/-! ### When a change is kept -/

/-- The first line behind the lines that the document ordered, where those are gone. -/
def LineMove.stop (r : LineMove) : Int := if r.count < 0 then r.at' - r.count else r.at'

/-- What a part needs. Its lines are moved across `used`; `actual` is where the document's lines are by then, past the
    parts before it. -/
def Part.Fits (used actual : LineMove) : Part R → Prop
  | .cell sheet c => ∀ kind, used.goes sheet kind (c.line kind) = actual.goes sheet kind (c.line kind)
  | .lines kind sheet at' count =>
    sheet = used.sheet → kind = used.kind →
      if 0 < count then
        -- new lines keep their neighbours
        ∃ to', moveLine at' used.at' used.count = some to' ∧
          (moveLine at' actual.at' actual.count = some to' ∨ (at' = actual.at' ∧ to' = at'))
      else count = 0 ∨
        match moveLine at' used.at' used.count with
        -- all the lines are gone already
        | none => actual.count < 0 ∧ actual.at' ≤ at' ∧ at' - count ≤ actual.at' - actual.count
        -- the document's lines are not among them
        | some to' => moveLine at' actual.at' actual.count = some to' ∧
          (actual.count = 0 ∨ at' - count ≤ actual.at' ∨ actual.stop ≤ at')
  | .size kind sheet line _ => sheet = used.sheet → kind = used.kind → actual.count = 0 ∨ line < actual.at'
  | .merge _ sheet m => sheet = used.sheet → m.lines .rows ≠ [] → m.lines .columns ≠ [] →
      actual.count = 0 ∨ ∀ line ∈ m.lines used.kind, line < actual.at'
  | _ => True

/-- Where the document's lines are past a part. -/
def Part.carry (used actual : LineMove) : Part R → LineMove
  | .lines kind sheet at' count =>
    if sheet = used.sheet ∧ kind = used.kind then
      match moveLine at' used.at' used.count with
      | none => { actual with count := actual.count - count }
      | some to' =>
        if 0 < count then
          if to' = at' then { actual with at' := actual.at' + count.toNat } else actual
        else if at' - count ≤ actual.at' then { actual with at' := (actual.at' + count).toNat }
        else actual
    else actual
  | .addSheet id _ => if id = used.sheet then { actual with count := 0 } else actual
  | _ => actual

def FitFrom (used : LineMove) : LineMove → List (Part R) → Prop
  | _, [] => True
  | actual, p :: ps => p.Fits used actual ∧ FitFrom used (p.carry used actual) ps

/-- Every part fits where the parts before it have left the document's lines. -/
def Change.Fits (r : LineMove) (c : Change R) : Prop := FitFrom r r c.parts

end Kodosi.Xlsx.View
