import Kodosi.Lib.Dictionary
import Kodosi.Lib.MaxByKey
import Kodosi.Terminal.LocalInput
import Kodosi.Terminal.Sizes

/-! The size of a terminal on this computer: many views ask for theirs, one of them owns it. A size goes to the PTY, then to
    the emulator, and is published last. -/

namespace Kodosi.Terminal

namespace CellPixels

def of (geometry : TerminalPixelGeometry) : CellPixels := ⟨geometry.cellWidthPixels, geometry.cellHeightPixels⟩

/-- One side of the screen in pixels, where a PTY can say it. -/
def ptyPixel (cells cell : Nat) : Option Nat :=
  (TerminalPixelGeometry.checkedMul cells cell).filter fun pixels => pixels < 2 ^ 16 ∧ 0 < pixels

def ptyPixels (cell : CellPixels) (size : TerminalSize) : Option Nat × Option Nat :=
  (ptyPixel size.cols cell.width, ptyPixel size.rows cell.height)

end CellPixels

namespace SizeOwner
open Kodosi.Lib

def SIZE_NOT_APPLIED : String := "The terminal could not apply its new size."

/-- A view of this computer or of another one. -/
inductive Controller where
  | near (id : Nat)
  | remote (id : Nat)
  deriving DecidableEq

structure RequestedSize where
  size : TerminalSize
  geometry : Option TerminalPixelGeometry
  takenTurn : Nat
  deriving DecidableEq

/-- How a resize ended: done, refused before anything but the PTY could change, or failed halfway. -/
inductive Resized where
  | done
  | rejected (error : InputError)
  | diverged

/-- What the PTY, the emulator and the queue say while a call is under way, and which rights are lost meanwhile. -/
structure Outcome where
  pty : Except String Unit
  cursorAtPrompt : Option Bool
  taller : Bool
  screen : Bool
  effects : Bool
  focus : Except String Unit
  lapsed : List Nat
  failure : String

/-- The actor, as far as its size goes. The right of a view is a token, which can be cancelled. `heldAt` records when a view
    took the size last since it came, and `clock` counts these times. -/
structure LocalActor where
  pty : TerminalSize × (Option Nat × Option Nat)
  screen : TerminalSize × CellPixels
  published : List (TerminalSize × CellPixels)
  size : TerminalSize
  cell : CellPixels
  focused : Dictionary Controller Nat
  resizeOwner : Option (Controller × Nat)
  requested : Dictionary Controller RequestedSize
  cancelled : List Nat
  ended : Option String
  heldAt : Controller → Nat
  clock : Nat

namespace LocalActor

/-- The PTY is told of pixels when both sides have some. -/
def spawn (size : TerminalSize) (cell : CellPixels) : LocalActor where
  pty := (size, match cell.ptyPixels size with
    | (some width, some height) => (some width, some height)
    | _ => (none, none))
  screen := (size, cell)
  published := []
  size := size
  cell := cell
  focused := ∅
  resizeOwner := none
  requested := ∅
  cancelled := []
  ended := none
  heldAt := fun _ => 0
  clock := 0

def publishSize (a : LocalActor) (size : TerminalSize) (cell : CellPixels) : LocalActor :=
  { a with published := a.published ++ [(size, cell)] }

/-! ### A resize -/

/-- A prompt is cleared from a screen that is one row taller first. -/
def makeTaller (a : LocalActor) (o : Outcome) (size : TerminalSize) (cell : CellPixels) : Option LocalActor :=
  if size.cols = a.size.cols then some a
  else match o.cursorAtPrompt with
    | none => none
    | some false => some a
    | some true =>
      match TerminalSize.new (a.size.rows + 1) a.size.cols with
      | .error _ => some a
      | .ok taller => if o.taller then some ({ a with screen := (taller, cell) }.publishSize taller cell) else none

/-- The turn after every turn that a view took. -/
def nextTurn (a : LocalActor) : Nat := ((a.requested.entries.map (·.2.takenTurn)).max?.map (· + 1)).getD 1

def own (a : LocalActor) (controller : Controller) (authorization : Nat) (size : TerminalSize)
    (geometry : Option TerminalPixelGeometry) : LocalActor :=
  { a with
    requested := a.requested.insert controller ⟨size, geometry, a.nextTurn⟩
    resizeOwner := some (controller, authorization)
    heldAt := Function.update a.heldAt controller (a.clock + 1)
    clock := a.clock + 1 }

/-- The PTY has the size; now the emulator gets it, and the others hear of it. -/
def reflow (a : LocalActor) (o : Outcome) (controller : Controller) (authorization : Nat) (size : TerminalSize)
    (geometry : Option TerminalPixelGeometry) (cell : CellPixels) : LocalActor × Resized :=
  match a.makeTaller o size cell with
  | none => (a, .diverged)
  | some a =>
    if o.screen = false then (a, .diverged)
    else
      let a := { a with screen := (size, cell), size, cell }
      if o.effects = false then (a, .diverged)
      else ((a.own controller authorization size geometry).publishSize size cell, .done)

/-- The size that a view asks for is kept, whatever becomes of it. -/
def askFor (a : LocalActor) (o : Outcome) (controller : Controller) (size : TerminalSize)
    (geometry : Option TerminalPixelGeometry) : LocalActor :=
  let takenTurn := ((a.requested.lookup controller).map (·.takenTurn)).getD 0
  { a with
    requested := a.requested.insert controller ⟨size, geometry, takenTurn⟩
    cancelled := o.lapsed ++ a.cancelled }

def applyResize (a : LocalActor) (o : Outcome) (controller : Controller) (authorization : Nat) (size : TerminalSize)
    (geometry : Option TerminalPixelGeometry) (claim : Bool) : LocalActor × Resized :=
  match validatePixels size geometry with
  | .error text => (a, .rejected (.invalid text))
  | .ok () =>
    let a := a.askFor o controller size geometry
    let claim := claim || (a.focused.lookup controller).isSome
    let cell := geometry.elim a.cell CellPixels.of
    if authorization ∈ a.cancelled then (a, .rejected .stale)
    else if a.resizeOwner.any (fun owner => decide (owner.2 ∉ a.cancelled) && owner.1 != controller) && !claim then
      (a, .rejected (.invalid "Another terminal view controls the size. Focus this view to resize it."))
    else match o.pty with
      | .error text => (a, .rejected (.other text))
      | .ok () => { a with pty := (size, cell.ptyPixels size) }.reflow o controller authorization size geometry cell

/-! ### Focus -/

def setFocus (a : LocalActor) (o : Outcome) (controller : Controller) (authorization : Option Nat) (focused : Bool) :
    LocalActor × Except InputError Unit :=
  if authorization.any (· ∈ a.cancelled) then (a, .error .stale)
  else
    let wasFocused := !a.focused.entries.isEmpty
    let a := match authorization, focused with
      | some token, true => { a with focused := a.focused.insert controller token }
      | _, _ => { a with focused := a.focused.erase controller }
    let isFocused := !a.focused.entries.isEmpty
    if wasFocused != isFocused then (a, o.focus.mapError .other) else (a, .ok ())

/-- Whether the terminal can go on. A size that is refused leaves it as it is. -/
def takeRequestedSize (a : LocalActor) (o : Outcome) (controller : Controller) (authorization : Nat) : LocalActor × Bool :=
  match a.requested.lookup controller with
  | none => (a, true)
  | some requested =>
    match a.applyResize o controller authorization requested.size requested.geometry true with
    | (a, .done) | (a, .rejected _) => (a, true)
    | (a, .diverged) => (a, false)

/-- What the view hears, and whether the terminal failed halfway. -/
def focusView (a : LocalActor) (o : Outcome) (controller : Controller) (authorization : Nat) (focused : Bool) :
    LocalActor × Except InputError Unit × Bool :=
  match a.setFocus o controller (some authorization) focused with
  | (a, .error error) => (a, .error error, false)
  | (a, .ok ()) =>
    if focused = false ∨ a.resizeOwner.any (·.1 == controller) then (a, .ok (), false)
    else match a.takeRequestedSize o controller authorization with
      | (a, true) => (a, .ok (), false)
      | (a, false) => (a, .error (.other o.failure), true)

/-! ### The size goes back -/

/-- When a focused view whose right lives took the size it asks for, and its right. -/
def turn (a : LocalActor) (controller : Controller) : Option (Nat × Controller × Nat) :=
  match a.focused.lookup controller, a.requested.lookup controller with
  | some token, some requested => if token ∈ a.cancelled then none else some (requested.takenTurn, controller, token)
  | _, _ => none

/-- The focused view that took the size last; of those that took it equally, the last that is looked at. -/
def candidate (a : LocalActor) (order : List Controller) : Option (Controller × Nat) :=
  (maxByKey (·.1) (order.filterMap a.turn)).map (·.2)

def giveSizeBack (a : LocalActor) (order : List Controller) (o : Outcome) : LocalActor × Option String :=
  let a := { a with resizeOwner := none }
  match a.candidate order with
  | none => (a, none)
  | some (controller, authorization) =>
    match a.takeRequestedSize o controller authorization with
    | (a, true) => (a, none)
    | (a, false) => (a, some SIZE_NOT_APPLIED)

/-- A view leaves. What it asked for and when it had the size is forgotten. -/
def release (a : LocalActor) (order : List Controller) (o : Outcome) (controller : Controller) :
    LocalActor × Option String :=
  let a := { a with requested := a.requested.erase controller, heldAt := Function.update a.heldAt controller 0 }
  let a := if (a.focused.lookup controller).isSome then (a.setFocus o controller none false).1 else a
  if a.resizeOwner.any (·.1 == controller) then a.giveSizeBack order o else (a, none)

def releaseAll (order : List Controller) (o : Outcome) (a : LocalActor) : List Controller → LocalActor × Option String
  | [] => (a, none)
  | controller :: rest =>
    match a.release order o controller with
    | (a, some reason) => (a, some reason)
    | (a, none) => releaseAll order o a rest

/-- The focused views whose right is lost are released, and an owner whose right is lost gives the size back. -/
def maintain (a : LocalActor) (order : List Controller) (o : Outcome) : LocalActor × Option String :=
  let expired := order.filter fun controller => (a.focused.lookup controller).any (· ∈ a.cancelled)
  match releaseAll order o a expired with
  | (a, some reason) => (a, some reason)
  | (a, none) => if a.resizeOwner.any (·.2 ∈ a.cancelled) then a.giveSizeBack order o else (a, none)

/-! ### Requests -/

/-- A view of this computer asks for a size. One that is not subscribed has no right. -/
def localResize (a : LocalActor) (o : Outcome) (connection : Nat) (authorization : Option Nat) (size : TerminalSize)
    (geometry : Option TerminalPixelGeometry) (claim : Bool) : LocalActor × Option String :=
  match authorization with
  | none => (a, none)
  | some token =>
    match a.applyResize o (.near connection) token size geometry claim with
    | (a, .done) | (a, .rejected _) => (a, none)
    | (a, .diverged) => (a, some SIZE_NOT_APPLIED)

def localFocus (a : LocalActor) (o : Outcome) (connection : Nat) (authorization : Option Nat) (focused : Bool) :
    LocalActor × Option String :=
  match authorization with
  | none => (a, none)
  | some token =>
    match a.focusView o (.near connection) token focused with
    | (a, _, true) => (a, some SIZE_NOT_APPLIED)
    | (a, _, false) => (a, none)

def hostGeometry (r : ResizeControl) : Except String (Option TerminalPixelGeometry) :=
  if r.widthPixels = 0 ∧ r.heightPixels = 0 ∧ r.cellWidthPixels = 0 ∧ r.cellHeightPixels = 0 then .ok none
  else (TerminalPixelGeometry.new r.widthPixels r.heightPixels r.cellWidthPixels r.cellHeightPixels).map some

/-- `host_control`, of a size. -/
def hostResize (a : LocalActor) (o : Outcome) (connection : Nat) (authorization : Nat) (r : ResizeControl) :
    LocalActor × Option String :=
  if authorization ∈ a.cancelled then (a, none)
  else match TerminalSize.new r.rows r.cols, hostGeometry r with
    | .ok size, .ok geometry =>
      match a.applyResize o (.remote connection) authorization size geometry r.claim with
      | (a, .done) | (a, .rejected _) => (a, none)
      | (a, .diverged) => (a, some o.failure)
    | _, _ => (a, none)

/-- `host_control`, of the focus. -/
def hostFocus (a : LocalActor) (o : Outcome) (connection : Nat) (authorization : Nat) (focused : Bool) :
    LocalActor × Option String :=
  if authorization ∈ a.cancelled then (a, none)
  else match a.focusView o (.remote connection) authorization focused with
    | (a, .ok (), _) | (a, .error .stale, false) => (a, none)
    | (a, .error _, _) => (a, some o.failure)

/-! ### The loop -/

inductive Event where
  | localResize (connection : Nat) (authorization : Option Nat) (size : TerminalSize)
      (geometry : Option TerminalPixelGeometry) (claim : Bool) (o : Outcome)
  | localFocus (connection : Nat) (authorization : Option Nat) (focused : Bool) (o : Outcome)
  | hostResize (connection : Nat) (authorization : Nat) (r : ResizeControl) (o : Outcome)
  | hostFocus (connection : Nat) (authorization : Nat) (focused : Bool) (o : Outcome)
  | left (controller : Controller) (order : List Controller) (o : Outcome)
  | cancel (authorization : Nat)
  | maintain (order : List Controller) (o : Outcome)
  | stop (reason : String)

/-- A step that fails ends the terminal. -/
def settle (outcome : LocalActor × Option String) : LocalActor :=
  match outcome with
  | (a, none) => a
  | (a, some reason) => { a with ended := some reason }

/-- A right can be lost at any time; what is asked is heard while the terminal lives. Every focused view is looked at when
    the size goes back, in some order. -/
def Allowed (a : LocalActor) : Event → Prop
  | .cancel _ => True
  | .left _ order _ | .maintain order _ => a.ended = none ∧ order.Perm a.focused.keys
  | _ => a.ended = none

def step (a : LocalActor) : Event → LocalActor
  | .localResize connection authorization size geometry claim o =>
    settle (a.localResize o connection authorization size geometry claim)
  | .localFocus connection authorization focused o => settle (a.localFocus o connection authorization focused)
  | .hostResize connection authorization r o => settle (a.hostResize o connection authorization r)
  | .hostFocus connection authorization focused o => settle (a.hostFocus o connection authorization focused)
  | .left controller order o => settle (a.release order o controller)
  | .cancel authorization => { a with cancelled := authorization :: a.cancelled }
  | .maintain order o => settle (a.maintain order o)
  | .stop reason => { a with ended := some reason }

end LocalActor

end SizeOwner

end Kodosi.Terminal
