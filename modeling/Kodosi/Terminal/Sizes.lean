import Kodosi.Terminal.Remote

/-! The size of a terminal in cells and in pixels, and what is checked of a resize before anything changes. -/

namespace Kodosi.Terminal

structure TerminalPixelGeometry where
  widthPixels : Nat
  heightPixels : Nat
  cellWidthPixels : Nat
  cellHeightPixels : Nat
  deriving DecidableEq

namespace TerminalPixelGeometry

/-- The text of `TerminalPixelGeometryError`. -/
def invalid (g : TerminalPixelGeometry) : String :=
  "invalid terminal pixel geometry " ++ g.widthPixels.repr ++ "x" ++ g.heightPixels.repr ++ " with " ++
    g.cellWidthPixels.repr ++ "x" ++ g.cellHeightPixels.repr ++ " cells"

def new (widthPixels heightPixels cellWidthPixels cellHeightPixels : Nat) : Except String TerminalPixelGeometry :=
  let g : TerminalPixelGeometry := ⟨widthPixels, heightPixels, cellWidthPixels, cellHeightPixels⟩
  if widthPixels = 0 ∨ heightPixels = 0 ∨ cellWidthPixels = 0 ∨ cellHeightPixels = 0 then .error g.invalid else .ok g

/-- `u32::checked_mul`. -/
def checkedMul (a b : Nat) : Option Nat := if a * b < 2 ^ 32 then some (a * b) else none

def validateForSize (g : TerminalPixelGeometry) (size : TerminalSize) : Except String TerminalPixelGeometry :=
  let expectedWidth := checkedMul size.cols g.cellWidthPixels
  let expectedHeight := checkedMul size.rows g.cellHeightPixels
  if expectedWidth ≠ some g.widthPixels ∨ expectedHeight ≠ some g.heightPixels then .error g.invalid else .ok g

/-- A PTY counts its pixels in 16 bits. -/
def ptyLimit (g : TerminalPixelGeometry) : Except String Unit :=
  if 2 ^ 16 ≤ g.widthPixels then .error "terminal pixel width exceeds the PTY limit"
  else if 2 ^ 16 ≤ g.heightPixels then .error "terminal pixel height exceeds the PTY limit"
  else .ok ()

end TerminalPixelGeometry

def validatePixels (size : TerminalSize) (geometry : Option TerminalPixelGeometry) : Except String Unit :=
  match geometry with
  | none => .ok ()
  | some g =>
    match g.validateForSize size with
    | .error text => .error text
    | .ok g => g.ptyLimit

/-- `TerminalControl::Resize`. -/
structure ResizeControl where
  rows : Nat
  cols : Nat
  widthPixels : Nat
  heightPixels : Nat
  cellWidthPixels : Nat
  cellHeightPixels : Nat
  claim : Bool
  deriving DecidableEq

/-- `validate_resize`: a resize without pixels has a size only. -/
def validateResize (r : ResizeControl) : Except String Unit :=
  match TerminalSize.new r.rows r.cols with
  | .error text => .error text
  | .ok size =>
    if r.widthPixels = 0 ∧ r.heightPixels = 0 ∧ r.cellWidthPixels = 0 ∧ r.cellHeightPixels = 0 then .ok ()
    else match TerminalPixelGeometry.new r.widthPixels r.heightPixels r.cellWidthPixels r.cellHeightPixels with
      | .error text => .error text
      | .ok g => validatePixels size (some g)

end Kodosi.Terminal
