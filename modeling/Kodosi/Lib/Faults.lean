import Kodosi.Lib.Checks

/-! Code that may refuse what it is given, and that may also stop short: at an index that a list does
    not have, or at a number that leaves 64 bits. -/

namespace Kodosi.Lib

variable {α β : Type}

/-- Why a call gave nothing. -/
inductive Fault where
  | failed (message : String)
  | panic
  deriving DecidableEq

abbrev Out := Except Fault

def failed (message : String) : Out α := .error (.failed message)

def panics : Out α := .error .panic

/-- A sum of 64 bits. -/
def add64 (a b : Nat) : Out Nat := if a + b < 2 ^ 64 then .ok (a + b) else panics

/-- A difference of numbers without a sign. -/
def sub64 (a b : Nat) : Out Nat := if b ≤ a then .ok (a - b) else panics

/-- An element by its index. -/
def index (items : List α) (i : Nat) : Out α := (items[i]?).elim panics .ok

/-- A call that does not stop short: it gives a value or refuses. -/
def Calm (x : Out α) : Prop := x ≠ panics

theorem add64_ok {a b c : Nat} : add64 a b = .ok c ↔ a + b < 2 ^ 64 ∧ a + b = c := by
  unfold add64
  split
  · simp_all
  · simp_all [panics]

theorem sub64_ok {a b c : Nat} : sub64 a b = .ok c ↔ b ≤ a ∧ a - b = c := by
  by_cases h : b ≤ a
  · simp [sub64, h]
  · simp [sub64, h, panics]

theorem index_ok {items : List α} {i : Nat} {a : α} : index items i = .ok a ↔ items[i]? = some a := by
  cases h : items[i]? <;> simp [index, h, panics]

/-! ### Calls that do not stop short -/

theorem calm_ok (a : α) : Calm (.ok a : Out α) := by simp [Calm, panics]

instance decideCalm : (x : Out α) → Decidable (Calm x)
  | .ok a => .isTrue (calm_ok a)
  | .error (.failed _) => .isTrue nofun
  | .error .panic => .isFalse fun h => h rfl

theorem calm_pure (a : α) : Calm (pure a : Out α) := calm_ok a

theorem calm_failed (message : String) : Calm (failed message : Out α) := by
  simp [Calm, failed, panics]

theorem calm_of_ok {x : Out α} {a : α} (h : x = .ok a) : Calm x := h ▸ calm_ok a

theorem calm_require (message : String) (x : Option α) : Calm (require (.failed message) x) := by
  cases x <;> simp [require, Calm, panics]

/-- A sequence does not stop short when its first call does not, nor what follows from its value. -/
theorem calm_bind {x : Out α} {f : α → Out β} (hx : Calm x) (hf : ∀ a, x = .ok a → Calm (f a)) : Calm (x >>= f) := by
  cases x with
  | error e => exact fun h => hx (congrArg (Except.error (α := α)) (Except.error.inj h))
  | ok a => exact hf a rfl

theorem calm_map {x : Out α} {f : α → β} (h : Calm x) : Calm (x.map f) := by
  cases x with
  | error e => exact fun herror => h (congrArg (Except.error (α := α)) (Except.error.inj herror))
  | ok a => exact calm_ok _

theorem calm_ite {p : Prop} [Decidable p] {x y : Out α} (hx : p → Calm x) (hy : ¬p → Calm y) :
    Calm (if p then x else y) := by
  by_cases h : p
  · rw [if_pos h]
    exact hx h
  · rw [if_neg h]
    exact hy h

end Kodosi.Lib
