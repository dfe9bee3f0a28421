import Mathlib

/-! Two runs of a machine, of which the second one is spared some inputs of the first: what each input keeps
    alike, every run keeps alike. -/

namespace Kodosi.Lib

variable {σ ι : Type*} (step : σ → ι → σ) (spare : σ → ι → List ι)

/-- The inputs of the second run: each input of the first is spared where it comes. -/
def purge (s : σ) : List ι → List ι
  | [] => []
  | i :: is => spare s i ++ purge (step s i) is

/-- Every input of a run is allowed where it comes. -/
def AllAllowed (allowed : σ → ι → Prop) (s : σ) : List ι → Prop
  | [] => True
  | i :: is => allowed s i ∧ AllAllowed allowed (step s i) is

variable {step spare} {allowed : σ → ι → Prop}

theorem AllAllowed.invariant {I : σ → Prop} (hstep : ∀ {s i}, I s → allowed s i → I (step s i)) {is : List ι}
    {s : σ} (hs : I s) (h : AllAllowed step allowed s is) : I (is.foldl step s) := by
  induction is generalizing s with
  | nil => exact hs
  | cons i is ih =>
    rw [List.foldl_cons]
    exact ih (hstep hs h.1) h.2

/-- Where each allowed input of the first machine and what the second one is spared of it keep the two alike, the
    ends of the two runs are alike. -/
theorem purge_alike {R : σ → σ → Prop}
    (hstep : ∀ {s t i}, R s t → allowed s i → R (step s i) ((spare s i).foldl step t)) {is : List ι} {s t : σ}
    (hs : R s t) (h : AllAllowed step allowed s is) :
    R (is.foldl step s) ((purge step spare s is).foldl step t) := by
  induction is generalizing s t with
  | nil => exact hs
  | cons i is ih =>
    rw [List.foldl_cons, purge, List.foldl_append]
    exact ih (hstep hs h.1) h.2

end Kodosi.Lib
