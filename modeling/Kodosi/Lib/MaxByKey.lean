import Mathlib

/-! The last of the elements whose key is greatest. -/

namespace Kodosi.Lib

variable {α : Type}

def maxByKey (key : α → Nat) (l : List α) : Option α :=
  l.foldl (fun best x => if best.any fun b => decide (key x < key b) then best else some x) none

theorem maxByKey_append (key : α → Nat) (l : List α) (x : α) :
    maxByKey key (l ++ [x]) = if (maxByKey key l).any fun b => decide (key x < key b) then maxByKey key l else some x := by
  rw [maxByKey, List.foldl_append]
  rfl

theorem maxByKey_none {key : α → Nat} {l : List α} (h : maxByKey key l = none) : l = [] := by
  cases l using List.reverseRecOn with
  | nil => rfl
  | append_singleton l x _ =>
    rw [maxByKey_append] at h
    split at h
    · next hany =>
      rw [h] at hany
      cases hany
    · cases h

theorem maxByKey_some {key : α → Nat} {l : List α} {x : α} (h : maxByKey key l = some x) :
    x ∈ l ∧ ∀ y ∈ l, key y ≤ key x := by
  induction l using List.reverseRecOn generalizing x with
  | nil => cases h
  | append_singleton l z ih =>
    rw [maxByKey_append] at h
    cases hbest : maxByKey key l with
    | none =>
      rw [hbest] at h
      obtain rfl := Option.some.inj h
      refine ⟨List.mem_append_right _ (List.mem_singleton.mpr rfl), fun y hy => ?_⟩
      rcases List.mem_append.mp hy with hy | hy
      · rw [maxByKey_none hbest] at hy
        cases hy
      · rw [List.mem_singleton.mp hy]
    | some b =>
      obtain ⟨hmem, hmost⟩ := ih hbest
      rw [hbest, Option.any_some] at h
      split at h
      · next hless =>
        obtain rfl := Option.some.inj h
        refine ⟨List.mem_append_left _ hmem, fun y hy => ?_⟩
        rcases List.mem_append.mp hy with hy | hy
        · exact hmost y hy
        · rw [List.mem_singleton.mp hy]
          exact (of_decide_eq_true hless).le
      · next hless =>
        obtain rfl := Option.some.inj h
        refine ⟨List.mem_append_right _ (List.mem_singleton.mpr rfl), fun y hy => ?_⟩
        rcases List.mem_append.mp hy with hy | hy
        · exact (hmost y hy).trans (not_lt.mp fun hlt => hless (decide_eq_true hlt))
        · rw [List.mem_singleton.mp hy]

end Kodosi.Lib
