import Mathlib

/-! Dictionaries, which have at most one value for a key. -/

namespace Kodosi.Lib

abbrev Dictionary (K V : Type) := AList fun _ : K => V

namespace Dictionary

variable {K V : Type} [DecidableEq K]

theorem lookup_insert (d : Dictionary K V) (k k' : K) (v : V) :
    (d.insert k v).lookup k' = if k' = k then some v else d.lookup k' := by
  by_cases h : k' = k
  · subst h
    rw [if_pos rfl, AList.lookup_insert]
  · rw [if_neg h, AList.lookup_insert_ne h]

theorem lookup_erase (d : Dictionary K V) (k k' : K) :
    (d.erase k).lookup k' = if k' = k then none else d.lookup k' := by
  by_cases h : k' = k
  · subst h
    rw [if_pos rfl, AList.lookup_erase]
  · rw [if_neg h, AList.lookup_erase_ne h]

theorem insert_erase (d : Dictionary K V) (k : K) (v : V) : AList.insert k v (d.erase k) = d.insert k v := by
  refine AList.ext ?_
  rw [AList.entries_insert, AList.entries_insert]
  congr 1
  exact List.kerase_of_notMem_keys (List.notMem_keys_kerase k d.nodupKeys)

theorem erase_of_none {d : Dictionary K V} {k : K} (h : d.lookup k = none) : d.erase k = d := by
  refine AList.ext ?_
  exact List.kerase_of_notMem_keys (AList.lookup_eq_none.mp h)

theorem lookup_empty (k : K) : (∅ : Dictionary K V).lookup k = none := AList.lookup_empty k

/-- Changes the value of a key that is there. -/
def modify (d : Dictionary K V) (k : K) (f : V → V) : Dictionary K V := (d.lookup k).elim d fun v => d.insert k (f v)

theorem lookup_modify (d : Dictionary K V) (k k' : K) (f : V → V) :
    (d.modify k f).lookup k' = if k' = k then (d.lookup k).map f else d.lookup k' := by
  cases h : d.lookup k with
  | none =>
    by_cases hk : k' = k
    · subst hk
      rw [modify, h, if_pos rfl]
      exact h
    · rw [modify, h, if_neg hk]
      rfl
  | some v =>
    rw [modify, h]
    exact lookup_insert d k k' (f v)

end Dictionary

end Kodosi.Lib
