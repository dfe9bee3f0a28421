import Mathlib

/-! Ordered maps from lists of entries, and maps whose keys move. -/

namespace Kodosi.Lib
open Std

variable {K V : Type} {cmp : K → K → Ordering} [TransCmp cmp] [LawfulEqCmp cmp]

/-- The entries of a list that has each key once. -/
theorem getElem?_ofList_iff {entries : List (K × V)} (hdistinct : entries.Pairwise fun a b => ¬cmp a.1 b.1 = .eq) {k : K} {v : V} :
    (ExtTreeMap.ofList entries cmp)[k]? = some v ↔ (k, v) ∈ entries := by
  classical
  have hmem : ∀ {v'}, (k, v') ∈ entries → (ExtTreeMap.ofList entries cmp)[k]? = some v' :=
    fun h => ExtTreeMap.getElem?_ofList_of_mem ReflCmp.compare_self hdistinct h
  refine ⟨fun h => ?_, hmem⟩
  by_cases hk : k ∈ entries.map Prod.fst
  · obtain ⟨⟨_, v'⟩, hv', rfl⟩ := List.mem_map.mp hk
    have hsame := (hmem hv').symm.trans h
    rwa [Option.some.inj hsame] at hv'
  · have hnone : (ExtTreeMap.ofList entries cmp)[k]? = none :=
      ExtTreeMap.getElem?_ofList_of_contains_eq_false (by simpa using hk)
    rw [hnone] at h
    cases h

/-- Each key moves, or its entry goes. -/
def moveKeys (m : ExtTreeMap K V cmp) (move : K → Option K) : ExtTreeMap K V cmp :=
  .ofList (m.toList.filterMap fun entry => (move entry.1).map fun k => (k, entry.2)) cmp

variable {m : ExtTreeMap K V cmp} {move : K → Option K}

theorem mem_moveKeys {l : K} (h : l ∈ moveKeys m move) : ∃ k ∈ m, move k = some l := by
  classical
  rw [moveKeys, ExtTreeMap.mem_ofList, List.contains_iff_mem] at h
  obtain ⟨entry, hentry, rfl⟩ := List.mem_map.mp h
  obtain ⟨⟨k, v⟩, hin, hmove⟩ := List.mem_filterMap.mp hentry
  obtain ⟨l, hl, rfl⟩ := Option.map_eq_some_iff.mp hmove
  refine ⟨k, ?_, hl⟩
  rw [ExtTreeMap.mem_iff_isSome_getElem?, ExtTreeMap.mem_toList_iff_getElem?_eq_some.mp hin]
  rfl

/-- Where no two keys meet, each entry is at the place of its key, and nothing else is there. -/
theorem getElem?_moveKeys (hmeet : ∀ {k k' : K}, k ∈ m → k' ∈ m → ∀ {l}, move k = some l → move k' = some l → k = k')
    {l : K} {v : V} :
    (moveKeys m move)[l]? = some v ↔ ∃ k, m[k]? = some v ∧ move k = some l := by
  have hdistinct : (m.toList.filterMap fun entry => (move entry.1).map fun k => (k, entry.2)).Pairwise
      fun a b => ¬cmp a.1 b.1 = .eq := by
    rw [List.pairwise_filterMap]
    refine ExtTreeMap.distinct_keys_toList.imp_of_mem ?_
    rintro ⟨k, v⟩ ⟨k', v'⟩ hk hk' hne a ha b hb hab
    obtain ⟨l, hl, rfl⟩ := Option.map_eq_some_iff.mp ha
    obtain ⟨l', hl', rfl⟩ := Option.map_eq_some_iff.mp hb
    obtain rfl : l = l' := LawfulEqCmp.eq_of_compare hab
    have hin : k ∈ m := ExtTreeMap.mem_iff_isSome_getElem?.mpr (by rw [ExtTreeMap.mem_toList_iff_getElem?_eq_some.mp hk]; rfl)
    have hin' : k' ∈ m := ExtTreeMap.mem_iff_isSome_getElem?.mpr (by rw [ExtTreeMap.mem_toList_iff_getElem?_eq_some.mp hk']; rfl)
    obtain rfl := hmeet hin hin' hl hl'
    exact hne ReflCmp.compare_self
  rw [moveKeys, getElem?_ofList_iff hdistinct, List.mem_filterMap]
  constructor
  · rintro ⟨⟨k, v'⟩, hk, hmove⟩
    obtain ⟨l', hl', hpair⟩ := Option.map_eq_some_iff.mp hmove
    obtain ⟨rfl, rfl⟩ := Prod.mk.inj hpair
    exact ⟨k, ExtTreeMap.mem_toList_iff_getElem?_eq_some.mp hk, hl'⟩
  · rintro ⟨k, hk, hmove⟩
    exact ⟨(k, v), ExtTreeMap.mem_toList_iff_getElem?_eq_some.mpr hk, by rw [hmove]; rfl⟩

end Kodosi.Lib
