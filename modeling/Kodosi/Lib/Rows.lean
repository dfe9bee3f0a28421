import Mathlib

/-! Things in a row without end, where some are taken out and others put in, and two such rows of which one follows the
    other: it holds what lives of it, in its order, and strange things besides. -/

namespace Kodosi.Lib

variable {α ι : Type*}

/-- The row with `n` new things in front of a place. -/
def putIn (P : Nat → α) (at' n : Nat) (new : Nat → α) (l : Nat) : α :=
  if l < at' then P l else if l < at' + n then new (l - at') else P (l - n)

/-- The row without the `n` things from a place on. -/
def takeOut (P : Nat → α) (at' n l : Nat) : α := if l < at' then P l else P (l + n)

/-- What stands at `l` in the first row stands at `f l` in the second one. -/
structure Follows (f : Nat → Option Nat) (lives : α → Bool) (Strange : α → Prop) (P Q : Nat → α) : Prop where
  goes : ∀ {l k}, f l = some k → Q k = P l ∧ lives (P l) = true
  gone : ∀ {l}, f l = none → lives (P l) = false
  strange : ∀ {k}, (∀ l, f l ≠ some k) → Strange (Q k)
  dead : ∀ {o}, Strange o → lives o = false
  once : ∀ {l l'}, lives (P l) = true → P l = P l' → l = l'

/-- Places stay in their order. -/
def Rises (f : Nat → Option Nat) : Prop := ∀ {l l' k k'}, l < l' → f l = some k → f l' = some k' → k < k'

/-- A place of the second row is where a place of the first one falls between its things. -/
def Gap (f : Nat → Option Nat) (x y : Nat) : Prop := ∀ {l k}, f l = some k → (x ≤ l ↔ y ≤ k)

namespace Follows

variable {f f' : Nat → Option Nat} {lives : α → Bool} {Strange : α → Prop} {P Q : Nat → α} {l k x y n : Nat}

theorem lives_iff (h : Follows f lives Strange P Q) : lives (P l) = true ↔ ∃ k, f l = some k := by
  cases hf : f l with
  | none => simp [h.gone hf]
  | some k => simp [(h.goes hf).2]

/-- A thing that lives stands at one place. -/
theorem place (h : Follows f lives Strange P Q) {k' : Nat} (hf : f l = some k) (heq : Q k' = P l) : k' = k := by
  obtain ⟨-, hl⟩ := h.goes hf
  by_cases hother : ∃ l', f l' = some k'
  · obtain ⟨l', hf'⟩ := hother
    have hsame := h.once hl (heq.symm.trans (h.goes hf').1)
    rw [← hsame, hf] at hf'
    exact (Option.some.inj hf').symm
  · have hdead := h.dead (h.strange fun l' hf' => hother ⟨l', hf'⟩)
    rw [heq, hl] at hdead
    exact absurd hdead nofun

/-- One thing is kept where it is found at the place it goes to. -/
theorem kept_one (h : Follows f lives Strange P Q) (o : Option Nat) :
    o.toList.map Q = [P x].filter lives ↔ o = f x := by
  cases hf : f x with
  | none =>
    have hdead := h.gone hf
    cases o <;> simp [hdead]
  | some k =>
    obtain ⟨hgoes, hl⟩ := h.goes hf
    cases o with
    | none => simp [hl]
    | some y =>
      rw [List.filter_cons_of_pos hl, Option.some_inj, Option.toList_some, List.map_singleton, List.filter_nil,
        List.singleton_inj]
      exact ⟨h.place hf, fun hy => hy ▸ hgoes⟩

/-- Some things are kept one by one where none of them is gone and each is found at the place it goes to. -/
theorem kept_all (h : Follows f lives Strange P Q) (p q : ι → Nat) (is : List ι) :
    (is.map fun i => Q (q i)) = (is.map fun i => P (p i)).filter lives ↔ ∀ i ∈ is, f (p i) = some (q i) := by
  constructor
  · intro heq
    -- what is left of them is as many, so all of them live
    have hall : ∀ o ∈ is.map fun i => P (p i), lives o = true := by
      refine List.filter_eq_self.mp (List.filter_sublist.eq_of_length ?_)
      rw [← heq, List.length_map, List.length_map]
    rw [List.filter_eq_self.mpr hall] at heq
    intro i hi
    obtain ⟨k, hk⟩ := h.lives_iff.mp (hall _ (List.mem_map.mpr ⟨i, hi, rfl⟩))
    have hq := h.place hk (List.map_inj_left.mp heq i hi)
    rw [hk, hq]
  · intro hall
    rw [List.filter_eq_self.mpr]
    · exact List.map_congr_left fun i hi => (h.goes (hall i hi)).1
    · intro o ho
      obtain ⟨i, hi, rfl⟩ := List.mem_map.mp ho
      exact (h.goes (hall i hi)).2

theorem kept_none (h : Follows f lives Strange P Q) (p : ι → Nat) (is : List ι) :
    [] = (is.map fun i => P (p i)).filter lives ↔ ∀ i ∈ is, f (p i) = none := by
  rw [eq_comm, List.filter_eq_nil_iff]
  constructor
  · intro hall i hi
    have hdead := hall _ (List.mem_map.mpr ⟨i, hi, rfl⟩)
    rw [h.lives_iff] at hdead
    exact Option.eq_none_iff_forall_ne_some.mpr fun k hk => hdead ⟨k, hk⟩
  · intro hall o ho
    obtain ⟨i, hi, rfl⟩ := List.mem_map.mp ho
    simp [h.gone (hall i hi)]

/-- What stands behind a place of one row and what stands behind a place of the other are the same things. -/
theorem behind_iff (h : Follows f lives Strange P Q) :
    {o | ¬Strange o ∧ ∃ k, y ≤ k ∧ Q k = o} = {o | (¬Strange o ∧ ∃ l, x ≤ l ∧ P l = o) ∧ lives o = true} ↔
      Gap f x y := by
  have hmem : ∀ {l k}, f l = some k → ((¬Strange (Q k) ∧ ∃ k', y ≤ k' ∧ Q k' = Q k) ↔ y ≤ k) ∧
      (((¬Strange (Q k) ∧ ∃ l', x ≤ l' ∧ P l' = Q k) ∧ lives (Q k) = true) ↔ x ≤ l) := by
    intro l k hf
    obtain ⟨hgoes, hl⟩ := h.goes hf
    have hknown : ¬Strange (Q k) := fun hs => by
      rw [hgoes] at hs
      rw [h.dead hs] at hl
      exact absurd hl nofun
    refine ⟨⟨?_, fun hy => ⟨hknown, k, hy, rfl⟩⟩, ⟨?_, fun hx => ⟨⟨hknown, l, hx, hgoes.symm⟩, hgoes ▸ hl⟩⟩⟩
    · rintro ⟨-, k', hy, hk'⟩
      exact h.place hf (hk'.trans hgoes) ▸ hy
    · rintro ⟨⟨-, l', hx, hl'⟩, -⟩
      exact h.once hl (hgoes ▸ hl'.symm) ▸ hx
  constructor
  · intro heq l k hf
    rw [← (hmem hf).1, ← (hmem hf).2]
    exact (Set.ext_iff.mp heq (Q k)).symm
  · intro hgap
    ext o
    constructor
    · rintro ⟨hknown, k, hy, rfl⟩
      by_cases himage : ∃ l, f l = some k
      · obtain ⟨l, hf⟩ := himage
        exact (hmem hf).2.mpr ((hgap hf).mpr hy)
      · exact absurd (h.strange fun l hf => himage ⟨l, hf⟩) hknown
    · rintro ⟨⟨hknown, l, hx, rfl⟩, hl⟩
      obtain ⟨k, hf⟩ := h.lives_iff.mp hl
      exact ⟨hknown, k, (hgap hf).mp hx, (h.goes hf).1⟩

/-! ### Rows that change together -/

/-- New things are put in at one place of both rows. -/
theorem putIn (h : Follows f lives Strange P Q) {new : Nat → α} (hgap : Gap f x y) (hlives : ∀ i, lives (new i) = true)
    (hnew : ∀ i l, P l ≠ new i) (honce : ∀ i j, new i = new j → i = j)
    (hf' : ∀ l, f' l = if l < x then f l else if l < x + n then some (y + (l - x)) else (f (l - n)).map (· + n)) :
    Follows f' lives Strange (Lib.putIn P x n new) (Lib.putIn Q y n new) where
  goes := by
    intro l k hk
    rw [hf'] at hk
    simp only [Lib.putIn]
    split_ifs at hk with hbefore hin
    · have hk' : k < y := by
        have := hgap hk
        omega
      rw [if_pos hbefore, if_pos hk']
      exact h.goes hk
    · obtain rfl := Option.some.inj hk
      rw [if_neg (by omega), if_pos (by omega), if_neg hbefore, if_pos hin]
      exact ⟨congrArg new (by omega), hlives _⟩
    · obtain ⟨j, hj, rfl⟩ := Option.map_eq_some_iff.mp hk
      have hy : y ≤ j := (hgap hj).mp (by omega)
      rw [if_neg (by omega), if_neg (by omega), if_neg hbefore, if_neg hin, Nat.add_sub_cancel]
      exact h.goes hj
  gone := by
    intro l hl
    rw [hf'] at hl
    simp only [Lib.putIn]
    split_ifs at hl ⊢ with hbefore hin
    · exact h.gone hl
    · exact h.gone (Option.map_eq_none_iff.mp hl)
  strange := by
    intro k hk
    simp only [Lib.putIn]
    split_ifs with hbefore hin
    · refine h.strange fun l hl => hk l ?_
      have := hgap hl
      rw [hf', if_pos (by omega), hl]
    · refine absurd ?_ (hk (x + (k - y)))
      rw [hf', if_neg (by omega), if_pos (by omega)]
      exact congrArg some (by omega)
    · refine h.strange fun l hl => hk (l + n) ?_
      have := hgap hl
      rw [hf', if_neg (by omega), if_neg (by omega), Nat.add_sub_cancel, hl, Option.map_some]
      exact congrArg some (by omega)
  dead := h.dead
  once := by
    intro l l' hl heq
    simp only [Lib.putIn] at hl heq
    split_ifs at hl heq
    · exact h.once hl heq
    · exact absurd heq (hnew _ _)
    · have := h.once hl heq
      omega
    · exact absurd heq.symm (hnew _ _)
    · have := honce _ _ heq
      omega
    · exact absurd heq.symm (hnew _ _)
    · have := h.once hl heq
      omega
    · exact absurd heq (hnew _ _)
    · have := h.once hl heq
      omega

/-- Both rows are the same things, of which all live and none is there twice. -/
theorem same (hf : ∀ l, f l = some l) (hlives : ∀ l, lives (P l) = true) (hdead : ∀ {o}, Strange o → lives o = false)
    (honce : ∀ {l l'}, P l = P l' → l = l') : Follows f lives Strange P P where
  goes := by
    intro l k hk
    rw [hf, Option.some_inj] at hk
    exact hk ▸ ⟨rfl, hlives l⟩
  gone := by
    intro l hl
    rw [hf] at hl
    exact absurd hl nofun
  strange := fun hk => absurd (hf _) (hk _)
  dead := hdead
  once := fun _ => honce

theorem takeOut_once (h : Follows f lives Strange P Q) {l l' : Nat} (hl : lives (Lib.takeOut P x n l) = true)
    (heq : Lib.takeOut P x n l = Lib.takeOut P x n l') : l = l' := by
  simp only [Lib.takeOut] at hl heq
  split_ifs at hl heq <;> have := h.once hl heq <;> omega

/-- The same things are taken out of both rows. -/
theorem takeOut (h : Follows f lives Strange P Q) (hrises : Rises f) (hn : 0 < n)
    (hsame : ∀ i < n, f (x + i) = some (y + i))
    (hf' : ∀ l, f' l = if l < x then f l else (f (l + n)).map (· - n)) :
    Follows f' lives Strange (Lib.takeOut P x n) (Lib.takeOut Q y n) := by
  have hbefore : ∀ {l k}, l < x → f l = some k → k < y := fun hl hk => hrises (by omega) hk (hsame 0 hn)
  have hbehind : ∀ {l k}, x + n ≤ l → f l = some k → y + n ≤ k := fun hl hk => by
    have := hrises (by omega) (hsame (n - 1) (by omega)) hk
    omega
  refine ⟨?_, ?_, ?_, h.dead, h.takeOut_once⟩
  · intro l k hk
    rw [hf'] at hk
    simp only [Lib.takeOut]
    split_ifs at hk with hl
    · rw [if_pos hl, if_pos (hbefore hl hk)]
      exact h.goes hk
    · obtain ⟨j, hj, rfl⟩ := Option.map_eq_some_iff.mp hk
      have := hbehind (by omega) hj
      rw [if_neg hl, if_neg (by omega), Nat.sub_add_cancel (by omega)]
      exact h.goes hj
  · intro l hl
    rw [hf'] at hl
    simp only [Lib.takeOut]
    split_ifs at hl ⊢
    · exact h.gone hl
    · exact h.gone (Option.map_eq_none_iff.mp hl)
  · intro k hk
    simp only [Lib.takeOut]
    split_ifs with hy
    · refine h.strange fun l hl => ?_
      by_cases hx : l < x
      · exact hk l (by rw [hf', if_pos hx, hl])
      by_cases hin : l < x + n
      · have := hsame (l - x) (by omega)
        rw [show x + (l - x) = l by omega, hl, Option.some_inj] at this
        omega
      · have := hbehind (by omega) hl
        omega
    · refine h.strange fun l hl => ?_
      by_cases hx : l < x
      · have := hbefore hx hl
        omega
      by_cases hin : l < x + n
      · have := hsame (l - x) (by omega)
        rw [show x + (l - x) = l by omega, hl, Option.some_inj] at this
        omega
      · refine hk (l - n) ?_
        rw [hf', if_neg (by omega), Nat.sub_add_cancel (by omega), hl, Option.map_some, Nat.add_sub_cancel]

/-- Only things that are gone already are taken out. -/
theorem takeOut_gone (h : Follows f lives Strange P Q) (hgone : ∀ i < n, f (x + i) = none)
    (hf' : ∀ l, f' l = if l < x then f l else f (l + n)) : Follows f' lives Strange (Lib.takeOut P x n) Q := by
  refine ⟨?_, ?_, ?_, h.dead, h.takeOut_once⟩
  · intro l k hk
    rw [hf'] at hk
    simp only [Lib.takeOut]
    split_ifs at hk ⊢ <;> exact h.goes hk
  · intro l hl
    rw [hf'] at hl
    simp only [Lib.takeOut]
    split_ifs at hl ⊢ <;> exact h.gone hl
  · intro k hk
    refine h.strange fun l hl => ?_
    by_cases hx : l < x
    · exact hk l (by rw [hf', if_pos hx, hl])
    by_cases hin : l < x + n
    · have := hgone (l - x) (by omega)
      rw [show x + (l - x) = l by omega, hl] at this
      exact absurd this nofun
    · exact hk (l - n) (by rw [hf', if_neg (by omega), Nat.sub_add_cancel (by omega), hl])

end Follows

end Kodosi.Lib
