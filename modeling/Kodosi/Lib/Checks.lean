import Mathlib

/-! Code that may fail, as `Except`: what is known of each step once the whole has succeeded. -/

namespace Kodosi.Lib

variable {ε α β : Type}

theorem bind_ok {x : Except ε α} {f : α → Except ε β} {b : β} (h : x >>= f = .ok b) : ∃ a, x = .ok a ∧ f a = .ok b := by
  cases x with
  | error e => simp [bind, Except.bind] at h
  | ok a => exact ⟨a, rfl, h⟩

theorem ok_bind {x : Except ε α} {f : α → Except ε β} {a : α} (h : x = .ok a) : x >>= f = f a := by
  rw [h]
  rfl

/-- Stops with an error when the condition holds. -/
def reject (bad : Prop) [Decidable bad] (e : ε) : Except ε Unit := if bad then .error e else .ok ()

theorem reject_ok {bad : Prop} [Decidable bad] {e : ε} : reject bad e = .ok () ↔ ¬bad := by
  by_cases h : bad
  · simp [reject, h]
  · simp [reject, h]

/-- The value of an optional result, or an error. -/
def require (e : ε) : Option α → Except ε α
  | some a => .ok a
  | none => .error e

theorem require_ok {e : ε} {x : Option α} {a : α} : require e x = .ok a ↔ x = some a := by
  cases x <;> simp [require]

/-- A loop that ends well has ended well at each element. -/
theorem forM_ok {f : α → Except ε Unit} : ∀ {as : List α}, as.forM f = .ok () ↔ ∀ a ∈ as, f a = .ok ()
  | [] => by simp [pure, Except.pure]
  | a :: as => by
    refine ⟨fun h => ?_, fun h => ?_⟩
    · obtain ⟨⟨⟩, ha, has⟩ := bind_ok (f := fun _ => as.forM f) h
      exact List.forall_mem_cons.mpr ⟨ha, forM_ok.mp has⟩
    · obtain ⟨ha, has⟩ := List.forall_mem_cons.mp h
      have htail : as.forM f = .ok () := forM_ok.mpr has
      show (f a >>= fun _ => as.forM f) = .ok ()
      rw [ha]
      exact htail

/-- What each round of a loop keeps, the whole loop keeps; `d` are the rounds so far. -/
theorem foldlM_ok {f : β → α → Except ε β} {I : List α → β → Prop}
    (hstep : ∀ {d a b b'}, I d b → f b a = .ok b' → I (d ++ [a]) b') :
    ∀ {as d : List α} {b b' : β}, I d b → as.foldlM f b = .ok b' → I (d ++ as) b'
  | [], d, b, b', hb, h => by
    obtain rfl : b = b' := Except.ok.inj h
    rwa [List.append_nil]
  | a :: as, d, b, b', hb, h => by
    rw [List.foldlM_cons] at h
    obtain ⟨c, hc, h⟩ := bind_ok h
    have := foldlM_ok hstep (hstep hb hc) h
    rwa [List.append_assoc] at this

end Kodosi.Lib
