import Mathlib

/-! Runs of a labelled transition relation, and the two rules that the component proofs use: an
    invariant that each step keeps holds along every run, and a run of a guarded relation is a run
    of the relation itself. A machine that is a function of its state and its input gives a run for
    every list of inputs. -/

namespace Kodosi.Lib

variable {σ τ α β : Type*}

/-- `Run next s as t`: the labels `as`, taken in order, lead from `s` to `t`. -/
inductive Run (next : σ → α → σ → Prop) (s : σ) : List α → σ → Prop
  | nil : Run next s [] s
  | snoc {t u : σ} {as : List α} {a : α} :
      Run next s as t → next t a u → Run next s (as ++ [a]) u

/-- The steps of `next` that start where `guard` allows the label. -/
def Guarded (guard : σ → α → Prop) (next : σ → α → σ → Prop) (s : σ) (a : α) (t : σ) : Prop :=
  guard s a ∧ next s a t

namespace Run

variable {next : σ → α → σ → Prop} {s t : σ} {as : List α}

/-- What every step keeps, every run keeps. -/
theorem invariant {I : σ → Prop} (hstep : ∀ {s a t}, I s → next s a t → I t)
    (hrun : Run next s as t) (hs : I s) : I t := by
  induction hrun with
  | nil => exact hs
  | snoc _ hnext ih => exact hstep ih hnext

/-- Two runs, one after the other. -/
theorem trans {bs : List α} {u : σ} (h : Run next s as t) (h' : Run next t bs u) : Run next s (as ++ bs) u := by
  induction h' with
  | nil => rwa [List.append_nil]
  | snoc _ hnext ih =>
    rw [← List.append_assoc]
    exact .snoc ih hnext

theorem nil_iff : Run next s [] t ↔ t = s := by
  refine ⟨fun h => ?_, fun h => h ▸ .nil⟩
  generalize has : ([] : List α) = as at h
  cases h with
  | nil => rfl
  | snoc => simp at has

theorem snoc_iff {a : α} : Run next s (as ++ [a]) t ↔ ∃ u, Run next s as u ∧ next u a t := by
  refine ⟨fun h => ?_, fun ⟨u, h, hnext⟩ => .snoc h hnext⟩
  generalize has : as ++ [a] = bs at h
  cases h with
  | nil => simp at has
  | snoc h hnext =>
    obtain ⟨rfl, rfl⟩ := List.append_singleton_inj.mp has
    exact ⟨_, h, hnext⟩

theorem single_iff {a : α} : Run next s [a] t ↔ next s a t := by
  rw [← List.nil_append [a], snoc_iff]
  simp [nil_iff]

/-- A map of the states and the labels that takes steps to steps takes runs to runs. -/
theorem image {next' : τ → β → τ → Prop} (f : σ → τ) (g : α → β)
    (hstep : ∀ s a t, next s a t → next' (f s) (g a) (f t)) (hrun : Run next s as t) :
    Run next' (f s) (as.map g) (f t) := by
  induction hrun with
  | nil => exact .nil
  | snoc _ hnext ih =>
    rw [List.map_append]
    exact .snoc ih (hstep _ _ _ hnext)

/-- A run of a smaller relation is a run of a larger one. -/
theorem mono {next' : σ → α → σ → Prop} (hle : ∀ s a t, next s a t → next' s a t)
    (hrun : Run next s as t) : Run next' s as t := by
  simpa using hrun.image id id hle

variable {guard : σ → α → Prop}

/-- A run whose steps all meet a condition is a run. -/
theorem unguard (hrun : Run (Guarded guard next) s as t) : Run next s as t :=
  hrun.mono fun _ _ _ h => h.2

/-- A function of the state and the input runs on every list of inputs. -/
theorem foldl (f : σ → α → σ) (s : σ) (as : List α) : Run (fun s a t => t = f s a) s as (as.foldl f s) := by
  induction as using List.reverseRecOn with
  | nil => exact .nil
  | append_singleton as a ih =>
    rw [List.foldl_append]
    exact .snoc ih rfl

/-- A function that not every state has for every input runs where it gives a state. -/
theorem of_foldlM {f : σ → α → Option σ} : ∀ {s t : σ} {as : List α},
    as.foldlM f s = some t → Run (fun s a t => f s a = some t) s as t
  | s, t, [], h => by
    obtain rfl := Option.some.inj h
    exact .nil
  | s, t, a :: as, h => by
    obtain ⟨u, hu, h⟩ := Option.bind_eq_some_iff.mp (List.foldlM_cons.symm.trans h)
    exact trans (single_iff.mpr hu) (of_foldlM h)

/-- A list of inputs that a guard allows one after the other. -/
def Allows (guard : σ → α → Prop) (f : σ → α → σ) : σ → List α → Prop
  | _, [] => True
  | s, a :: as => guard s a ∧ Allows guard f (f s a) as

instance Allows.decidable {guard : σ → α → Prop} {f : σ → α → σ} [∀ s a, Decidable (guard s a)] :
    ∀ (s : σ) (as : List α), Decidable (Allows guard f s as)
  | _, [] => .isTrue trivial
  | s, a :: as => 
    have : Decidable (Allows guard f (f s a) as) := Allows.decidable (f s a) as
    instDecidableAnd

variable {f : σ → α → σ}

/-- Inputs that are allowed one after the other are allowed up to any of them, and from there. -/
theorem allows_append {bs : List α} : ∀ {as : List α} {s : σ},
    Allows guard f s (as ++ bs) → Allows guard f s as ∧ Allows guard f (as.foldl f s) bs
  | [], _, h => ⟨trivial, h⟩
  | _ :: _, _, h => ⟨⟨h.1, (allows_append h.2).1⟩, (allows_append h.2).2⟩

/-- A guarded function runs on the inputs that its guard allows. -/
theorem of_allows : ∀ {s : σ} {as : List α},
    Allows guard f s as → Run (fun s a t => guard s a ∧ t = f s a) s as (as.foldl f s)
  | _, [], _ => .nil
  | _, _ :: _, h => trans (single_iff.mpr ⟨h.1, rfl⟩) (of_allows h.2)

end Run

end Kodosi.Lib
