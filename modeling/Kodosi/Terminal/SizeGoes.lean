import Kodosi.Terminal.SizeKept

/-! One view owns the terminal's size. It changes for a view that may change it, and when the owner is gone it goes to the
    focused view that had it last. -/

namespace Kodosi.Terminal.SizeOwner
open Kodosi.Lib

namespace LocalActor

variable {a b d : LocalActor} {o : Outcome} {c : Controller} {t : Nat} {order : List Controller}

/-- What holds between two requests is not about focus, rights or the owner. -/
theorem Kept.same (h : a.Kept) {focused : Dictionary Controller Nat} {resizeOwner : Option (Controller × Nat)}
    {cancelled : List Nat} {ended : Option String} :
    Kept { a with focused, resizeOwner, cancelled, ended } :=
  ⟨⟨h.agrees.pty, h.agrees.screen, h.agrees.published⟩,
    ⟨h.turns.came, h.turns.never, h.turns.order, h.turns.past⟩, h.checked⟩

/-! ### A view leaves -/

/-- The actor without a view. -/
def without (a : LocalActor) (c : Controller) : LocalActor :=
  { a with
    requested := a.requested.erase c
    heldAt := Function.update a.heldAt c 0
    focused := a.focused.erase c }

theorem Kept.without (h : a.Kept) (c : Controller) : (a.without c).Kept := by
  have hlookup : ∀ c', (a.without c).requested.lookup c' = if c' = c then none else a.requested.lookup c' := fun c' =>
    Dictionary.lookup_erase a.requested c c'
  have hheld : ∀ c', (a.without c).heldAt c' = if c' = c then 0 else a.heldAt c' := fun c' =>
    Function.update_apply a.heldAt c 0 c'
  refine ⟨⟨h.agrees.pty, h.agrees.screen, h.agrees.published⟩, ⟨fun c' hnone => ?_, fun c' r hr => ?_,
    fun c₁ r₁ c₂ r₂ h₁ h₂ => ?_, fun c' => ?_⟩, fun c' r hr => ?_⟩
  · rw [hheld]
    split
    · rfl
    · next hne =>
      rw [hlookup, if_neg hne] at hnone
      exact h.turns.came c' hnone
  · rw [hlookup] at hr
    rw [hheld]
    split at hr
    · cases hr
    · next hne =>
      rw [if_neg hne]
      exact h.turns.never c' r hr
  · rw [hlookup] at h₁ h₂
    rw [hheld, hheld]
    split at h₁
    · cases h₁
    split at h₂
    · cases h₂
    rw [if_neg ‹_›, if_neg ‹_›]
    exact h.turns.order c₁ r₁ c₂ r₂ h₁ h₂
  · rw [hheld]
    split
    · exact Nat.zero_le _
    · exact h.turns.past c'
  · rw [hlookup] at hr
    split at hr
    · cases hr
    · exact h.checked c' r hr

theorem setFocus_left (a : LocalActor) (o : Outcome) (c : Controller) :
    (a.setFocus o c none false).1 = { a with focused := a.focused.erase c } := by
  rw [setFocus.eq_def]
  simp only [Option.any_none, Bool.false_eq_true, if_false]
  split <;> rfl

theorem release_eq (a : LocalActor) (order : List Controller) (o : Outcome) (c : Controller) :
    a.release order o c =
      if a.resizeOwner.any (·.1 == c) then (a.without c).giveSizeBack order o else (a.without c, none) := by
  have hsame : (if (a.focused.lookup c).isSome then
      ({ a with requested := a.requested.erase c, heldAt := Function.update a.heldAt c 0 }.setFocus o c none false).1
      else { a with requested := a.requested.erase c, heldAt := Function.update a.heldAt c 0 }) = a.without c := by
    split
    · rw [setFocus_left]
      rfl
    · next hnone =>
      rw [Bool.not_eq_true, Option.isSome_eq_false_iff, Option.isNone_iff_eq_none] at hnone
      rw [without, Dictionary.erase_of_none hnone]
  rw [release]
  simp only
  rw [hsame]
  rfl

/-! ### The size goes back -/

/-- A view owns the size: its right lives, and the size is the one that it asked for and everybody heard of last. -/
structure Owns (a : LocalActor) (c : Controller) (t : Nat) : Prop where
  owner : a.resizeOwner = some (c, t)
  right : t ∉ a.cancelled
  asked : ∃ r, a.requested.lookup c = some r ∧ r.size = a.size
  heard : a.published.getLast? = some (a.size, a.cell)

/-- A view that took the size owns it. -/
theorem Took.owns {size : TerminalSize} {geometry : Option TerminalPixelGeometry}
    (h : Took (a.askFor o c size geometry) b c t size geometry) (hright : t ∉ o.lapsed ++ a.cancelled) : b.Owns c t := by
  have hcancelled : b.cancelled = o.lapsed ++ a.cancelled := h.cancelled
  have hnew := Dictionary.lookup_insert (a.askFor o c size geometry).requested c c
    ⟨size, geometry, (a.askFor o c size geometry).nextTurn⟩
  rw [if_pos rfl, ← h.requested] at hnew
  refine ⟨h.resizeOwner, ?_, ⟨_, hnew, h.newSize.symm⟩, ?_⟩
  · rw [hcancelled]
    exact hright
  · rw [h.newSize]
    exact h.published

/-- The size goes to the focused view that had it last, among those whose right lives and who asked for a size; it stays as
    it is when there is none, or when the PTY refuses the size or the view loses its right just then. -/
inductive Went (a b : LocalActor) (o : Outcome) : Prop
  | goes (c : Controller) (t : Nat) (r : RequestedSize) (hlive : a.Live c t) (hasked : a.requested.lookup c = some r)
      (hlast : ∀ c', a.Candidate c' → a.heldAt c' ≤ a.heldAt c) (howns : b.Owns c t) (hsize : b.size = r.size)
      (hfocus : b.focused.lookup c = some t)
  | refused (c : Controller) (t : Nat) (r : RequestedSize) (hlive : a.Live c t) (hasked : a.requested.lookup c = some r)
      (hlast : ∀ c', a.Candidate c' → a.heldAt c' ≤ a.heldAt c)
      (hwhy : t ∈ o.lapsed ∨ ∃ text, o.pty = .error text) (hnobody : b.resizeOwner = none) (hsize : b.size = a.size)
  | stays (hnone : ∀ c, ¬ a.Candidate c) (hnobody : b.resizeOwner = none) (hsize : b.size = a.size)

/-- Every focused view is looked at. -/
def Covers (order : List Controller) (a : LocalActor) : Prop := ∀ c, (a.focused.lookup c).isSome → c ∈ order

theorem giveSizeBack_went (h : a.Kept) (hcover : Covers order a) (o : Outcome) :
    (a.giveSizeBack order o).2 ≠ none ∨ (a.giveSizeBack order o).1.Kept ∧ Went a (a.giveSizeBack order o).1 o ∧
      (a.giveSizeBack order o).1.focused = a.focused ∧ ∀ x ∈ a.cancelled, x ∈ (a.giveSizeBack order o).1.cancelled := by
  have hfree : Kept { a with resizeOwner := none } := h.same
  rw [giveSizeBack.eq_def]
  simp only
  split
  · next hnone => exact .inr ⟨hfree, .stays (candidate_none (a := { a with resizeOwner := none }) hcover hnone) rfl rfl,
      rfl, fun x hx => hx⟩
  · next c t hsome =>
    obtain ⟨hlive, ⟨r, hr⟩, hlast⟩ := candidate_some hfree.turns hcover hsome
    have hcases := takeRequestedSize_cases hfree.checked hr o t
    have hkept := hfree.takeRequestedSize o c t
    generalize ({ a with resizeOwner := none } : LocalActor).takeRequestedSize o c t = result at hcases hkept
    obtain ⟨b, going⟩ := result
    cases going with
    | false => exact .inl (Option.some_ne_none _)
    | true =>
      have hb : b.Kept := hkept.resolve_left Bool.noConfusion
      rcases hcases with hno | ⟨-, ⟨heq, hwhy⟩ | ⟨hright, htook⟩⟩
      · cases hno
      · have hstate : b = ({ a with resizeOwner := none } : LocalActor).askFor o c r.size r.geometry := heq
        subst hstate
        refine .inr ⟨hb, .refused c t r hlive hr hlast ?_ rfl rfl, rfl, fun x hx => List.mem_append_right _ hx⟩
        rcases hwhy with hlapsed | hpty
        · exact .inl ((List.mem_append.mp hlapsed).resolve_right hlive.2)
        · exact .inr hpty
      · have hcancelled : b.cancelled = o.lapsed ++ a.cancelled := htook.cancelled
        have hfocused : b.focused = a.focused := htook.focused
        refine .inr ⟨hb, .goes c t r hlive hr hlast (htook.owns hright) htook.newSize ?_, hfocused, fun x hx => ?_⟩
        · rw [hfocused]
          exact hlive.1
        · rw [hcancelled]
          exact List.mem_append_right _ hx

/-! ### Several views leave -/

/-- Only views without a live right are gone. -/
structure Rest (a b : LocalActor) : Prop where
  size : b.size = a.size
  cell : b.cell = a.cell
  published : b.published = a.published
  resizeOwner : b.resizeOwner = a.resizeOwner
  cancelled : b.cancelled = a.cancelled
  focused : ∀ c t, t ∉ a.cancelled → (b.focused.lookup c = some t ↔ a.focused.lookup c = some t)
  requested : ∀ c t, a.Live c t → b.requested.lookup c = a.requested.lookup c ∧ b.heldAt c = a.heldAt c

theorem Rest.refl (a : LocalActor) : Rest a a := ⟨rfl, rfl, rfl, rfl, rfl, fun _ _ _ => Iff.rfl, fun _ _ _ => ⟨rfl, rfl⟩⟩

theorem Rest.live (h : Rest a b) : b.Live c t ↔ a.Live c t := by
  rw [Live, Live, h.cancelled]
  exact ⟨fun hlive => ⟨(h.focused c t hlive.2).mp hlive.1, hlive.2⟩,
    fun hlive => ⟨(h.focused c t hlive.2).mpr hlive.1, hlive.2⟩⟩

theorem Rest.candidate (h : Rest a b) : b.Candidate c ↔ a.Candidate c := by
  constructor
  · rintro ⟨⟨t, hlive⟩, hasked⟩
    have hlive' := h.live.mp hlive
    rw [(h.requested c t hlive').1] at hasked
    exact ⟨⟨t, hlive'⟩, hasked⟩
  · rintro ⟨⟨t, hlive⟩, hasked⟩
    rw [← (h.requested c t hlive).1] at hasked
    exact ⟨⟨t, h.live.mpr hlive⟩, hasked⟩

theorem Rest.trans (h : Rest a b) (h' : Rest b d) : Rest a d where
  size := h'.size.trans h.size
  cell := h'.cell.trans h.cell
  published := h'.published.trans h.published
  resizeOwner := h'.resizeOwner.trans h.resizeOwner
  cancelled := h'.cancelled.trans h.cancelled
  focused := fun c t hlive => (h'.focused c t (by rw [h.cancelled]; exact hlive)).trans (h.focused c t hlive)
  requested := by
    intro c t hlive
    obtain ⟨hasked, hheld⟩ := h.requested c t hlive
    obtain ⟨hasked', hheld'⟩ := h'.requested c t (h.live.mpr hlive)
    exact ⟨hasked'.trans hasked, hheld'.trans hheld⟩

theorem Rest.without (hgone : ∀ t, ¬ a.Live c t) : Rest a (a.without c) := by
  refine ⟨rfl, rfl, rfl, rfl, rfl, fun c' t hlive => ?_, fun c' t hlive => ?_⟩
  · have hlookup : (a.without c).focused.lookup c' = if c' = c then none else a.focused.lookup c' :=
      Dictionary.lookup_erase a.focused c c'
    rw [hlookup]
    split
    · next heq =>
      subst heq
      exact ⟨fun hno => absurd hno (Option.some_ne_none _).symm, fun hfocus => absurd ⟨hfocus, hlive⟩ (hgone t)⟩
    · exact Iff.rfl
  · have hne : c' ≠ c := fun heq => hgone t (heq ▸ hlive)
    have hlookup : (a.without c).requested.lookup c' = if c' = c then none else a.requested.lookup c' :=
      Dictionary.lookup_erase a.requested c c'
    have hheld : (a.without c).heldAt c' = if c' = c then 0 else a.heldAt c' := Function.update_apply a.heldAt c 0 c'
    rw [hlookup, hheld, if_neg hne, if_neg hne]
    exact ⟨rfl, rfl⟩

/-- Views that are gone do not change to whom the size goes. -/
theorem Went.of_rest (hrest : Rest a b) (h : Went b d o) : Went a d o := by
  have hlast : ∀ {c t}, a.Live c t → (∀ c', b.Candidate c' → b.heldAt c' ≤ b.heldAt c) →
      ∀ c', a.Candidate c' → a.heldAt c' ≤ a.heldAt c := by
    intro c t hlive hall c' hcandidate
    have hle := hall c' (hrest.candidate.mpr hcandidate)
    obtain ⟨t', hlive'⟩ := hcandidate.1
    rw [(hrest.requested c' t' hlive').2, (hrest.requested c t hlive).2] at hle
    exact hle
  rcases h with ⟨c, t, r, hlive, hasked, hall, howns, hsize, hfocus⟩ | ⟨c, t, r, hlive, hasked, hall, hwhy, hnobody, hsize⟩ |
    ⟨hnone, hnobody, hsize⟩
  · have hlive' := hrest.live.mp hlive
    exact .goes c t r hlive' ((hrest.requested c t hlive').1 ▸ hasked) (hlast hlive' hall) howns hsize hfocus
  · have hlive' := hrest.live.mp hlive
    exact .refused c t r hlive' ((hrest.requested c t hlive').1 ▸ hasked) (hlast hlive' hall) hwhy hnobody
      (hsize.trans hrest.size)
  · exact .stays (fun c hcandidate => hnone c (hrest.candidate.mpr hcandidate)) hnobody (hsize.trans hrest.size)

/-- Views that leave later do not change to whom it went. -/
theorem Went.rest (h : Went a b o) (hrest : Rest b d) : Went a d o := by
  rcases h with ⟨c, t, r, hlive, hasked, hall, ⟨howner, hright, ⟨r', hr', hsize'⟩, hheard⟩, hsize, hfocus⟩ |
    ⟨c, t, r, hlive, hasked, hall, hwhy, hnobody, hsize⟩ | ⟨hnone, hnobody, hsize⟩
  · refine .goes c t r hlive hasked hall ⟨hrest.resizeOwner.trans howner, ?_, ⟨r', ?_, ?_⟩, ?_⟩
      (hrest.size.trans hsize) ?_
    · rw [hrest.cancelled]
      exact hright
    · rw [(hrest.requested c t ⟨hfocus, hright⟩).1]
      exact hr'
    · rw [hrest.size]
      exact hsize'
    · rw [hrest.size, hrest.cell, hrest.published]
      exact hheard
    · exact (hrest.focused c t hright).mpr hfocus
  · exact .refused c t r hlive hasked hall hwhy (hrest.resizeOwner.trans hnobody) (hrest.size.trans hsize)
  · exact .stays hnone (hrest.resizeOwner.trans hnobody) (hrest.size.trans hsize)

/-- The new owner is a view that is there. -/
theorem Went.owner (h : Went a b o) {owner : Controller × Nat} (howner : b.resizeOwner = some owner) :
    b.Live owner.1 owner.2 := by
  rcases h with ⟨c, t, r, -, -, -, ⟨hnew, hright, -, -⟩, -, hfocus⟩ | ⟨_, _, _, _, _, _, _, hnobody, _⟩ | ⟨-, hnobody, -⟩
  · obtain rfl := Option.some.inj (hnew.symm.trans howner)
    exact ⟨hfocus, hright⟩
  · rw [hnobody] at howner
    cases howner
  · rw [hnobody] at howner
    cases howner

theorem Covers.without (h : Covers order a) (c : Controller) : Covers order (a.without c) := by
  intro c' hfocus
  have hlookup : (a.without c).focused.lookup c' = if c' = c then none else a.focused.lookup c' :=
    Dictionary.lookup_erase a.focused c c'
  rw [hlookup] at hfocus
  split at hfocus
  · cases hfocus
  · exact h c' hfocus

theorem not_live_without {c' : Controller} (h : ¬ a.Live c' t) : ¬ (a.without c).Live c' t := by
  rintro ⟨hfocus, hright⟩
  have hlookup : (a.without c).focused.lookup c' = if c' = c then none else a.focused.lookup c' :=
    Dictionary.lookup_erase a.focused c c'
  rw [hlookup] at hfocus
  split at hfocus
  · cases hfocus
  · exact h ⟨hfocus, hright⟩

/-- Views whose right is lost are released one after the other: if the owner is among them, the size goes back once. -/
theorem releaseAll_cases (order : List Controller) (o : Outcome) : ∀ (gone : List Controller) (a : LocalActor), a.Kept →
    Covers order a → (∀ c ∈ gone, ∀ t, ¬ a.Live c t) →
    (releaseAll order o a gone).2 ≠ none ∨ (releaseAll order o a gone).1.Kept ∧ Covers order (releaseAll order o a gone).1 ∧
      ((Rest a (releaseAll order o a gone).1 ∧ ∀ owner, a.resizeOwner = some owner → owner.1 ∉ gone) ∨
        (∃ owner, a.resizeOwner = some owner ∧ owner.1 ∈ gone) ∧ Went a (releaseAll order o a gone).1 o)
  | [], a, h, hcover, _ => .inr ⟨h, hcover, .inl ⟨Rest.refl a, fun _ _ => List.not_mem_nil⟩⟩
  | c :: gone, a, h, hcover, hgone => by
    have hrest : Rest a (a.without c) := Rest.without (hgone c List.mem_cons_self)
    have hlater : ∀ c' ∈ gone, ∀ t, ¬ (a.without c).Live c' t := fun c' hc' t =>
      not_live_without (hgone c' (List.mem_cons_of_mem _ hc') t)
    rw [releaseAll, release_eq]
    by_cases howner : a.resizeOwner.any (·.1 == c) = true
    · rw [if_pos howner]
      obtain ⟨owner, hown, heq⟩ := (Option.any_eq_true ..).mp howner
      have hmine : owner.1 ∈ c :: gone := by
        rw [eq_of_beq heq]
        exact List.mem_cons_self
      have hback := giveSizeBack_went (h.without c) (hcover.without c) o
      generalize (a.without c).giveSizeBack order o = result at hback
      obtain ⟨b, reason⟩ := result
      cases reason with
      | some reason => exact .inl (Option.some_ne_none _)
      | none =>
        obtain ⟨hb, hwent, hfocused, hcancelled⟩ := hback.resolve_left fun hno => hno rfl
        have hstill : ∀ c' ∈ gone, ∀ t, ¬ b.Live c' t := by
          rintro c' hc' t ⟨hfocus, hright⟩
          refine hlater c' hc' t ⟨?_, fun hmem => hright (hcancelled t hmem)⟩
          rw [← hfocused]
          exact hfocus
        have hcovers : Covers order b := by
          intro c' hfocus
          refine hcover.without c c' ?_
          rw [← hfocused]
          exact hfocus
        rcases releaseAll_cases order o gone b hb hcovers hstill with hfail | ⟨hkept, hcov, ⟨hr, -⟩ | ⟨⟨w, hw, hwgone⟩, -⟩⟩
        · exact .inl hfail
        · exact .inr ⟨hkept, hcov, .inr ⟨⟨owner, hown, hmine⟩, (hwent.of_rest hrest).rest hr⟩⟩
        · exact absurd (hwent.owner hw) (hstill w.1 hwgone w.2)
    · rw [if_neg howner]
      simp only
      have hother : ∀ owner, a.resizeOwner = some owner → owner.1 ≠ c := by
        intro owner hown heq
        refine howner ?_
        rw [hown, Option.any_some, heq]
        exact beq_self_eq_true c
      rcases releaseAll_cases order o gone (a.without c) (h.without c) (hcover.without c) hlater with
        hfail | ⟨hkept, hcov, ⟨hr, hnot⟩ | ⟨⟨w, hw, hwgone⟩, hwent⟩⟩
      · exact .inl hfail
      · refine .inr ⟨hkept, hcov, .inl ⟨hrest.trans hr, fun owner hown hmem => ?_⟩⟩
        rcases List.mem_cons.mp hmem with heq | hmem
        · exact hother owner hown heq
        · exact hnot owner hown hmem
      · exact .inr ⟨hkept, hcov, .inr ⟨⟨w, hw, List.mem_cons_of_mem _ hwgone⟩, hwent.of_rest hrest⟩⟩

end LocalActor

end Kodosi.Terminal.SizeOwner
