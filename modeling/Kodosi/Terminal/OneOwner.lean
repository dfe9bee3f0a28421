import Kodosi.Terminal.SizeGoes

/-! Every request on the size of a terminal: who may change it, and that all who know it agree on it. -/

namespace Kodosi.Terminal.SizeOwner
open Kodosi.Lib

namespace LocalActor

variable {a b : LocalActor} {o : Outcome} {c : Controller} {t : Nat} {order : List Controller}

/-! ### What the claim of a request is -/

/-- The view that claims the size with a request. -/
def Event.Claims : Event → Controller → Prop
  | .localResize connection _ _ _ claim _, c => claim = true ∧ c = .near connection
  | .hostResize connection _ r _, c => r.claim = true ∧ c = .remote connection
  | _, _ => False

/-- A size that changed is the one that its owner asked for, who owned the size before, has the focus, claimed it, or took
    it when no view with a living right owned it. -/
def Changed (a : LocalActor) (e : Event) (b : LocalActor) : Prop :=
  b.size ≠ a.size → ∃ c t, b.Owns c t ∧ ((∃ t', a.resizeOwner = some (c, t')) ∨ (b.focused.lookup c).isSome ∨ e.Claims c ∨
    ∀ owner, a.resizeOwner = some owner → owner.2 ∈ b.cancelled)

/-- The owner leaves with this event, or its right is seen to be lost. -/
def OwnerGone (a : LocalActor) : Event → Prop
  | .left c _ _ => ∃ t, a.resizeOwner = some (c, t)
  | .maintain _ _ => ∃ owner, a.resizeOwner = some owner ∧
      (owner.2 ∈ a.cancelled ∨ ∃ t, a.focused.lookup owner.1 = some t ∧ t ∈ a.cancelled)
  | _ => False

/-- To whom the size goes when the owner is gone. -/
def GoesBack (a : LocalActor) (e : Event) (b : LocalActor) : Prop :=
  match e with
  | .left c _ o => Went (a.without c) b o
  | .maintain _ o => Went a b o
  | _ => True

/-- What one request does to a terminal that goes on. -/
structure Stepped (a : LocalActor) (e : Event) (b : LocalActor) : Prop where
  kept : b.Kept
  changed : a.Changed e b
  back : a.OwnerGone e → a.GoesBack e b

theorem Went.changed (h : Went a b o) (e : Event) : a.Changed e b := by
  intro hsize
  rcases h with ⟨c, t, r, -, -, -, howns, -, hfocus⟩ | ⟨_, _, _, _, _, _, _, _, hsame⟩ | ⟨-, -, hsame⟩
  · exact ⟨c, t, howns, .inr (.inl (by rw [hfocus]; rfl))⟩
  · exact absurd hsame hsize
  · exact absurd hsame hsize

/-! ### Resizes and focus -/

variable {size : TerminalSize} {e : Event}

/-- A view that took the size was entitled to it. -/
theorem Took.changed {geometry : Option TerminalPixelGeometry} {claim : Bool}
    (h : Took (a.askFor o c size geometry) b c t size geometry) (hentitled : Entitled a o c t claim)
    (hclaim : claim = true → e.Claims c) : a.Changed e b := by
  intro _
  have hcancelled : b.cancelled = o.lapsed ++ a.cancelled := h.cancelled
  refine ⟨c, t, h.owns hentitled.live, ?_⟩
  rcases hentitled.right with hclaimed | hfocus | hfree
  · exact .inr (.inr (.inl (hclaim hclaimed)))
  · refine .inr (.inl ?_)
    rw [h.focused]
    exact hfocus
  · by_cases hmine : ∃ t', a.resizeOwner = some (c, t')
    · exact .inl hmine
    · refine .inr (.inr (.inr fun owner howner => ?_))
      rw [hcancelled]
      exact (hfree owner howner).resolve_right fun heq => hmine ⟨owner.2, by rw [howner, ← heq]⟩

theorem Kept.resized (h : a.Kept) (o : Outcome) (c : Controller) (t : Nat) (size : TerminalSize)
    (geometry : Option TerminalPixelGeometry) (claim : Bool) (hclaim : claim = true → e.Claims c)
    (hgone : ¬ a.OwnerGone e) :
    (a.applyResize o c t size geometry claim).2 = .diverged ∨
      Stepped a e (a.applyResize o c t size geometry claim).1 := by
  rcases h.applyResize o c t size geometry claim with hfail | hkept
  · exact .inl hfail
  rcases applyResize_cases a o c t size geometry claim with
    ⟨text, -, heq⟩ | ⟨-, ⟨e', heq, -⟩ | hfail | ⟨-, hentitled, htook⟩⟩
  · refine .inr ⟨hkept, fun hsize => absurd ?_ hsize, fun hno => absurd hno hgone⟩
    rw [heq]
  · refine .inr ⟨hkept, fun hsize => absurd ?_ hsize, fun hno => absurd hno hgone⟩
    rw [heq]
    rfl
  · exact .inl hfail
  · exact .inr ⟨hkept, htook.changed hentitled hclaim, fun hno => absurd hno hgone⟩

theorem setFocus_frame (a : LocalActor) (o : Outcome) (c : Controller) (authorization : Option Nat) (focus : Bool) :
    ∃ focused, (a.setFocus o c authorization focus).1 = { a with focused } := by
  rw [setFocus.eq_def]
  split
  · exact ⟨a.focused, rfl⟩
  simp only
  split
  · split <;> exact ⟨_, rfl⟩
  · split <;> exact ⟨_, rfl⟩

theorem setFocus_focused (h : (a.setFocus o c (some t) true).2 = .ok ()) :
    (a.setFocus o c (some t) true).1 = { a with focused := a.focused.insert c t } := by
  rw [setFocus.eq_def] at h ⊢
  split
  · next hlost =>
    rw [if_pos hlost] at h
    cases h
  simp only
  split <;> rfl

/-- A view that gets the focus brings its size. -/
theorem Kept.focused (h : a.Kept) (o : Outcome) (c : Controller) (t : Nat) (focus : Bool) (hgone : ¬ a.OwnerGone e) :
    (a.focusView o c t focus).2 = (.error (.other o.failure), true) ∨ Stepped a e (a.focusView o c t focus).1 := by
  obtain ⟨focused, hfocused⟩ := setFocus_frame a o c (some t) focus
  have hsteps : ∀ {b : LocalActor}, b.Kept → b.size = a.size → Stepped a e b := fun hb hsize =>
    ⟨hb, fun hno => absurd hsize hno, fun hno => absurd hno hgone⟩
  rw [focusView.eq_def]
  split
  · next b error heq =>
    rw [heq] at hfocused
    have hstate : b = { a with focused } := hfocused
    subst hstate
    exact .inr (hsteps h.same rfl)
  · next b heq =>
    have hb : b.Kept := by
      rw [heq] at hfocused
      have hstate : b = { a with focused } := hfocused
      rw [hstate]
      exact h.same
    have hsize : b.size = a.size := by
      rw [heq] at hfocused
      have hstate : b = { a with focused } := hfocused
      rw [hstate]
    split
    · exact .inr (hsteps hb hsize)
    · next hasks =>
      rw [not_or, Bool.not_eq_false] at hasks
      have hfocus : b = { a with focused := a.focused.insert c t } := by
        have hok : (a.setFocus o c (some t) true).2 = .ok () := by rw [← hasks.1, heq]
        have hnew := setFocus_focused hok
        rw [← hasks.1, heq] at hnew
        exact hnew
      have hkept := hb.takeRequestedSize o c t
      cases hr : b.requested.lookup c with
      | none =>
        have htake : b.takeRequestedSize o c t = (b, true) := by rw [takeRequestedSize.eq_def, hr]
        rw [htake]
        exact .inr (hsteps hb hsize)
      | some r =>
        have hcases := takeRequestedSize_cases hb.checked hr o t
        generalize b.takeRequestedSize o c t = result at hkept hcases
        obtain ⟨d, going⟩ := result
        cases going with
        | false => exact .inl rfl
        | true =>
          have hd : d.Kept := hkept.resolve_left Bool.noConfusion
          rcases hcases with hno | ⟨-, ⟨heq', -⟩ | ⟨hright, htook⟩⟩
          · cases hno
          · have hstate : d = b.askFor o c r.size r.geometry := heq'
            refine .inr (hsteps hd ?_)
            rw [hstate]
            exact hsize
          · refine .inr ⟨hd, fun _ => ⟨c, t, htook.owns hright, .inr (.inl ?_)⟩, fun hno => absurd hno hgone⟩
            have hsame : d.focused = a.focused.insert c t := htook.focused.trans (by rw [LocalActor.askFor, hfocus])
            rw [hsame, Dictionary.lookup_insert, if_pos rfl]
            rfl

/-! ### Views that leave -/

theorem covers_of_perm (h : order.Perm a.focused.keys) : Covers order a := fun _ hfocus =>
  h.mem_iff.mpr (AList.mem_keys.mp (AList.lookup_isSome.mp hfocus))

theorem Kept.left (h : a.Kept) (hcover : Covers order a) (o : Outcome) (c : Controller) :
    (a.release order o c).2 ≠ none ∨ Stepped a (.left c order o) (a.release order o c).1 := by
  rw [release_eq]
  split
  · next howner =>
    rcases giveSizeBack_went (h.without c) (hcover.without c) o with hfail | ⟨hkept, hwent, -, -⟩
    · exact .inl hfail
    · exact .inr ⟨hkept, hwent.changed (.left _ order o), fun _ => hwent⟩
  · next hother =>
    refine .inr ⟨h.without c, fun hsize => absurd rfl hsize, ?_⟩
    rintro ⟨t, howner⟩
    refine absurd ?_ hother
    rw [howner, Option.any_some]
    exact beq_self_eq_true c

theorem Kept.maintained (h : a.Kept) (hcover : Covers order a) (o : Outcome) :
    (a.maintain order o).2 ≠ none ∨ Stepped a (.maintain order o) (a.maintain order o).1 := by
  have hgone : ∀ c ∈ order.filter fun c => (a.focused.lookup c).any (· ∈ a.cancelled), ∀ t, ¬ a.Live c t := by
    rintro c hc t ⟨hfocus, hright⟩
    have hlost := (List.mem_filter.mp hc).2
    rw [hfocus, Option.any_some] at hlost
    exact hright (of_decide_eq_true hlost)
  have hcases := releaseAll_cases order o _ a h hcover hgone
  rw [maintain]
  generalize releaseAll order o a (order.filter fun c => (a.focused.lookup c).any (· ∈ a.cancelled)) = result at hcases
  obtain ⟨b, reason⟩ := result
  cases reason with
  | some reason => exact .inl (Option.some_ne_none _)
  | none =>
    obtain ⟨hb, hcov, hrest⟩ := hcases.resolve_left fun hno => hno rfl
    simp only
    split
    · next hlost =>
      obtain ⟨owner, howner, hmem⟩ := (Option.any_eq_true ..).mp hlost
      rcases hrest with ⟨hrest, -⟩ | ⟨-, hwent⟩
      · rcases giveSizeBack_went hb hcov o with hfail | ⟨hkept, hwent, -, -⟩
        · exact .inl hfail
        · have hback := hwent.of_rest hrest
          exact .inr ⟨hkept, hback.changed _, fun _ => hback⟩
      · exact absurd (of_decide_eq_true hmem) (hwent.owner howner).2
    · next hholds =>
      rcases hrest with ⟨hrest, hnot⟩ | ⟨-, hwent⟩
      · refine .inr ⟨hb, fun hsize => absurd hrest.size hsize, ?_⟩
        rintro ⟨owner, howner, hlost | ⟨t, hfocus, hlost⟩⟩
        · refine absurd ?_ hholds
          have howner' : b.resizeOwner = some owner := hrest.resizeOwner.trans howner
          have hlost' : owner.2 ∈ b.cancelled := by
            rw [hrest.cancelled]
            exact hlost
          rw [howner', Option.any_some]
          exact decide_eq_true hlost'
        · refine absurd (List.mem_filter.mpr ⟨hcover owner.1 (by rw [hfocus]; rfl), ?_⟩) (hnot owner howner)
          rw [hfocus, Option.any_some]
          exact decide_eq_true hlost
      · exact .inr ⟨hb, hwent.changed _, fun _ => hwent⟩

/-! ### Steps and runs -/

theorem settle_none {outcome : LocalActor × Option String} (h : outcome.2 ≠ none ∨ Stepped a e outcome.1) :
    (settle outcome).ended = none → Stepped a e (settle outcome) := by
  obtain ⟨b, reason⟩ := outcome
  intro hended
  cases reason with
  | none => exact h.resolve_left fun hno => hno rfl
  | some reason => cases hended

theorem Kept.refl (h : a.Kept) (hgone : ¬ a.OwnerGone e) : Stepped a e a :=
  ⟨h, fun hsize => absurd rfl hsize, fun hno => absurd hno hgone⟩

/-- What any request does to a terminal that goes on after it. -/
theorem Kept.step (h : a.Kept) (hallowed : a.Allowed e) (hended : (a.step e).ended = none) :
    Stepped a e (a.step e) := by
  cases e with
  | localResize connection authorization size geometry claim o =>
    refine settle_none ?_ hended
    rw [localResize.eq_def]
    cases authorization with
    | none => exact .inr (h.refl id)
    | some token =>
      have hresized := h.resized o (.near connection) token size geometry claim
        (e := .localResize connection (some token) size geometry claim o) (fun hclaim => ⟨hclaim, rfl⟩) id
      simp only
      split
      · next heq =>
        rw [heq] at hresized
        exact .inr (hresized.resolve_left Resized.noConfusion)
      · next heq =>
        rw [heq] at hresized
        exact .inr (hresized.resolve_left Resized.noConfusion)
      · exact .inl (Option.some_ne_none _)
  | localFocus connection authorization focused o =>
    refine settle_none ?_ hended
    rw [localFocus.eq_def]
    cases authorization with
    | none => exact .inr (h.refl id)
    | some token =>
      have hfocused := h.focused o (.near connection) token focused
        (e := .localFocus connection (some token) focused o) id
      simp only
      split
      · exact .inl (Option.some_ne_none _)
      · next heq =>
        rw [heq] at hfocused
        exact .inr (hfocused.resolve_left fun hno => Bool.noConfusion (Prod.mk.inj hno).2)
  | hostResize connection authorization r o =>
    refine settle_none ?_ hended
    rw [hostResize.eq_def]
    split
    · exact .inr (h.refl id)
    split
    · next size geometry _ _ =>
      have hresized := h.resized o (.remote connection) authorization size geometry r.claim
        (e := .hostResize connection authorization r o) (fun hclaim => ⟨hclaim, rfl⟩) id
      split
      · next heq =>
        rw [heq] at hresized
        exact .inr (hresized.resolve_left Resized.noConfusion)
      · next heq =>
        rw [heq] at hresized
        exact .inr (hresized.resolve_left Resized.noConfusion)
      · exact .inl (Option.some_ne_none _)
    · exact .inr (h.refl id)
  | hostFocus connection authorization focused o =>
    refine settle_none ?_ hended
    rw [hostFocus.eq_def]
    split
    · exact .inr (h.refl id)
    have hfocused := h.focused o (.remote connection) authorization focused
      (e := .hostFocus connection authorization focused o) id
    split
    · next heq =>
      rw [heq] at hfocused
      exact .inr (hfocused.resolve_left fun hno => by cases hno)
    · next heq =>
      rw [heq] at hfocused
      exact .inr (hfocused.resolve_left fun hno => Bool.noConfusion (Prod.mk.inj hno).2)
    · exact .inl (Option.some_ne_none _)
  | left c order o =>
    exact settle_none (h.left (covers_of_perm hallowed.2) o c) hended
  | cancel authorization =>
    exact ⟨h.same, fun hsize => absurd rfl hsize, fun hno => hno.elim⟩
  | maintain order o => exact settle_none (h.maintained (covers_of_perm hallowed.2) o) hended
  | stop reason => cases hended

/-- A terminal that goes on keeps what holds between two requests. -/
theorem kept_of_run {cell : CellPixels} {es : List Event} (hrun : Run.Allows Allowed step (spawn size cell) es) :
    (es.foldl step (spawn size cell)).ended = none → (es.foldl step (spawn size cell)).Kept := by
  have hruns := Run.of_allows hrun
  refine Run.invariant (I := fun a => a.ended = none → a.Kept) (fun {a e b} ha hnext hended => ?_) hruns
    fun _ => Kept.spawn size cell
  obtain ⟨hallowed, rfl⟩ := hnext
  have hopen : a.ended = none := by
    cases e with
    | cancel authorization => exact hended
    | left c order o => exact hallowed.1
    | maintain order o => exact hallowed.1
    | _ => exact hallowed
  exact ((ha hopen).step hallowed hended).kept

/-- One view owns the size of a terminal that goes on: the PTY, the emulator and the views agree on it, it changes only for
    a view that may change it, and it goes back when the owner is gone. -/
theorem one_owner (size : TerminalSize) (cell : CellPixels) (es : List Event) (e : Event)
    (hrun : Run.Allows Allowed step (spawn size cell) (es ++ [e]))
    (hended : ((es.foldl step (spawn size cell)).step e).ended = none) :
    ((es.foldl step (spawn size cell)).step e).Agrees ∧
      (es.foldl step (spawn size cell)).Changed e ((es.foldl step (spawn size cell)).step e) ∧
      ((es.foldl step (spawn size cell)).OwnerGone e →
        (es.foldl step (spawn size cell)).GoesBack e ((es.foldl step (spawn size cell)).step e)) := by
  obtain ⟨hfront, hallowed, -⟩ := Run.allows_append hrun
  have hopen : (es.foldl step (spawn size cell)).ended = none := by
    cases e with
    | cancel authorization => exact hended
    | left c order o => exact hallowed.1
    | maintain order o => exact hallowed.1
    | _ => exact hallowed
  have hstep := (kept_of_run hfront hopen).step hallowed hended
  exact ⟨hstep.kept.agrees, hstep.changed, hstep.back⟩

/-- Nothing fails, and no right is lost meanwhile. -/
def smooth : Outcome := ⟨.ok (), some true, true, true, true, .ok (), [], ""⟩

/-- A focused view has the size, and another one claims it. -/
def claimed : List Event :=
  [.localFocus 1 (some 7) true smooth, .localResize 1 (some 7) ⟨20, 70⟩ none false smooth,
    .hostResize 2 8 ⟨30, 100, 0, 0, 0, 0, true⟩ smooth]

/-- When the view that claimed it leaves, the focused view has its size again. -/
theorem one_owner_back :
    ((claimed.foldl step (spawn ⟨32, 120⟩ ⟨8, 16⟩)).step (.left (.remote 2) [.near 1] smooth)).Agrees ∧
      ((claimed.foldl step (spawn ⟨32, 120⟩ ⟨8, 16⟩)).step (.left (.remote 2) [.near 1] smooth)).resizeOwner =
        some (.near 1, 7) ∧
      ((claimed.foldl step (spawn ⟨32, 120⟩ ⟨8, 16⟩)).step (.left (.remote 2) [.near 1] smooth)).size = ⟨20, 70⟩ := by
  refine ⟨(one_owner ⟨32, 120⟩ ⟨8, 16⟩ claimed (.left (.remote 2) [.near 1] smooth) ?_ (by decide)).1,
    by decide, by decide⟩
  exact ⟨rfl, rfl, rfl, ⟨rfl, by decide⟩, trivial⟩

/-- The size of a terminal that nobody owns is changed by a view that neither has the focus nor claims it. -/
theorem first_takes :
    Run.Allows Allowed step (spawn ⟨32, 120⟩ ⟨8, 16⟩) [.localResize 1 (some 7) ⟨20, 70⟩ none false smooth] ∧
      (spawn ⟨32, 120⟩ ⟨8, 16⟩).resizeOwner = none ∧ (spawn ⟨32, 120⟩ ⟨8, 16⟩).focused.lookup (.near 1) = none ∧
      ¬ (Event.localResize 1 (some 7) ⟨20, 70⟩ none false smooth).Claims (.near 1) ∧
      ((spawn ⟨32, 120⟩ ⟨8, 16⟩).step (.localResize 1 (some 7) ⟨20, 70⟩ none false smooth)).size = ⟨20, 70⟩ := by
  refine ⟨⟨rfl, trivial⟩, rfl, rfl, fun hclaims => ?_, by decide⟩
  exact Bool.false_ne_true hclaims.1

end LocalActor

end Kodosi.Terminal.SizeOwner
