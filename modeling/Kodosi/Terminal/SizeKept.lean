import Kodosi.Terminal.SizeOwner

/-! What each operation on the size keeps: the PTY, the emulator and the views agree on it, and the turns of the views tell
    who had it last. -/

namespace Kodosi.Terminal.SizeOwner
open Kodosi.Lib

namespace LocalActor

variable {a b : LocalActor} {o : Outcome} {c : Controller} {t : Nat} {size : TerminalSize}
  {geometry : Option TerminalPixelGeometry}

/-! ### What holds between two requests -/

/-- The PTY, the emulator and what was published last have one size, and after a resize also one cell. -/
structure Agrees (a : LocalActor) : Prop where
  pty : a.pty.1 = a.size
  screen : a.screen.1 = a.size
  published : ∀ p, a.published.getLast? = some p →
    p = (a.size, a.cell) ∧ a.screen = (a.size, a.cell) ∧ a.pty = (a.size, a.cell.ptyPixels a.size)

/-- The turns of the views are in the order in which they had the size last. -/
structure Turns (a : LocalActor) : Prop where
  came : ∀ c, a.requested.lookup c = none → a.heldAt c = 0
  never : ∀ c r, a.requested.lookup c = some r → (r.takenTurn = 0 ↔ a.heldAt c = 0)
  order : ∀ c r c' r', a.requested.lookup c = some r → a.requested.lookup c' = some r' →
    (r.takenTurn < r'.takenTurn ↔ a.heldAt c < a.heldAt c')
  past : ∀ c, a.heldAt c ≤ a.clock

/-- The sizes that views asked for passed their check. -/
def Checked (a : LocalActor) : Prop :=
  ∀ c r, a.requested.lookup c = some r → validatePixels r.size r.geometry = .ok ()

structure Kept (a : LocalActor) : Prop where
  agrees : a.Agrees
  turns : a.Turns
  checked : a.Checked

theorem Kept.spawn (size : TerminalSize) (cell : CellPixels) : (LocalActor.spawn size cell).Kept := by
  have hnone : ∀ c, (LocalActor.spawn size cell).requested.lookup c = none := fun c => Dictionary.lookup_empty c
  refine ⟨⟨rfl, rfl, fun p hp => by cases hp⟩, ⟨fun c _ => rfl, ?_, ?_, fun c => le_rfl⟩, ?_⟩
  · intro c r hr
    rw [hnone] at hr
    cases hr
  · intro c r c' r' hr
    rw [hnone] at hr
    cases hr
  · intro c r hr
    rw [hnone] at hr
    cases hr

theorem nextTurn_gt {r : RequestedSize} (h : a.requested.lookup c = some r) : r.takenTurn < a.nextTurn := by
  have hmem : r.takenTurn ∈ a.requested.entries.map (·.2.takenTurn) :=
    List.mem_map.mpr ⟨⟨c, r⟩, AList.mem_lookup_iff.mp h, rfl⟩
  obtain ⟨m, hm⟩ := Option.isSome_iff_exists.mp (List.isSome_max?_of_mem hmem)
  have hle := (List.max?_eq_some_iff.mp hm).2 _ hmem
  rw [nextTurn, hm]
  exact Nat.lt_succ_of_le hle

/-! ### A size that is asked for -/

theorem Turns.askFor (h : a.Turns) (o : Outcome) (c : Controller) (size : TerminalSize)
    (geometry : Option TerminalPixelGeometry) : (a.askFor o c size geometry).Turns := by
  have hlookup : ∀ c', (a.askFor o c size geometry).requested.lookup c' =
      if c' = c then some ⟨size, geometry, ((a.requested.lookup c).map (·.takenTurn)).getD 0⟩ else a.requested.lookup c' :=
    fun c' => Dictionary.lookup_insert a.requested c c' _
  -- The new entry of a view has the turn of its old one, or none when the view had not asked.
  have hturn : ∀ c' r', (a.askFor o c size geometry).requested.lookup c' = some r' →
      (∃ r, a.requested.lookup c' = some r ∧ r.takenTurn = r'.takenTurn) ∨
        a.requested.lookup c' = none ∧ r'.takenTurn = 0 := by
    intro c' r' hr'
    rw [hlookup] at hr'
    split at hr'
    · next heq =>
      subst heq
      obtain rfl := Option.some.inj hr'
      cases hold : a.requested.lookup c' with
      | none => exact .inr ⟨rfl, rfl⟩
      | some r => exact .inl ⟨r, rfl, rfl⟩
    · exact .inl ⟨r', hr', rfl⟩
  have hnever : ∀ c' r', (a.askFor o c size geometry).requested.lookup c' = some r' →
      (r'.takenTurn = 0 ↔ a.heldAt c' = 0) := by
    intro c' r' hr'
    rcases hturn c' r' hr' with ⟨r, hr, heq⟩ | ⟨hnone, hzero⟩
    · rw [← heq]
      exact h.never c' r hr
    · exact ⟨fun _ => h.came c' hnone, fun _ => hzero⟩
  refine ⟨fun c' hnone => h.came c' ?_, hnever, ?_, h.past⟩
  · rw [hlookup] at hnone
    split at hnone
    · cases hnone
    · exact hnone
  · intro c₁ r₁ c₂ r₂ h₁ h₂
    have hzero₁ := hnever c₁ r₁ h₁
    have hzero₂ := hnever c₂ r₂ h₂
    change r₁.takenTurn < r₂.takenTurn ↔ a.heldAt c₁ < a.heldAt c₂
    rcases hturn c₁ r₁ h₁ with ⟨s₁, hs₁, heq₁⟩ | ⟨-, hnew₁⟩
    · rcases hturn c₂ r₂ h₂ with ⟨s₂, hs₂, heq₂⟩ | ⟨-, hnew₂⟩
      · rw [← heq₁, ← heq₂]
        exact h.order c₁ s₁ c₂ s₂ hs₁ hs₂
      · have := hzero₂.mp hnew₂
        omega
    · have := hzero₁.mp hnew₁
      omega

theorem Checked.askFor (h : a.Checked) (hsize : validatePixels size geometry = .ok ()) (o : Outcome) (c : Controller) :
    (a.askFor o c size geometry).Checked := by
  intro c' r hr
  have hlookup := Dictionary.lookup_insert a.requested c c'
    ⟨size, geometry, ((a.requested.lookup c).map (·.takenTurn)).getD 0⟩
  have hr' := hlookup.symm.trans hr
  split at hr'
  · obtain rfl := Option.some.inj hr'
    exact hsize
  · exact h c' r hr'

theorem Kept.askFor (h : a.Kept) (hsize : validatePixels size geometry = .ok ()) (o : Outcome) (c : Controller) :
    (a.askFor o c size geometry).Kept :=
  ⟨⟨h.agrees.pty, h.agrees.screen, h.agrees.published⟩, h.turns.askFor o c size geometry, h.checked.askFor hsize o c⟩

/-! ### A resize -/

/-- A view took the size: the PTY and the emulator have it, everybody hears of it, and the view is the owner. -/
structure Took (a b : LocalActor) (c : Controller) (t : Nat) (size : TerminalSize)
    (geometry : Option TerminalPixelGeometry) : Prop where
  newSize : b.size = size
  pty : b.pty = (size, b.cell.ptyPixels size)
  screen : b.screen = (size, b.cell)
  published : b.published.getLast? = some (size, b.cell)
  focused : b.focused = a.focused
  resizeOwner : b.resizeOwner = some (c, t)
  requested : b.requested = a.requested.insert c ⟨size, geometry, a.nextTurn⟩
  cancelled : b.cancelled = a.cancelled
  ended : b.ended = a.ended
  heldAt : b.heldAt = Function.update a.heldAt c (a.clock + 1)
  clock : b.clock = a.clock + 1

theorem makeTaller_frame {cell : CellPixels} (h : a.makeTaller o size cell = some b) :
    ∃ screen published, b = { a with screen, published } := by
  rw [makeTaller] at h
  split at h
  · exact ⟨a.screen, a.published, (Option.some.inj h).symm⟩
  split at h
  · cases h
  · exact ⟨a.screen, a.published, (Option.some.inj h).symm⟩
  split at h
  · exact ⟨a.screen, a.published, (Option.some.inj h).symm⟩
  split at h
  · exact ⟨_, _, (Option.some.inj h).symm⟩
  · cases h

theorem reflow_cases (a : LocalActor) (o : Outcome) (c : Controller) (t : Nat) (size : TerminalSize)
    (geometry : Option TerminalPixelGeometry) (cell : CellPixels) (hpty : a.pty = (size, cell.ptyPixels size)) :
    (a.reflow o c t size geometry cell).2 = .diverged ∨
      (a.reflow o c t size geometry cell).2 = .done ∧ Took a (a.reflow o c t size geometry cell).1 c t size geometry := by
  rw [reflow]
  split
  · exact .inl rfl
  · next b hb =>
    obtain ⟨screen, published, rfl⟩ := makeTaller_frame hb
    split
    · exact .inl rfl
    simp only
    split
    · exact .inl rfl
    · exact .inr ⟨rfl, rfl, hpty, rfl, by simp [publishSize, own], rfl, rfl, rfl, rfl, rfl, rfl, rfl⟩

/-- Why a resize that passed its check is refused. -/
inductive Refusal (a : LocalActor) (o : Outcome) (c : Controller) (t : Nat) (claim : Bool) : Prop
  | stale (h : t ∈ o.lapsed ++ a.cancelled)
  | owned (owner : Controller × Nat) (h : a.resizeOwner = some owner) (hlive : owner.2 ∉ o.lapsed ++ a.cancelled)
      (hother : owner.1 ≠ c) (hclaim : claim = false) (hfocus : a.focused.lookup c = none)
  | pty (text : String) (h : o.pty = .error text)

/-- What a view needs for a size: its right, and that it has the focus, claims the size, owns it, or nobody does. -/
structure Entitled (a : LocalActor) (o : Outcome) (c : Controller) (t : Nat) (claim : Bool) : Prop where
  live : t ∉ o.lapsed ++ a.cancelled
  right : claim = true ∨ (a.focused.lookup c).isSome ∨
    ∀ owner, a.resizeOwner = some owner → owner.2 ∈ o.lapsed ++ a.cancelled ∨ owner.1 = c

theorem applyResize_cases (a : LocalActor) (o : Outcome) (c : Controller) (t : Nat) (size : TerminalSize)
    (geometry : Option TerminalPixelGeometry) (claim : Bool) :
    (∃ text, validatePixels size geometry = .error text ∧
      a.applyResize o c t size geometry claim = (a, .rejected (.invalid text))) ∨
    validatePixels size geometry = .ok () ∧
      ((∃ error, a.applyResize o c t size geometry claim = (a.askFor o c size geometry, .rejected error) ∧
        Refusal a o c t claim) ∨
      (a.applyResize o c t size geometry claim).2 = .diverged ∨
      (a.applyResize o c t size geometry claim).2 = .done ∧ Entitled a o c t claim ∧
        Took (a.askFor o c size geometry) (a.applyResize o c t size geometry claim).1 c t size geometry) := by
  rw [applyResize.eq_def]
  cases hvalid : validatePixels size geometry with
  | error text => exact .inl ⟨text, rfl, rfl⟩
  | ok _ =>
    refine .inr ⟨rfl, ?_⟩
    simp only
    by_cases hlive : t ∈ (a.askFor o c size geometry).cancelled
    · rw [if_pos hlive]
      exact .inl ⟨_, rfl, .stale hlive⟩
    rw [if_neg hlive]
    split
    · next howned =>
      rw [Bool.and_eq_true, Option.any_eq_true] at howned
      obtain ⟨⟨owner, howner, hliving⟩, hno⟩ := howned
      rw [Bool.and_eq_true, decide_eq_true_eq, bne_iff_ne] at hliving
      rw [Bool.not_eq_true', Bool.or_eq_false_iff, Option.isSome_eq_false_iff, Option.isNone_iff_eq_none] at hno
      exact .inl ⟨_, rfl, .owned owner howner hliving.1 hliving.2 hno.1 hno.2⟩
    · next hfree =>
      cases hpty : o.pty with
      | error text => exact .inl ⟨_, rfl, .pty text hpty⟩
      | ok _ =>
        have hentitled : Entitled a o c t claim := by
          refine ⟨hlive, ?_⟩
          rw [Bool.and_eq_true, Option.any_eq_true, not_and_or] at hfree
          rcases hfree with hfree | hfree
          · refine .inr (.inr fun owner howner => ?_)
            by_contra hno
            rw [not_or] at hno
            exact hfree ⟨owner, howner, by rw [Bool.and_eq_true, decide_eq_true_eq, bne_iff_ne]; exact hno⟩
          · rw [Bool.not_eq_true', Bool.not_eq_false, Bool.or_eq_true] at hfree
            exact hfree.imp_right .inl
        rcases reflow_cases { a.askFor o c size geometry with pty := _ } o c t size geometry _ rfl with
          hfail | ⟨hdone, htook⟩
        · exact .inr (.inl hfail)
        · exact .inr (.inr ⟨hdone, hentitled, htook.newSize, htook.pty, htook.screen, htook.published, htook.focused,
            htook.resizeOwner, htook.requested, htook.cancelled, htook.ended, htook.heldAt, htook.clock⟩)

theorem Turns.took (h : a.Turns) (htook : Took a b c t size geometry) : b.Turns := by
  have hlookup : ∀ c', b.requested.lookup c' =
      if c' = c then some ⟨size, geometry, a.nextTurn⟩ else a.requested.lookup c' := fun c' => by
    rw [htook.requested]
    exact Dictionary.lookup_insert a.requested c c' _
  have hheld : ∀ c', b.heldAt c' = if c' = c then a.clock + 1 else a.heldAt c' := fun c' => by
    rw [htook.heldAt, Function.update_apply]
  refine ⟨?_, ?_, ?_, ?_⟩
  · intro c' hnone
    rw [hlookup] at hnone
    split at hnone
    · cases hnone
    · next hne =>
      rw [hheld, if_neg hne]
      exact h.came c' hnone
  · intro c' r hr
    rw [hlookup] at hr
    rw [hheld]
    by_cases heq : c' = c
    · rw [if_pos heq] at hr ⊢
      obtain rfl := Option.some.inj hr
      have hturn : a.nextTurn ≠ 0 := by
        rw [nextTurn]
        cases (a.requested.entries.map (·.2.takenTurn)).max? with
        | none => exact Nat.one_ne_zero
        | some m => exact Nat.succ_ne_zero m
      exact ⟨fun hzero => absurd hzero hturn, fun hzero => absurd hzero (Nat.succ_ne_zero _)⟩
    · rw [if_neg heq] at hr ⊢
      exact h.never c' r hr
  · intro c₁ r₁ c₂ r₂ h₁ h₂
    have hpast := h.past
    rw [hlookup] at h₁ h₂
    rw [hheld, hheld]
    by_cases heq₁ : c₁ = c
    · rw [if_pos heq₁] at h₁ ⊢
      obtain rfl := Option.some.inj h₁
      by_cases heq₂ : c₂ = c
      · rw [if_pos heq₂] at h₂ ⊢
        obtain rfl := Option.some.inj h₂
        simp
      · rw [if_neg heq₂] at h₂ ⊢
        have hturn := nextTurn_gt h₂
        have := hpast c₂
        simp only
        omega
    · rw [if_neg heq₁] at h₁ ⊢
      have hturn₁ := nextTurn_gt h₁
      have := hpast c₁
      by_cases heq₂ : c₂ = c
      · rw [if_pos heq₂] at h₂ ⊢
        obtain rfl := Option.some.inj h₂
        simp only
        omega
      · rw [if_neg heq₂] at h₂ ⊢
        exact h.order c₁ r₁ c₂ r₂ h₁ h₂
  · intro c'
    have := h.past c'
    rw [hheld, htook.clock]
    split <;> omega

theorem Kept.took (h : a.Kept) (hsize : validatePixels size geometry = .ok ()) (htook : Took a b c t size geometry) :
    b.Kept := by
  refine ⟨⟨?_, ?_, ?_⟩, h.turns.took htook, ?_⟩
  · rw [htook.pty, htook.newSize]
  · rw [htook.screen, htook.newSize]
  · intro p hp
    rw [htook.published] at hp
    obtain rfl := Option.some.inj hp
    rw [htook.newSize]
    exact ⟨rfl, htook.screen, htook.pty⟩
  · intro c' r hr
    rw [htook.requested, Dictionary.lookup_insert] at hr
    split at hr
    · obtain rfl := Option.some.inj hr
      exact hsize
    · exact h.checked c' r hr

/-- Whatever becomes of a resize, what holds between two requests holds after it, unless it failed halfway. -/
theorem Kept.applyResize (h : a.Kept) (o : Outcome) (c : Controller) (t : Nat) (size : TerminalSize)
    (geometry : Option TerminalPixelGeometry) (claim : Bool) :
    (a.applyResize o c t size geometry claim).2 = .diverged ∨ (a.applyResize o c t size geometry claim).1.Kept := by
  rcases applyResize_cases a o c t size geometry claim with ⟨text, -, heq⟩ | ⟨hvalid, ⟨e, heq, -⟩ | hfail | ⟨-, -, htook⟩⟩
  · rw [heq]
    exact .inr h
  · rw [heq]
    exact .inr (h.askFor hvalid o c)
  · exact .inl hfail
  · exact .inr ((h.askFor hvalid o c).took hvalid htook)

/-! ### A view takes the size it asked for -/

theorem takeRequestedSize_cases (h : a.Checked) {r : RequestedSize} (hr : a.requested.lookup c = some r) (o : Outcome)
    (t : Nat) :
    (a.takeRequestedSize o c t).2 = false ∨ (a.takeRequestedSize o c t).2 = true ∧
      ((a.takeRequestedSize o c t).1 = a.askFor o c r.size r.geometry ∧
          (t ∈ o.lapsed ++ a.cancelled ∨ ∃ text, o.pty = .error text) ∨
        t ∉ o.lapsed ++ a.cancelled ∧
          Took (a.askFor o c r.size r.geometry) (a.takeRequestedSize o c t).1 c t r.size r.geometry) := by
  have hcases := applyResize_cases a o c t r.size r.geometry true
  rw [takeRequestedSize.eq_def, hr]
  simp only
  generalize a.applyResize o c t r.size r.geometry true = result at hcases
  obtain ⟨b, ended⟩ := result
  rcases hcases with ⟨text, hno, -⟩ | ⟨-, ⟨e, heq, hrefused⟩ | hfail | ⟨hdone, hentitled, htook⟩⟩
  · rw [h c r hr] at hno
    cases hno
  · obtain ⟨rfl, rfl⟩ := Prod.mk.inj heq
    refine .inr ⟨rfl, .inl ⟨rfl, ?_⟩⟩
    rcases hrefused with hstale | ⟨_, _, _, _, hclaim, _⟩ | ⟨text, hpty⟩
    · exact .inl hstale
    · cases hclaim
    · exact .inr ⟨text, hpty⟩
  · have hfail' : ended = .diverged := hfail
    subst hfail'
    exact .inl rfl
  · have hdone' : ended = .done := hdone
    subst hdone'
    exact .inr ⟨rfl, .inr ⟨hentitled.live, htook⟩⟩

theorem Kept.takeRequestedSize (h : a.Kept) (o : Outcome) (c : Controller) (t : Nat) :
    (a.takeRequestedSize o c t).2 = false ∨ (a.takeRequestedSize o c t).1.Kept := by
  cases hr : a.requested.lookup c with
  | none =>
    rw [LocalActor.takeRequestedSize.eq_def, hr]
    exact .inr h
  | some r =>
    rcases takeRequestedSize_cases h.checked hr o t with hfail | ⟨-, ⟨heq, -⟩ | ⟨-, htook⟩⟩
    · exact .inl hfail
    · rw [heq]
      exact .inr (h.askFor (h.checked c r hr) o c)
    · exact .inr ((h.askFor (h.checked c r hr) o c).took (h.checked c r hr) htook)

/-! ### Whose the size becomes -/

/-- A view that has the focus and its right. -/
def Live (a : LocalActor) (c : Controller) (t : Nat) : Prop := a.focused.lookup c = some t ∧ t ∉ a.cancelled

/-- A view that the size can go back to. -/
def Candidate (a : LocalActor) (c : Controller) : Prop := (∃ t, a.Live c t) ∧ (a.requested.lookup c).isSome

theorem turn_some {x : Nat × Controller × Nat} (h : a.turn c = some x) :
    x.2.1 = c ∧ a.Live c x.2.2 ∧ ∃ r, a.requested.lookup c = some r ∧ r.takenTurn = x.1 := by
  rw [turn.eq_def] at h
  split at h
  · next token r htoken hr =>
    split at h
    · cases h
    · next hlive =>
      obtain rfl := Option.some.inj h
      exact ⟨rfl, ⟨htoken, hlive⟩, r, hr, rfl⟩
  · cases h

theorem Candidate.turn (h : a.Candidate c) : ∃ x, a.turn c = some x := by
  obtain ⟨⟨t, htoken, hlive⟩, hasked⟩ := h
  obtain ⟨r, hr⟩ := Option.isSome_iff_exists.mp hasked
  refine ⟨(r.takenTurn, c, t), ?_⟩
  rw [LocalActor.turn.eq_def, htoken, hr]
  simp only
  rw [if_neg hlive]

/-- The view that is chosen had the size last of all that could have it. -/
theorem candidate_some {order : List Controller} (h : a.Turns) (hcover : ∀ c, (a.focused.lookup c).isSome → c ∈ order)
    (hsome : a.candidate order = some (c, t)) :
    a.Live c t ∧ (∃ r, a.requested.lookup c = some r) ∧ ∀ c', a.Candidate c' → a.heldAt c' ≤ a.heldAt c := by
  rw [candidate, Option.map_eq_some_iff] at hsome
  obtain ⟨x, hx, hxc⟩ := hsome
  obtain ⟨hmem, hmost⟩ := maxByKey_some hx
  obtain ⟨d, -, hturn⟩ := List.mem_filterMap.mp hmem
  obtain ⟨hd, hlive, r, hr, hrx⟩ := turn_some hturn
  rw [hxc] at hd hlive
  have hdc : c = d := hd
  subst hdc
  refine ⟨hlive, ⟨r, hr⟩, fun c' hcandidate => ?_⟩
  obtain ⟨y, hy⟩ := hcandidate.turn
  obtain ⟨-, hlive', r', hr', hry⟩ := turn_some hy
  have hin : c' ∈ order := hcover c' (by rw [hlive'.1]; rfl)
  have hle := hmost y (List.mem_filterMap.mpr ⟨c', hin, hy⟩)
  rw [← hrx, ← hry] at hle
  exact not_lt.mp fun hlt => absurd ((h.order c r c' r' hr hr').mpr hlt) (not_lt.mpr hle)

theorem candidate_none {order : List Controller} (hcover : ∀ c, (a.focused.lookup c).isSome → c ∈ order)
    (hnone : a.candidate order = none) : ∀ c, ¬ a.Candidate c := by
  intro c hcandidate
  obtain ⟨x, hx⟩ := hcandidate.turn
  obtain ⟨-, hlive, -⟩ := turn_some hx
  rw [candidate, Option.map_eq_none_iff] at hnone
  have hmem : x ∈ order.filterMap a.turn :=
    List.mem_filterMap.mpr ⟨c, hcover c (by rw [hlive.1]; rfl), hx⟩
  rw [maxByKey_none hnone] at hmem
  cases hmem

end LocalActor

end Kodosi.Terminal.SizeOwner
