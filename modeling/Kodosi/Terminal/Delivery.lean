import Kodosi.Terminal.Subscribers

/-! What stands in the queues of one view, and what a poll hands out of it: the output in its order, each
    resize at its place, and no error as long as the waiting resizes fit. -/

namespace Kodosi.Terminal

variable {κ : Type}

/-! ### What is queued -/

/-- The data of a queue that a reader at `n` will get leads to `m` without a gap. What is older than
    the reader stands in between and is skipped. -/
def Leads : Nat → List DataFrame → Nat → Prop
  | n, [], m => n = m
  | n, f :: data, m =>
    (f.sequence < n ∧ Leads n data m) ∨ (f.sequence = n ∧ Leads (n + 1) data m)

/-- Where a reader stands after the snapshots of a control queue. -/
def baseOf : Nat → List (ControlFrame κ) → Nat
  | n, [] => n
  | _, .snapshot _ m :: control => baseOf m control
  | n, .resize _ :: control => baseOf n control
  | n, .closed _ _ :: control => baseOf n control

/-- A control queue that a reader at `n` reads well when its last resize is at `last`: resizes come in
    order, snapshots are not behind the reader, and a close is the last frame. -/
def Placed (T : Nat) (live : Bool) : Nat → Nat → List (ControlFrame κ) → Prop
  | _, _, [] => True
  | n, last, .resize r :: control => last ≤ r.atSequence ∧ r.atSequence ≤ T ∧
      Placed T live n r.atSequence control
  | n, _, .snapshot _ m :: control => n ≤ m ∧ m ≤ T ∧ Placed T live m m control
  | _, _, .closed _ final :: control => live = false ∧ final = T ∧ control = []

theorem Leads.le : ∀ {n m : Nat} {data : List DataFrame}, Leads n data m → n ≤ m
  | n, m, [], h => Nat.le_of_eq h
  | n, m, f :: data, h => by
    rcases h with ⟨-, h⟩ | ⟨-, h⟩
    · exact h.le
    · have := h.le
      omega

theorem Leads.lt : ∀ {n m : Nat} {data : List DataFrame}, Leads n data m → ∀ f ∈ data, f.sequence < m
  | _, _, [], _ => by simp
  | n, m, f :: data, h => by
    refine List.forall_mem_cons.mpr ?_
    rcases h with ⟨hf, h⟩ | ⟨hf, h⟩
    · exact ⟨by have := h.le; omega, h.lt⟩
    · exact ⟨by have := h.le; omega, h.lt⟩

/-- Data that is all older than the reader leads nowhere. -/
theorem Leads.old : ∀ {n : Nat} {data : List DataFrame}, (∀ f ∈ data, f.sequence < n) → Leads n data n
  | n, [], _ => rfl
  | n, f :: data, h => by
    obtain ⟨hf, h⟩ := List.forall_mem_cons.mp h
    exact .inl ⟨hf, .old h⟩

theorem Leads.snoc {bytes : Bytes} : ∀ {n m : Nat} {data : List DataFrame}, Leads n data m →
    Leads n (data ++ [⟨m, bytes⟩]) (m + 1)
  | n, m, [], h => .inr ⟨h.symm, congrArg (· + 1) (show n = m from h)⟩
  | n, m, f :: data, h => by
    rcases h with ⟨hf, h⟩ | ⟨hf, h⟩
    · exact .inl ⟨hf, h.snoc⟩
    · exact .inr ⟨hf, h.snoc⟩

theorem Leads.range : ∀ {n : Nat} {data : List DataFrame},
    data.map (·.sequence) = List.range' n data.length → Leads n data (n + data.length)
  | n, [], _ => rfl
  | n, f :: data, h => by
    rw [List.map_cons, List.length_cons, List.range'_succ, List.cons.injEq] at h
    have := Leads.range h.2
    rw [Nat.add_assoc, Nat.add_comm 1] at this
    exact .inr ⟨h.1, this⟩

theorem Placed.mono {T T' : Nat} (hT : T ≤ T') : ∀ {n last : Nat} {control : List (ControlFrame κ)},
    Placed T true n last control → Placed T' true n last control
  | _, _, [], _ => trivial
  | _, _, .resize _ :: _, h => ⟨h.1, h.2.1.trans hT, h.2.2.mono hT⟩
  | _, _, .snapshot _ _ :: _, h => ⟨h.1, h.2.1.trans hT, h.2.2.mono hT⟩
  | _, _, .closed _ _ :: _, h => by simp [Placed] at h

/-- What a view reads well while the terminal holds it, it reads well afterwards. -/
theorem Placed.dropped {T : Nat} : ∀ {n last : Nat} {control : List (ControlFrame κ)},
    Placed T true n last control → Placed T false n last control
  | _, _, [], _ => trivial
  | _, _, .resize _ :: _, h => ⟨h.1, h.2.1, h.2.2.dropped⟩
  | _, _, .snapshot _ _ :: _, h => ⟨h.1, h.2.1, h.2.2.dropped⟩
  | _, _, .closed _ _ :: _, h => by simp [Placed] at h

/-- A new frame at the end of the queue of a view that the terminal still holds. -/
theorem Placed.snoc {T : Nat} {live : Bool} {frame : ControlFrame κ}
    (hframe : ∀ n last, n ≤ T → last ≤ T → Placed T live n last [frame]) :
    ∀ {n last : Nat} {control : List (ControlFrame κ)}, Placed T true n last control → n ≤ T →
      last ≤ T → Placed T live n last (control ++ [frame])
  | n, last, [], _, hn, hlast => hframe n last hn hlast
  | n, last, .resize r :: control, h, hn, hlast =>
    ⟨h.1, h.2.1, Placed.snoc hframe h.2.2 hn h.2.1⟩
  | n, last, .snapshot c m :: control, h, hn, hlast =>
    ⟨h.1, h.2.1, Placed.snoc hframe h.2.2 h.2.1 h.2.1⟩
  | n, last, .closed _ _ :: control, h, _, _ => by simp [Placed] at h

theorem baseOf_snoc (frame : ControlFrame κ) : ∀ (n : Nat) (control : List (ControlFrame κ)),
    baseOf n (control ++ [frame]) = baseOf (baseOf n control) [frame]
  | _, [] => rfl
  | _, .resize _ :: control => baseOf_snoc frame _ control
  | _, .snapshot _ m :: control => baseOf_snoc frame m control
  | _, .closed _ _ :: control => baseOf_snoc frame _ control

/-- The place of the last resize that waits, or else of the reader. -/
def Subscription.last (s : Subscription κ) : Nat :=
  (s.resizes.getLast?.map (·.atSequence)).getD s.nextSequence

/-- What one view keeps, when the terminal's next output is `T`. -/
structure Link.Valid (output : List DataFrame) (T : Nat) (l : Link κ) : Prop where
  next : l.sub.nextSequence ≤ T
  placed : Placed T l.live l.sub.nextSequence l.sub.last l.control
  resizes : ∀ r ∈ l.sub.resizes, l.sub.nextSequence ≤ r.atSequence ∧ r.atSequence ≤ T
  sorted : l.sub.resizes.Pairwise (·.atSequence ≤ ·.atSequence)
  few : l.sub.resizes.length ≤ MAX_PENDING_RESIZES
  refreshed : ∀ cut ∈ l.sub.refreshed, l.sub.nextSequence ≤ cut.nextSequence
  closing : ∀ c ∈ l.sub.closing, c.2 = T ∧ l.live = false ∧ l.control = []
  data : ∃ m, Leads (baseOf l.sub.nextSequence l.control) l.data m ∧ m ≤ T ∧
    (l.behind = false → m = T)
  known : ∀ f ∈ l.data, f ∈ output

/-! ### What the terminal puts into the queues -/

/-- A change of the queues alone. -/
def Link.Queues (f : Link κ → Link κ) : Prop := ∀ l, (f l).sub = l.sub ∧ (f l).live = l.live

theorem queues_deliver (frame : ControlFrame κ) : Link.Queues (Link.deliver frame) := fun l => by
  unfold Link.deliver
  split <;> exact ⟨rfl, rfl⟩

theorem queues_putData (frame : DataFrame) : Link.Queues (κ := κ) (Link.putData frame) := fun l => by
  unfold Link.putData
  split
  · exact ⟨rfl, rfl⟩
  · split <;> exact ⟨rfl, rfl⟩

theorem queues_putControl (frame : ControlFrame κ) : Link.Queues (Link.putControl frame) := fun l => by
  unfold Link.putControl
  split
  · split
    · exact ⟨rfl, rfl⟩
    · exact queues_deliver _ l
  · exact queues_deliver _ l

theorem queues_putRefresh (c : κ) (n : Nat) : Link.Queues (Link.putRefresh c n) := fun l => by
  unfold Link.putRefresh
  split
  · exact queues_deliver _ l
  · exact ⟨rfl, rfl⟩

namespace Link.Valid

variable {output : List DataFrame} {T : Nat} {l : Link κ}

theorem last_le (h : l.Valid output T) : l.sub.last ≤ T := by
  rw [Subscription.last]
  cases hlast : l.sub.resizes.getLast? with
  | none => exact h.next
  | some r => exact (h.resizes r (List.mem_of_getLast? hlast)).2

/-- A view that the terminal still holds is not closing. -/
theorem no_closing {P : String × Nat → Prop} (h : l.Valid output T) (hlive : l.live = true) :
    ∀ c ∈ l.sub.closing, P c := fun c hc => by
  have := (h.closing c hc).2.1
  rw [hlive] at this
  simp at this

/-- Nothing changes for a view when the terminal goes on without it. -/
theorem mono {T' : Nat} {output' : List DataFrame} (h : l.Valid output T) (hlive : l.live = true)
    (hT : T ≤ T') (houtput : output ⊆ output') (hbehind : l.behind = true ∨ T = T') :
    l.Valid output' T' := by
  have hplaced := h.placed
  rw [hlive] at hplaced
  obtain ⟨m, hm, hle, hwhole⟩ := h.data
  refine ⟨h.next.trans hT, ?_, fun r hr => ?_, h.sorted, h.few, h.refreshed, h.no_closing hlive,
    ⟨m, hm, hle.trans hT, fun hb => ?_⟩, fun f hf => houtput (h.known f hf)⟩
  · rw [hlive]
    exact hplaced.mono hT
  · exact ⟨(h.resizes r hr).1, (h.resizes r hr).2.trans hT⟩
  · rcases hbehind with hbehind | rfl
    · rw [hb] at hbehind
      simp at hbehind
    · exact hwhole hb

theorem fallBehind (h : l.Valid output T) : Valid output T { l with behind := true } := by
  obtain ⟨m, hm, hle, -⟩ := h.data
  exact ⟨h.next, h.placed, h.resizes, h.sorted, h.few, h.refreshed, h.closing,
    ⟨m, hm, hle, fun hb => by simp at hb⟩, h.known⟩

theorem putData (h : l.Valid output T) (hlive : l.live = true) (bytes : Bytes) :
    (l.putData ⟨T, bytes⟩).Valid (output ++ [⟨T, bytes⟩]) (T + 1) := by
  have hsub : output ⊆ output ++ [⟨T, bytes⟩] := List.subset_append_left _ _
  rw [Link.putData]
  by_cases hbehind : l.behind = true
  · rw [if_pos hbehind]
    exact h.mono hlive (Nat.le_succ T) hsub (.inl hbehind)
  rw [if_neg hbehind]
  split
  · exact h.fallBehind.mono hlive (Nat.le_succ T) hsub (.inl rfl)
  have hplaced := h.placed
  rw [hlive] at hplaced
  obtain ⟨m, hm, -, hwhole⟩ := h.data
  obtain rfl := hwhole (by simpa using hbehind)
  refine ⟨h.next.trans (Nat.le_succ m), ?_, fun r hr => ?_, h.sorted, h.few, h.refreshed,
    h.no_closing hlive, ⟨m + 1, hm.snoc, Nat.le_refl _, fun _ => rfl⟩, fun f hf => ?_⟩
  · show Placed (m + 1) l.live _ _ _
    rw [hlive]
    exact hplaced.mono (Nat.le_succ m)
  · exact ⟨(h.resizes r hr).1, (h.resizes r hr).2.trans (Nat.le_succ m)⟩
  · rcases List.mem_append.mp hf with hf | hf
    · exact hsub (h.known f hf)
    · exact List.mem_append_right _ hf

theorem deliver_resize {r : Resize} (h : l.Valid output T) (hlive : l.live = true)
    (hr : r.atSequence = T) : (l.deliver (.resize r)).Valid output T := by
  unfold Link.deliver
  by_cases hroom : l.control.length < CONTROL_CAPACITY
  · rw [if_pos hroom]
    have hplaced := h.placed
    rw [hlive] at hplaced
    refine ⟨h.next, ?_, h.resizes, h.sorted, h.few, h.refreshed, h.no_closing hlive, ?_, h.known⟩
    · show Placed T l.live _ _ (l.control ++ [.resize r])
      rw [hlive]
      refine hplaced.snoc (fun n last _ hlast => ?_) h.next h.last_le
      exact ⟨by omega, by omega, trivial⟩
    · obtain ⟨m, hm, hle, hwhole⟩ := h.data
      refine ⟨m, ?_, hle, hwhole⟩
      rw [baseOf_snoc]
      exact hm
  · rw [if_neg hroom]
    exact h.fallBehind

theorem deliver_snapshot {c : κ} {T' : Nat} (h : l.Valid output T) (hlive : l.live = true)
    (hT : T ≤ T') : (l.deliver (.snapshot c T')).Valid output T' := by
  unfold Link.deliver
  by_cases hroom : l.control.length < CONTROL_CAPACITY
  · rw [if_pos hroom]
    have hplaced := h.placed
    rw [hlive] at hplaced
    refine ⟨h.next.trans hT, ?_, fun r hr => ?_, h.sorted, h.few, h.refreshed, h.no_closing hlive,
      ?_, h.known⟩
    · show Placed T' l.live _ _ (l.control ++ [.snapshot c T'])
      rw [hlive]
      refine (hplaced.mono hT).snoc (fun n last hn hlast => ?_) (h.next.trans hT)
        (h.last_le.trans hT)
      exact ⟨hn, Nat.le_refl _, trivial⟩
    · exact ⟨(h.resizes r hr).1, (h.resizes r hr).2.trans hT⟩
    · obtain ⟨m, hm, hle, -⟩ := h.data
      refine ⟨T', ?_, Nat.le_refl _, fun _ => rfl⟩
      rw [baseOf_snoc]
      exact .old fun f hf => (hm.lt f hf).trans_le (hle.trans hT)
  · rw [if_neg hroom]
    exact h.fallBehind.mono hlive hT (List.Subset.refl _) (.inl rfl)

theorem putRefresh (h : l.Valid output T) (hlive : l.live = true) (c : κ) : (l.putRefresh c T).Valid output T := by
  rw [Link.putRefresh]
  split
  · exact h.deliver_snapshot hlive (Nat.le_refl T)
  · exact h

theorem putResize {r : Resize} (h : l.Valid output T) (hlive : l.live = true)
    (hr : r.atSequence = T) : (l.putControl (.resize r)).Valid output T := by
  simp only [Link.putControl]
  split
  · exact h
  · exact h.deliver_resize hlive hr

theorem putClose (h : l.Valid output T) (hlive : l.live = true) (reason : String) :
    (l.putClose reason T).Valid output T := by
  have hplaced := h.placed
  rw [hlive] at hplaced
  have hlast : Placed T false l.sub.nextSequence l.sub.last
      (l.control ++ [.closed reason T]) :=
    Placed.snoc (show ∀ n last, n ≤ T → last ≤ T →
      Placed T false n last [(.closed reason T : ControlFrame κ)] from fun _ _ _ _ => ⟨rfl, rfl, rfl⟩)
      hplaced h.next h.last_le
  obtain ⟨m, hm, hle, hwhole⟩ := h.data
  rw [Link.putClose]
  split
  · refine ⟨h.next, hlast, h.resizes, h.sorted, h.few, h.refreshed, h.no_closing hlive,
      ⟨m, ?_, hle, hwhole⟩, h.known⟩
    rw [baseOf_snoc]
    exact hm
  · exact ⟨h.next, hplaced.dropped, h.resizes, h.sorted, h.few, h.refreshed, h.no_closing hlive,
      ⟨m, hm, hle, hwhole⟩, h.known⟩

end Link.Valid

/-! ### What a poll takes out -/

/-- The resizes that stand first in a control queue. -/
def leading : List (ControlFrame κ) → Nat
  | .resize _ :: control => leading control + 1
  | _ => 0

namespace Link

/-- The view has nothing to hand out before it looks at its control queue. -/
def Looks (l : Link κ) : Bool :=
  l.sub.closing.isNone && match l.sub.ready.1 with
    | .ok none => true
    | _ => false

/-- When the view looks at its control queue, the resizes there fit with those that wait already. -/
def Fits (l : Link κ) : Prop :=
  l.Looks → l.sub.resizes.length + leading l.control ≤ MAX_PENDING_RESIZES

instance (l : Link κ) : Decidable l.Fits :=
  inferInstanceAs (Decidable (l.Looks → _))

/-- The close of the terminal is on its way to the view. -/
def Closes (l : Link κ) : Prop :=
  l.sub.closing.isSome ∨ ∃ reason final, .closed reason final ∈ l.control

/-- What a view may still hand out before the close. -/
def left (T : Nat) (l : Link κ) : Nat :=
  (T - l.sub.nextSequence) + l.sub.resizes.length + l.control.length + l.sub.refreshed.toList.length

end Link

/-- What a poll may come to for a view at `n`, and where it stands afterwards. -/
inductive Outcome (output : List DataFrame) (T : Nat) (l : Link κ) (n : Nat) :
    Polled κ → Nat → Prop
  | pending (hlive : l.live = true) : Outcome output T l n .pending n
  | data {f : DataFrame} (hknown : f ∈ output) (hn : f.sequence = n) :
      Outcome output T l n (.frame (.data f)) (n + 1)
  | resize {r : Resize} (hn : r.atSequence = n) :
      Outcome output T l n (.frame (.control (.resize r))) n
  | snapshot {c : κ} {m : Nat} (hn : n ≤ m) :
      Outcome output T l n (.frame (.control (.snapshot c m))) m
  | closed {reason : String} (hlive : l.live = false) (hwhole : l.behind = false → n = T) :
      Outcome output T l n (.frame (.control (.closed reason T))) n
  | ended (hlive : l.live = false) (hcloses : ¬l.Closes) : Outcome output T l n .ended n

/-- What a turn or a poll does to a view. -/
structure Took (output : List DataFrame) (T : Nat) (l : Link κ) (p : Polled κ) (l' : Link κ) :
    Prop where
  valid : l'.Valid output T
  outcome : Outcome output T l l.sub.nextSequence p l'.sub.nextSequence
  behind : l'.behind = l.behind
  live : l'.live = l.live
  progress : l.Closes → (∃ reason final, p = .frame (.control (.closed reason final))) ∨
    l'.Closes ∧ l'.left T < l.left T

/-- A turn after which the view looks again. -/
structure Again (output : List DataFrame) (T : Nat) (l l' : Link κ) : Prop where
  valid : l'.Valid output T
  next : l'.sub.nextSequence = l.sub.nextSequence
  fits : l'.Fits
  behind : l'.behind = l.behind
  live : l'.live = l.live
  closes : l'.Closes ↔ l.Closes
  left : l'.left T ≤ l.left T
  size : l'.control.length + l'.data.length < l.control.length + l.data.length

namespace Link.Valid

variable {output : List DataFrame} {T : Nat} {l : Link κ}

theorem took_close (h : l.Valid output T) :
    (∃ f sub, l.sub.readyClose = (.ok (some f), sub) ∧ Took output T l (.frame f) { l with sub := sub }) ∨
    l.sub.readyClose = (.ok none, l.sub) ∧ ∀ c ∈ l.sub.closing, l.sub.nextSequence < T := by
  rw [Subscription.readyClose]
  cases hclosing : l.sub.closing with
  | none => exact .inr ⟨rfl, by simp⟩
  | some c =>
    obtain ⟨reason, last⟩ := c
    obtain ⟨rfl, hlive, -⟩ := h.closing _ hclosing
    dsimp only
    rw [if_neg (by have := h.next; omega)]
    by_cases hlast : last = l.sub.nextSequence
    · rw [if_pos hlast]
      refine .inl ⟨_, _, rfl, ⟨h.next, h.placed, h.resizes, h.sorted, h.few, h.refreshed, by simp,
        h.data, h.known⟩, .closed hlive fun _ => hlast.symm, rfl, rfl, fun _ => .inl ⟨_, _, rfl⟩⟩
    · rw [if_neg hlast]
      refine .inr ⟨rfl, ?_⟩
      rintro c -
      have := h.next
      omega

theorem last_tail {s : Subscription κ} {r : Resize} {rest : List Resize}
    (hresizes : s.resizes = r :: rest) (hr : r.atSequence = s.nextSequence) :
    ({ s with resizes := rest } : Subscription κ).last = s.last := by
  rw [Subscription.last, Subscription.last, hresizes]
  cases rest with
  | nil => exact hr.symm
  | cons r' rest => rw [List.getLast?_cons_cons]

theorem took_resize (h : l.Valid output T) :
    (∃ f sub, l.sub.readyResize = (.ok (some f), sub) ∧ Took output T l (.frame f) { l with sub := sub }) ∨
    l.sub.readyResize = (.ok none, l.sub) ∧
      (∀ r ∈ l.sub.resizes, l.sub.nextSequence < r.atSequence) ∧
      ∀ c ∈ l.sub.closing, l.sub.nextSequence < T := by
  rw [Subscription.readyResize]
  cases hresizes : l.sub.resizes with
  | nil =>
    rcases h.took_close with htook | ⟨hready, hclosing⟩
    · exact .inl htook
    · exact .inr ⟨hready, by simp, hclosing⟩
  | cons r rest =>
    have hat := h.resizes
    have hsorted := h.sorted
    have hfew := h.few
    rw [hresizes] at hat hsorted hfew
    obtain ⟨hr, hrest⟩ := List.forall_mem_cons.mp hat
    obtain ⟨hfirst, hsorted⟩ := List.pairwise_cons.mp hsorted
    dsimp only
    rw [if_neg (by omega)]
    by_cases hhere : r.atSequence = l.sub.nextSequence
    · rw [if_pos hhere]
      refine .inl ⟨_, _, rfl, ⟨h.next, ?_, hrest, hsorted, ?_, h.refreshed, h.closing, h.data,
        h.known⟩, .resize hhere, rfl, rfl, fun hcloses => .inr ⟨hcloses, ?_⟩⟩
      · show Placed T l.live _ _ _
        rw [last_tail hresizes hhere]
        exact h.placed
      · rw [List.length_cons] at hfew
        exact Nat.le_of_succ_le hfew
      · simp only [Link.left, hresizes, List.length_cons]
        omega
    · rw [if_neg hhere]
      have hlt : l.sub.nextSequence < r.atSequence := by omega
      rcases h.took_close with htook | ⟨hready, hclosing⟩
      · exact .inl htook
      · refine .inr ⟨hready, List.forall_mem_cons.mpr ⟨hlt, fun r' hr' => ?_⟩, hclosing⟩
        exact hlt.trans_le (hfirst r' hr')

/-- What a view hands out before it looks at its queues. -/
theorem took_ready (h : l.Valid output T) :
    (∃ f sub, l.sub.ready = (.ok (some f), sub) ∧ Took output T l (.frame f) { l with sub := sub }) ∨
    l.sub.ready = (.ok none, l.sub) ∧ (∀ cut ∈ l.sub.refreshed, l.sub.nextSequence < cut.nextSequence) ∧
      (∀ r ∈ l.sub.resizes, l.sub.nextSequence < r.atSequence) ∧
      ∀ c ∈ l.sub.closing, l.sub.nextSequence < T := by
  rw [Subscription.ready]
  cases hrefreshed : l.sub.refreshed with
  | none =>
    rcases h.took_resize with htook | ⟨hready, hresizes, hclosing⟩
    · exact .inl htook
    · exact .inr ⟨hready, by simp, hresizes, hclosing⟩
  | some cut =>
    have hcut := h.refreshed cut hrefreshed
    dsimp only
    rw [if_neg (by omega)]
    by_cases hhere : cut.nextSequence = l.sub.nextSequence
    · rw [if_pos hhere]
      refine .inl ⟨_, _, rfl, ⟨h.next, h.placed, h.resizes, h.sorted, h.few, by simp, h.closing,
        h.data, h.known⟩, ?_, rfl, rfl, fun hcloses => .inr ⟨hcloses, ?_⟩⟩
      · rw [hhere]
        exact .snapshot (Nat.le_refl _)
      · simp [Link.left, hrefreshed]
    · rw [if_neg hhere]
      rcases h.took_resize with htook | ⟨hready, hresizes, hclosing⟩
      · exact .inl htook
      · refine .inr ⟨hready, ?_, hresizes, hclosing⟩
        rintro cut' ⟨⟩
        omega

/-- A turn ends the poll, or the view looks again. -/
def Turned (output : List DataFrame) (T : Nat) (l : Link κ) (r : Option (Polled κ) × Link κ) : Prop :=
  (∃ p, r.1 = some p ∧ Took output T l p r.2) ∨ r.1 = none ∧ Again output T l r.2

theorem took_data (h : l.Valid output T) (hT : T < 2 ^ 64) (hcontrol : l.control = [])
    (hrefreshed : ∀ cut ∈ l.sub.refreshed, l.sub.nextSequence < cut.nextSequence)
    (hresizes : ∀ r ∈ l.sub.resizes, l.sub.nextSequence < r.atSequence)
    (hlive : l.live = true ∨ l.sub.closing.isSome) : Turned output T l l.takeData := by
  obtain ⟨m, hm, hle, hwhole⟩ := h.data
  rw [hcontrol] at hm
  change Leads l.sub.nextSequence l.data m at hm
  have hknown := h.known
  unfold Link.takeData
  cases hdata : l.data with
  | nil =>
    rw [hdata] at hm
    dsimp only
    by_cases hopen : l.live = true
    · rw [if_pos hopen]
      refine .inl ⟨_, rfl, h, .pending hopen, rfl, rfl, fun hcloses => ?_⟩
      rcases hcloses with hcloses | ⟨reason, final, hmem⟩
      · obtain ⟨c, hc⟩ := Option.isSome_iff_exists.mp hcloses
        exact absurd (h.closing c hc).2.1 (by simp [hopen])
      · simp [hcontrol] at hmem
    · rw [if_neg hopen]
      obtain ⟨⟨reason, last⟩, hc⟩ := Option.isSome_iff_exists.mp (hlive.resolve_left hopen)
      obtain ⟨rfl, hdead, -⟩ := h.closing _ hc
      rw [hc]
      refine .inl ⟨_, rfl, ⟨h.next, h.placed, h.resizes, h.sorted, h.few, h.refreshed, by simp,
        ⟨m, ?_, hle, hwhole⟩, by simp⟩, .closed hdead fun hb => ?_, rfl, rfl,
        fun _ => .inl ⟨_, _, rfl⟩⟩
      · rw [show baseOf _ l.control = l.sub.nextSequence by rw [hcontrol]; rfl]
        exact hm
      · exact (show l.sub.nextSequence = m from hm).trans (hwhole hb)
  | cons f rest =>
    rw [hdata] at hm hknown
    obtain ⟨hf, hrest⟩ := List.forall_mem_cons.mp hknown
    dsimp only
    rcases hm with ⟨hold, hm⟩ | ⟨hhere, hm⟩
    · rw [if_pos hold]
      refine .inr ⟨rfl, ⟨h.next, h.placed, h.resizes, h.sorted, h.few, h.refreshed, h.closing,
        ⟨m, ?_, hle, hwhole⟩, hrest⟩, rfl, fun _ => ?_, rfl, rfl, Iff.rfl, Nat.le_refl _, ?_⟩
      · rw [show baseOf _ l.control = l.sub.nextSequence by rw [hcontrol]; rfl]
        exact hm
      · rw [show leading l.control = 0 by rw [hcontrol]; rfl]
        exact h.few
      · simp only [hdata, List.length_cons]
        omega
    · have hlt := hm.le
      rw [if_neg (by omega), if_pos hhere, if_pos (by omega)]
      refine .inl ⟨_, rfl, ⟨?_, ?_, fun r hr => ⟨hresizes r hr, (h.resizes r hr).2⟩, h.sorted, h.few,
        fun cut hcut => hrefreshed cut hcut, h.closing, ⟨m, ?_, hle, hwhole⟩, hrest⟩,
        .data hf hhere, rfl, rfl, fun hcloses => .inr ⟨hcloses, ?_⟩⟩
      · show l.sub.nextSequence + 1 ≤ T
        omega
      · show Placed T l.live _ _ l.control
        rw [hcontrol]
        trivial
      · rw [show baseOf _ l.control = l.sub.nextSequence + 1 by rw [hcontrol]; rfl]
        exact hm
      · simp only [Link.left]
        omega

variable {rest : List (ControlFrame κ)}

/-- The last resize in line is not behind one that is next in the queue. -/
theorem take_resize {r : Resize} (h : l.Valid output T) (hcontrol : l.control = .resize r :: rest)
    (hclosing : l.sub.closing = none) (hfits : l.sub.resizes.length + leading l.control ≤ MAX_PENDING_RESIZES) :
    Turned output T l (l.takeResize r rest) := by
  have hplaced := h.placed
  rw [hcontrol] at hplaced hfits
  obtain ⟨hlast, hle, hplaced⟩ := hplaced
  have hroom : l.sub.resizes.length + (leading rest + 1) ≤ MAX_PENDING_RESIZES := hfits
  have hat : ∀ r' ∈ l.sub.resizes, r'.atSequence ≤ r.atSequence := fun r' hr' => by
    have hne := List.ne_nil_of_mem hr'
    have hlast' : l.sub.last = (l.sub.resizes.getLast hne).atSequence := by
      rw [Subscription.last, List.getLast?_eq_getLast_of_ne_nil hne]
      rfl
    have := List.Pairwise.rel_getLast h.sorted hr'
    omega
  have hnext : l.sub.nextSequence ≤ r.atSequence := by
    have hle : l.sub.nextSequence ≤ l.sub.last := by
      rw [Subscription.last]
      cases hlast' : l.sub.resizes.getLast? with
      | none => exact Nat.le_refl _
      | some r' => exact (h.resizes r' (List.mem_of_getLast? hlast')).1
    omega
  have hbound : ¬(MAX_PENDING_RESIZES ≤ l.sub.resizes.length ∨
      l.sub.resizes.getLast?.any (r.atSequence < ·.atSequence)) := by
    rintro (hfull | hany)
    · omega
    · obtain ⟨r', hr', hlt⟩ := (Option.any_eq_true _ _).mp hany
      have := hat r' (List.mem_of_getLast? hr')
      have := of_decide_eq_true hlt
      omega
  rw [Link.takeResize, if_neg hbound]
  obtain ⟨m, hm, hle', hwhole⟩ := h.data
  rw [hcontrol] at hm
  refine .inr ⟨rfl, ⟨h.next, ?_, ?_, ?_, ?_, h.refreshed, ?_, ⟨m, hm, hle', hwhole⟩, h.known⟩, rfl,
    fun _ => ?_, rfl, rfl, ?_, ?_, ?_⟩
  · have : ({ l.sub with resizes := l.sub.resizes ++ [r] } : Subscription κ).last = r.atSequence := by
      simp [Subscription.last]
    show Placed T l.live _ _ rest
    rw [this]
    exact hplaced
  · intro r' hr'
    rcases List.mem_append.mp hr' with hr' | hr'
    · exact h.resizes r' hr'
    · obtain rfl := List.mem_singleton.mp hr'
      exact ⟨hnext, hle⟩
  · refine List.pairwise_append.mpr ⟨h.sorted, List.pairwise_singleton _ _, fun a ha b hb => ?_⟩
    obtain rfl := List.mem_singleton.mp hb
    exact hat a ha
  · simp only [List.length_append, List.length_singleton]
    omega
  · show ∀ c ∈ l.sub.closing, _
    rw [hclosing]
    simp
  · simp only [List.length_append, List.length_singleton]
    omega
  · simp [Link.Closes, hcontrol]
  · simp only [Link.left, hcontrol, List.length_append, List.length_cons, List.length_nil]
    omega
  · simp only [hcontrol, List.length_cons]
    omega

theorem take_snapshot {c : κ} {n : Nat} (h : l.Valid output T) (hcontrol : l.control = .snapshot c n :: rest)
    (hclosing : l.sub.closing = none) :
    Turned output T l (l.takeSnapshot c n rest) := by
  have hplaced := h.placed
  obtain ⟨m, hm, hle', hwhole⟩ := h.data
  rw [hcontrol] at hplaced hm
  obtain ⟨hnext, hn, hplaced⟩ := hplaced
  rw [Link.takeSnapshot, if_neg (Nat.not_lt.mpr hnext)]
  refine .inl ⟨_, rfl, ⟨hn, hplaced, by simp, .nil, by simp [MAX_PENDING_RESIZES], by simp, ?_,
    ⟨m, hm, hle', hwhole⟩, h.known⟩, .snapshot hnext, rfl, rfl, fun hcloses => .inr ⟨?_, ?_⟩⟩
  · show ∀ c ∈ l.sub.closing, _
    rw [hclosing]
    simp
  · rcases hcloses with hcloses | ⟨reason, final, hmem⟩
    · exact .inl hcloses
    · rw [hcontrol] at hmem
      exact .inr ⟨reason, final, by simpa using hmem⟩
  · simp only [Link.left, hcontrol, List.length_cons, List.length_nil, Option.toList_none]
    omega

theorem take_closed {reason : String} {final : Nat} (h : l.Valid output T)
    (hcontrol : l.control = .closed reason final :: rest) :
    Again output T l { l with control := rest, sub := { l.sub with closing := some (reason, final) } } := by
  have hplaced := h.placed
  obtain ⟨m, hm, hle', hwhole⟩ := h.data
  rw [hcontrol] at hplaced hm
  obtain ⟨hlive, rfl, rfl⟩ := hplaced
  refine ⟨⟨h.next, trivial, h.resizes, h.sorted, h.few, h.refreshed, ?_, ⟨m, hm, hle', hwhole⟩,
    h.known⟩, rfl, ?_, rfl, rfl, ?_, ?_, ?_⟩
  · rintro c ⟨⟩
    exact ⟨rfl, hlive, rfl⟩
  · intro hlooks
    simp [Link.Looks] at hlooks
  · exact ⟨fun _ => .inr ⟨reason, final, by simp [hcontrol]⟩, fun _ => .inl rfl⟩
  · simp only [Link.left, hcontrol, List.length_cons, List.length_nil]
    omega
  · simp [hcontrol]

theorem turned (h : l.Valid output T) (hT : T < 2 ^ 64) (hfits : l.Fits) : Turned output T l l.turn := by
  rw [Link.turn]
  rcases h.took_ready with ⟨f, sub, hready, htook⟩ | ⟨hready, hrefreshed, hresizes, -⟩
  · rw [hready]
    exact .inl ⟨_, rfl, htook⟩
  have hroom : l.sub.closing = none → l.sub.resizes.length + leading l.control ≤ MAX_PENDING_RESIZES :=
    fun hclosing => hfits (by rw [Link.Looks, hready, hclosing]; rfl)
  rw [hready, Link.takeControl]
  dsimp only
  cases hclosing : l.sub.closing with
  | some c =>
    exact h.took_data hT (h.closing c hclosing).2.2 hrefreshed hresizes (.inr (by simp [hclosing]))
  | none =>
    cases hcontrol : l.control with
    | nil =>
      dsimp only
      by_cases hlive : l.live = true
      · rw [if_pos hlive]
        exact h.took_data hT hcontrol hrefreshed hresizes (.inl hlive)
      · rw [if_neg hlive]
        have hcloses : ¬l.Closes := by simp [Link.Closes, hclosing, hcontrol]
        exact .inl ⟨_, rfl, h, .ended (by simpa using hlive) hcloses, rfl, rfl,
          fun hc => absurd hc hcloses⟩
    | cons frame rest =>
      cases frame with
      | resize r => exact h.take_resize hcontrol hclosing (hroom hclosing)
      | snapshot c n => exact h.take_snapshot hcontrol hclosing
      | closed reason final => exact .inr ⟨rfl, h.take_closed hcontrol⟩

end Link.Valid

variable {output : List DataFrame} {T : Nat} {l l' l'' : Link κ} {p : Polled κ}

theorem Outcome.congr {n n' : Nat} (h : Outcome output T l' n p n') (hagain : Again output T l l') :
    Outcome output T l n p n' := by
  cases h with
  | pending hlive => exact .pending (hagain.live ▸ hlive)
  | data hknown hn => exact .data hknown hn
  | resize hn => exact .resize hn
  | snapshot hn => exact .snapshot hn
  | closed hlive hwhole => exact .closed (hagain.live ▸ hlive) (hagain.behind ▸ hwhole)
  | ended hlive hcloses => exact .ended (hagain.live ▸ hlive) fun hc => hcloses (hagain.closes.mpr hc)

/-- What is taken after a turn without a result is taken from where the turn began. -/
theorem Took.after (h : Again output T l l') (htook : Took output T l' p l'') : Took output T l p l'' := by
  refine ⟨htook.valid, ?_, htook.behind.trans h.behind, htook.live.trans h.live, fun hcloses => ?_⟩
  · rw [← h.next]
    exact htook.outcome.congr h
  · rcases htook.progress (h.closes.mpr hcloses) with hclosed | ⟨hcloses, hleft⟩
    · exact .inl hclosed
    · exact .inr ⟨hcloses, hleft.trans_le h.left⟩

/-- The loop of a poll ends before it has looked too often. -/
theorem Link.Valid.took_turns (hT : T < 2 ^ 64) : ∀ {n : Nat} {l : Link κ}, l.Valid output T →
    l.Fits → l.control.length + l.data.length < n →
    Took output T l (l.turns n).1 (l.turns n).2
  | n + 1, l, h, hfits, hn => by
    rw [Link.turns]
    rcases h.turned hT hfits with ⟨p, hp, htook⟩ | ⟨hp, hagain⟩
    · rw [show l.turn = (some p, l.turn.2) from Prod.ext hp rfl]
      exact htook
    · rw [show l.turn = (none, l.turn.2) from Prod.ext hp rfl]
      have hsize := hagain.size
      exact .after hagain (hagain.valid.took_turns hT hagain.fits (by omega))

theorem Link.Valid.took_recv (h : l.Valid output T) (hT : T < 2 ^ 64) (hfits : l.Fits) :
    Took output T l l.recv.1 l.recv.2 :=
  h.took_turns hT hfits (Nat.lt_succ_self _)

end Kodosi.Terminal
