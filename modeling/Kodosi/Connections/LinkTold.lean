import Kodosi.Connections.Link

/-! The announcements of the link: what the service was told of a terminal on the present connection. -/

namespace Kodosi.Connections.DeviceLink

variable {σ : Type}

/-- Whether a message is of a registration. -/
def Control.of (registration : Nat) : Control σ → Bool
  | .host _ _ r => r = registration
  | .status _ _ _ r => r = registration
  | _ => false

/-- What was said of a registration. -/
def said (registration : Nat) (control : List (Control σ)) : List (Control σ) := control.filter (Control.of registration)

theorem said_append (registration : Nat) (control more : List (Control σ)) :
    said registration (control ++ more) = said registration control ++ said registration more :=
  List.filter_append _ _

/-- A terminal was announced once with its incarnation, and the last status that was sent for it is its own; a terminal
    that was announced without a status has none. -/
def Hosting.Announced (h : Hosting σ) (control : List (Control σ)) : Prop :=
  ∃ statuses : List (Option σ),
    said h.registration control = .host h.session h.incarnation h.registration ::
      statuses.map (fun status => .status h.session h.incarnation status h.registration) ∧
    statuses.getLast?.join = h.status

namespace Link

variable {ν : Type} {s : Link σ}

/-- What the service was told fits the terminals that are registered. -/
structure Told (s : Link σ) : Prop where
  registrations : (s.hosting.map (·.registration)).Nodup
  below : ∀ h ∈ s.hosting, h.registration < s.next
  unsaid : ∀ registration, s.next ≤ registration → said registration s.control = []
  announced : s.outgoing = true → ∀ h ∈ s.hosting, h.refused = false → h.announced = true → h.Announced s.control
  silent : s.outgoing = true → ∀ h ∈ s.hosting, h.refused = false → h.announced = false →
    s.due = true ∧ said h.registration s.control = []

namespace Told

theorem new : (new : Link σ).Told where
  registrations := List.nodup_nil
  below := fun _ hp => absurd hp List.not_mem_nil
  unsaid := fun _ _ => rfl
  announced := fun _ _ hp => absurd hp List.not_mem_nil
  silent := fun _ _ hp => absurd hp List.not_mem_nil

variable {s' : Link σ}

/-- What does not touch the terminals, and says nothing of them. -/
theorem keep (h : s.Told) (hhosting : s'.hosting = s.hosting) (houtgoing : s'.outgoing = s.outgoing)
    (hdue : s'.due = s.due) (hnext : s.next ≤ s'.next) (hsaid : ∀ r, said r s'.control = said r s.control) :
    s'.Told := by
  obtain ⟨hregistrations, hbelow, hunsaid, hannounced, hsilent⟩ := h
  refine ⟨?_, ?_, fun r hr => ?_, fun hout t ht hrefused hsent => ?_, fun hout t ht hrefused hsent => ?_⟩
  · rwa [hhosting]
  · rw [hhosting]
    exact fun t ht => (hbelow t ht).trans_le hnext
  · rw [hsaid]
    exact hunsaid r (hnext.trans hr)
  · rw [houtgoing] at hout
    rw [hhosting] at ht
    rw [Hosting.Announced, hsaid]
    exact hannounced hout t ht hrefused hsent
  · rw [houtgoing] at hout
    rw [hhosting] at ht
    rw [hsaid, hdue]
    exact hsilent hout t ht hrefused hsent

theorem send (h : s.Told) {message : Control σ} (hof : ∀ r, message.of r = false) : (s.send message).Told := by
  refine h.keep rfl rfl rfl (le_refl _) fun r => ?_
  rw [Link.send, said_append]
  simp [said, hof]

variable {hosting : List (Hosting σ)}

/-- Terminals may go. -/
theorem fewer (h : s.Told) (hsub : hosting.Sublist s.hosting) : Told { s with hosting } where
  registrations := (hsub.map _).nodup h.registrations
  below := fun t ht => h.below t (hsub.subset ht)
  unsaid := h.unsaid
  announced := fun hout t ht => h.announced hout t (hsub.subset ht)
  silent := fun hout t ht => h.silent hout t (hsub.subset ht)

/-- A new terminal is to be announced. -/
theorem host (h : s.Told) {session incarnation : Uuid} (hsub : hosting.Sublist s.hosting) {hosted : List Hosted} :
    Told { s with
      hosting := hosting ++ [⟨session, s.next, incarnation, false, none, false⟩]
      hosted, next := s.next + 1, due := true } := by
  have hmem : ∀ {t}, t ∈ hosting ++ [⟨session, s.next, incarnation, false, none, false⟩] →
      t ∈ s.hosting ∨ t = ⟨session, s.next, incarnation, false, none, false⟩ := by
    intro t ht
    rcases List.mem_append.mp ht with ht | ht
    · exact .inl (hsub.subset ht)
    · exact .inr (List.mem_singleton.mp ht)
  refine ⟨?_, fun t ht => ?_, fun r hr => h.unsaid r (Nat.le_of_succ_le hr), fun hout t ht hrefused hsent => ?_,
    fun hout t ht hrefused hsent => ⟨rfl, ?_⟩⟩
  · rw [List.map_append]
    refine List.nodup_append'.mpr ⟨(hsub.map _).nodup h.registrations, List.nodup_singleton _, fun r hr hnew => ?_⟩
    obtain ⟨t, ht, rfl⟩ := List.mem_map.mp hr
    exact absurd (List.mem_singleton.mp hnew) (h.below t (hsub.subset ht)).ne
  · rcases hmem ht with ht | rfl
    · exact Nat.lt_succ_of_lt (h.below t ht)
    · exact Nat.lt_succ_self _
  · rcases hmem ht with ht | rfl
    · exact h.announced hout t ht hrefused hsent
    · cases hsent
  · rcases hmem ht with ht | rfl
    · exact (h.silent hout t ht hrefused hsent).2
    · exact h.unsaid s.next (le_refl _)

/-- A new connection, on which nothing was said. -/
theorem connected (h : s.Told) {connection : Nat} : Told { s with
    outgoing := true
    hosting := s.hosting.map fun h => { h with announced := false, refused := false }
    connection, control := [], due := true } := by
  refine ⟨?_, fun t ht => ?_, fun _ _ => rfl, fun _ t ht _ hsent => ?_, fun _ _ _ _ _ => ⟨rfl, rfl⟩⟩
  · rw [List.map_map]
    exact h.registrations
  · obtain ⟨x, hx, rfl⟩ := List.mem_map.mp ht
    exact h.below x hx
  · obtain ⟨x, -, rfl⟩ := List.mem_map.mp ht
    cases hsent

/-- What is said to announce a terminal is said of it alone. -/
theorem of_announcement {x : Hosting σ} {m : Control σ} (h : m ∈ announcement x) (r : Nat) :
    m.of r = decide (x.registration = r) := by
  rw [announcement] at h
  split at h
  · cases h
  · rcases List.mem_cons.mp h with rfl | h
    · rfl
    · obtain ⟨status, -, rfl⟩ := Option.map_eq_some_iff.mp (Option.mem_toList.mp h)
      rfl

theorem said_own (x : Hosting σ) : said x.registration (announcement x) = announcement x :=
  List.filter_eq_self.mpr fun _ hm => (of_announcement hm _).trans (decide_eq_true rfl)

theorem said_other {r : Nat} (h : ∀ x ∈ hosting, x.registration ≠ r) : said r (hosting.flatMap announcement) = [] := by
  rw [said, List.filter_flatMap, List.flatMap_eq_nil_iff]
  refine fun x hx => List.filter_eq_nil_iff.mpr fun m hm => ?_
  rw [of_announcement hm, decide_eq_true_eq]
  exact h x hx

/-- What is said to announce the terminals says of each what is said to announce it. -/
theorem said_announcements : ∀ {hosting : List (Hosting σ)}, (hosting.map (·.registration)).Nodup → ∀ {t}, t ∈ hosting →
    said t.registration (hosting.flatMap announcement) = announcement t
  | x :: rest, hnodup, t, ht => by
    rw [List.map_cons, List.nodup_cons] at hnodup
    rw [List.flatMap_cons, said_append]
    rcases List.mem_cons.mp ht with rfl | ht
    · have hrest : ∀ y ∈ rest, y.registration ≠ t.registration := fun y hy hsame => hnodup.1 (hsame ▸ List.mem_map_of_mem hy)
      rw [said_other hrest, List.append_nil, said_own]
    · have hne : x.registration ≠ t.registration := fun hsame => hnodup.1 (hsame ▸ List.mem_map_of_mem ht)
      have hfirst : said t.registration (announcement x) = [] := by
        refine List.filter_eq_nil_iff.mpr fun m hm => ?_
        rw [of_announcement hm, decide_eq_true_eq]
        exact hne
      rw [hfirst, List.nil_append]
      exact said_announcements hnodup.2 ht

theorem registrations_map {f : Hosting σ → Hosting σ} (h : ∀ x, (f x).registration = x.registration) (hosting : List (Hosting σ)) :
    (hosting.map f).map (·.registration) = hosting.map (·.registration) := by
  rw [List.map_map]
  exact List.map_congr_left fun x _ => h x

/-- Every terminal that waited for it is announced. -/
theorem announce (h : s.Told) : Told { s with
    control := s.control ++ s.hosting.flatMap announcement
    hosting := s.hosting.map fun h => { h with announced := true }
    due := false } := by
  refine ⟨?_, fun t ht => ?_, fun r hr => ?_, fun hout t ht hrefused _ => ?_, fun _ t ht _ hsent => ?_⟩
  · rw [List.map_map]
    exact h.registrations
  · obtain ⟨x, hx, rfl⟩ := List.mem_map.mp ht
    exact h.below x hx
  · rw [said_append, h.unsaid r hr, List.nil_append]
    exact said_other fun x hx => ((h.below x hx).trans_le hr).ne
  · obtain ⟨x, hx, rfl⟩ := List.mem_map.mp ht
    rw [Hosting.Announced, said_append, said_announcements h.registrations hx]
    cases hsent : x.announced with
    | true =>
      have htold := h.announced hout x hx hrefused hsent
      rw [announcement, if_pos hsent, List.append_nil]
      exact htold
    | false =>
      rw [(h.silent hout x hx hrefused hsent).2, announcement, if_neg (by simp [hsent]), List.nil_append]
      cases hstatus : x.status with
      | none => exact ⟨[], rfl, rfl⟩
      | some status => exact ⟨[some status], rfl, rfl⟩
  · obtain ⟨x, -, rfl⟩ := List.mem_map.mp ht
    cases hsent

/-- The service refuses a terminal. -/
theorem refused (h : s.Told) (session : Uuid) : Told { s with hosting := s.hosting.map fun h =>
    if h.session = session then { h with announced := false, refused := true } else h } := by
  have hsame : ∀ x : Hosting σ, (if x.session = session then { x with announced := false, refused := true } else x).registration =
      x.registration := by
    intro x
    split <;> rfl
  have hmem : ∀ {t}, t ∈ (s.hosting.map fun h =>
      if h.session = session then { h with announced := false, refused := true } else h) → t.refused = false → t ∈ s.hosting := by
    intro t ht hrefused
    obtain ⟨x, hx, rfl⟩ := List.mem_map.mp ht
    by_cases hthis : x.session = session
    · rw [if_pos hthis] at hrefused
      cases hrefused
    · rw [if_neg hthis]
      exact hx
  refine ⟨?_, fun t ht => ?_, h.unsaid, fun hout t ht hrefused => h.announced hout t (hmem ht hrefused) hrefused,
    fun hout t ht hrefused => h.silent hout t (hmem ht hrefused) hrefused⟩
  · rw [registrations_map hsame]
    exact h.registrations
  · obtain ⟨x, hx, rfl⟩ := List.mem_map.mp ht
    rw [hsame]
    exact h.below x hx

/-- A terminal gets another status, which the service is told when it knows the terminal. -/
theorem share (h : s.Told) {hosting : Hosting σ} (hhosting : hosting ∈ s.hosting) (status : Option σ)
    (hhosted : s'.hosting = s.hosting.map fun x => if x.session = hosting.session ∧ x.registration = hosting.registration then
      { x with status := status } else x) (houtgoing : s'.outgoing = s.outgoing) (hdue : s'.due = s.due)
    (hnext : s'.next = s.next) (hcontrol : s'.control = if s.outgoing ∧ hosting.announced then
      s.control ++ [.status hosting.session hosting.incarnation status hosting.registration] else s.control) :
    s'.Told := by
  have hother : ∀ r, r ≠ hosting.registration → said r s'.control = said r s.control := by
    intro r hne
    rw [hcontrol]
    split
    · rw [said_append]
      simp [said, Control.of, hne.symm]
    · rfl
  have hmem : ∀ {t}, t ∈ s'.hosting → t ∈ s.hosting ∧ t.registration ≠ hosting.registration ∨ t = { hosting with status } := by
    intro t ht
    rw [hhosted] at ht
    obtain ⟨x, hx, rfl⟩ := List.mem_map.mp ht
    by_cases hthis : x.registration = hosting.registration
    · obtain rfl := List.inj_on_of_nodup_map h.registrations hx hhosting hthis
      rw [if_pos ⟨rfl, rfl⟩]
      exact .inr rfl
    · rw [if_neg fun hboth => hthis hboth.2]
      exact .inl ⟨hx, hthis⟩
  refine ⟨?_, fun t ht => ?_, fun r hr => ?_, fun hout t ht hrefused hsent => ?_, fun hout t ht hrefused hsent => ?_⟩
  · rw [hhosted, registrations_map]
    · exact h.registrations
    · intro x
      split <;> rfl
  · rw [hnext]
    rcases hmem ht with ⟨ht, -⟩ | rfl
    · exact h.below t ht
    · exact h.below hosting hhosting
  · rw [hnext] at hr
    rw [hother r ((h.below hosting hhosting).trans_le hr).ne']
    exact h.unsaid r hr
  · rw [houtgoing] at hout
    rcases hmem ht with ⟨ht, hne⟩ | rfl
    · rw [Hosting.Announced, hother _ hne]
      exact h.announced hout t ht hrefused hsent
    · obtain ⟨statuses, hsaid, -⟩ := h.announced hout hosting hhosting hrefused hsent
      refine ⟨statuses ++ [status], ?_, by simp⟩
      simp only
      rw [hcontrol, if_pos ⟨hout, hsent⟩, said_append, hsaid]
      simp [said, Control.of]
  · rw [houtgoing] at hout
    rw [hdue]
    rcases hmem ht with ⟨ht, hne⟩ | rfl
    · rw [hother _ hne]
      exact h.silent hout t ht hrefused hsent
    · have hsilent := h.silent hout hosting hhosting hrefused hsent
      refine ⟨hsilent.1, ?_⟩
      rw [hcontrol, if_neg]
      · exact hsilent.2
      · rintro ⟨-, hannounced⟩
        rw [hannounced] at hsent
        cases hsent

/-- The connection ends. -/
theorem offline (h : s.Told) (hhosting : s'.hosting = s.hosting) (houtgoing : s'.outgoing = false)
    (hnext : s'.next = s.next) (hcontrol : s'.control = s.control) : s'.Told := by
  refine ⟨?_, ?_, ?_, fun hout => ?_, fun hout => ?_⟩
  · rw [hhosting]
    exact h.registrations
  · rw [hhosting, hnext]
    exact h.below
  · rw [hcontrol, hnext]
    exact h.unsaid
  · rw [houtgoing] at hout
    cases hout
  · rw [houtgoing] at hout
    cases hout

end Told

end Link

end Kodosi.Connections.DeviceLink
