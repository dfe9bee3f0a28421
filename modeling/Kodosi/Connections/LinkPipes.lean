import Kodosi.Connections.Link

/-! The routes of the link: each belongs to one living pipe of the present connection, and a pipe whose route went hears
    one close. -/

namespace Kodosi.Connections.DeviceLink

/-- Everything that a pipe hears. -/
def Pipe.heard (p : Pipe) : List Incoming := p.received ++ p.incoming

/-- A pipe that nobody closed. -/
def Pipe.Open (p : Pipe) : Prop := ∀ x ∈ p.heard, x.isClosed = false

/-- A pipe that hears at most one close, and nothing after it. When its channel has no sender any more, its end is a
    close by itself. -/
def Pipe.Once (p : Pipe) : Prop :=
  ∃ before, (∀ x ∈ before, Incoming.isClosed x = false) ∧ (p.heard = before ∨ ∃ e, p.heard = before ++ [.closed e])

theorem Pipe.Open.once {p : Pipe} (h : p.Open) : p.Once := ⟨p.heard, h, .inl rfl⟩

theorem Pipe.heard_receive (p : Pipe) : p.receive.heard = p.heard := by
  rw [Pipe.receive.eq_def]
  cases hincoming : p.incoming with
  | nil => rfl
  | cons next rest => simp [Pipe.heard, hincoming]

theorem Pipe.receive_same (p : Pipe) :
    p.receive.number = p.number ∧ p.receive.id = p.id ∧ p.receive.connection = p.connection := by
  rw [Pipe.receive.eq_def]
  cases p.incoming with
  | nil => exact ⟨rfl, rfl, rfl⟩
  | cons next rest => exact ⟨rfl, rfl, rfl⟩

namespace Link

variable {σ ν : Type} {s : Link σ} {id : Uuid}

theorem routeOf_id {route : Route} (h : s.routeOf id = some route) : route.id = id := by
  have hfound := List.find?_some h
  exact of_decide_eq_true hfound

/-- The routes and the pipes fit. -/
structure Pipes (s : Link σ) : Prop where
  numbers : (s.pipes.map (·.number)).Nodup
  below : ∀ p ∈ s.pipes, p.number < s.next
  ids : (s.routes.map (·.id)).Nodup
  owned : ∀ r ∈ s.routes, s.outgoing = true ∧ ∃ p ∈ s.pipes, p.number = r.pipe ∧ p.id = r.id ∧ p.connection = s.connection
  opened : ∀ r ∈ s.routes, ∀ p ∈ s.pipes, p.number = r.pipe → p.Open
  once : ∀ p ∈ s.pipes, p.Once
  told : ∀ n, s.closes.count n ≤ 1
  untold : ∀ r ∈ s.routes, r.pipe ∉ s.closes
  past : ∀ n ∈ s.closes, n < s.next

namespace Pipes

theorem new : (new : Link σ).Pipes where
  numbers := List.nodup_nil
  below := fun _ hp => absurd hp List.not_mem_nil
  ids := List.nodup_nil
  owned := fun _ hr => absurd hr List.not_mem_nil
  opened := fun _ hr => absurd hr List.not_mem_nil
  once := fun _ hp => absurd hp List.not_mem_nil
  told := fun _ => Nat.zero_le _
  untold := fun _ hr => absurd hr List.not_mem_nil
  past := fun _ hn => absurd hn List.not_mem_nil

/-- What does not touch routes and pipes. -/
theorem keep (h : s.Pipes) {s' : Link σ} (hpipes : s'.pipes = s.pipes) (hroutes : s'.routes = s.routes)
    (houtgoing : s'.outgoing = s.outgoing) (hconnection : s'.connection = s.connection) (hcloses : s'.closes = s.closes)
    (hnext : s.next ≤ s'.next) : s'.Pipes := by
  obtain ⟨hnumbers, hbelow, hids, howned, hopened, honce, htold, huntold, hpast⟩ := h
  refine ⟨?_, ?_, ?_, ?_, ?_, ?_, ?_, ?_, ?_⟩
  · rwa [hpipes]
  · rw [hpipes]
    exact fun p hp => (hbelow p hp).trans_le hnext
  · rwa [hroutes]
  · rwa [hroutes, houtgoing, hpipes, hconnection]
  · rwa [hroutes, hpipes]
  · rwa [hpipes]
  · rwa [hcloses]
  · rwa [hroutes, hcloses]
  · rw [hcloses]
    exact fun n hn => (hpast n hn).trans_le hnext

/-- Two pipes of one number are one. -/
theorem same (h : s.Pipes) {p q : Pipe} (hp : p ∈ s.pipes) (hq : q ∈ s.pipes) (hnumber : p.number = q.number) : p = q :=
  List.inj_on_of_nodup_map h.numbers hp hq hnumber

/-- Two routes to one pipe have its id. -/
theorem same_id (h : s.Pipes) {r r' : Route} (hr : r ∈ s.routes) (hr' : r' ∈ s.routes) (hpipe : r.pipe = r'.pipe) :
    r.id = r'.id := by
  obtain ⟨-, p, hp, hnumber, hid, -⟩ := h.owned r hr
  obtain ⟨-, p', hp', hnumber', hid', -⟩ := h.owned r' hr'
  obtain rfl := h.same hp hp' (by rw [hnumber, hnumber', hpipe])
  rw [← hid, hid']

/-- Pipes change in what they hear, and routes may go. -/
theorem update (h : s.Pipes) {f : Pipe → Pipe} {routes : List Route} (hsub : routes.Sublist s.routes)
    (hsame : ∀ p, (f p).number = p.number ∧ (f p).id = p.id ∧ (f p).connection = p.connection)
    (hopened : ∀ r ∈ routes, ∀ p ∈ s.pipes, p.number = r.pipe → (f p).Open)
    (honce : ∀ p ∈ s.pipes, (f p).Once) : Pipes { s with pipes := s.pipes.map f, routes } := by
  have hmem : ∀ {q}, q ∈ s.pipes.map f → ∃ p ∈ s.pipes, f p = q := fun hq => List.mem_map.mp hq
  refine ⟨?_, fun q hq => ?_, (hsub.map _).nodup h.ids, fun r hr => ?_, fun r hr q hq hnumber => ?_, fun q hq => ?_, h.told,
    fun r hr => h.untold r (hsub.subset hr), h.past⟩
  · rw [List.map_map]
    have hcongr : (s.pipes.map ((·.number) ∘ f)) = s.pipes.map (·.number) :=
      List.map_congr_left fun p _ => (hsame p).1
    rw [hcongr]
    exact h.numbers
  · obtain ⟨p, hp, rfl⟩ := hmem hq
    rw [(hsame p).1]
    exact h.below p hp
  · obtain ⟨houtgoing, p, hp, hnumber, hid, hconnection⟩ := h.owned r (hsub.subset hr)
    obtain ⟨hnumber', hid', hconnection'⟩ := hsame p
    exact ⟨houtgoing, f p, List.mem_map_of_mem hp, hnumber'.trans hnumber, hid'.trans hid, hconnection'.trans hconnection⟩
  · obtain ⟨p, hp, rfl⟩ := hmem hq
    rw [(hsame p).1] at hnumber
    exact hopened r hr p hp hnumber
  · obtain ⟨p, hp, rfl⟩ := hmem hq
    exact honce p hp

/-! ### A pipe more, a route less -/

theorem route (h : s.Pipes) (houtgoing : s.outgoing = true) : (s.route id).1.Pipes := by
  have hold : ∀ {r}, r ∈ s.routes → r.pipe < s.next := by
    intro r hr
    obtain ⟨-, p, hp, hnumber, -⟩ := h.owned r hr
    rw [← hnumber]
    exact h.below p hp
  have hmem : ∀ {r}, r ∈ (s.route id).1.routes → (r ∈ s.routes ∧ r.id ≠ id) ∨ r = ⟨id, s.next⟩ := by
    intro r hr
    rcases List.mem_append.mp hr with hr | hr
    · obtain ⟨hr, hne⟩ := List.mem_filter.mp hr
      exact .inl ⟨hr, of_decide_eq_true hne⟩
    · exact .inr (List.mem_singleton.mp hr)
  have hpipe : ∀ {p}, p ∈ (s.route id).1.pipes → p ∈ s.pipes ∨ p = ⟨s.next, id, [], 0, s.connection, []⟩ := by
    intro p hp
    rcases List.mem_append.mp hp with hp | hp
    · exact .inl hp
    · exact .inr (List.mem_singleton.mp hp)
  have hsilent : Pipe.Open ⟨s.next, id, [], 0, s.connection, []⟩ := fun x hx => absurd hx List.not_mem_nil
  refine ⟨?_, fun p hp => ?_, ?_, fun r hr => ⟨houtgoing, ?_⟩, fun r hr p hp hnumber => ?_, fun p hp => ?_, h.told,
    fun r hr hclosed => ?_, fun n hn => Nat.lt_succ_of_lt (h.past n hn)⟩
  · simp only [Link.route, List.map_append, List.map_cons, List.map_nil]
    refine List.nodup_append'.mpr ⟨h.numbers, List.nodup_singleton _, fun n hn hnext => ?_⟩
    obtain ⟨p, hp, rfl⟩ := List.mem_map.mp hn
    exact absurd (List.mem_singleton.mp hnext) (h.below p hp).ne
  · rcases hpipe hp with hp | rfl
    · exact Nat.lt_succ_of_lt (h.below p hp)
    · exact Nat.lt_succ_self _
  · simp only [Link.route, List.map_append, List.map_cons, List.map_nil]
    refine List.nodup_append'.mpr ⟨(List.filter_sublist.map _).nodup h.ids, List.nodup_singleton _, fun i hi hid => ?_⟩
    obtain ⟨r, hr, rfl⟩ := List.mem_map.mp hi
    exact absurd (List.mem_singleton.mp hid) (of_decide_eq_true (List.mem_filter.mp hr).2)
  · rcases hmem hr with ⟨hr, -⟩ | rfl
    · obtain ⟨-, p, hp, hfits⟩ := h.owned r hr
      exact ⟨p, List.mem_append_left _ hp, hfits⟩
    · exact ⟨_, List.mem_append_right _ (List.mem_singleton_self _), rfl, rfl, rfl⟩
  · rcases hpipe hp with hp | rfl
    · rcases hmem hr with ⟨hr, -⟩ | rfl
      · exact h.opened r hr p hp hnumber
      · exact absurd hnumber (h.below p hp).ne
    · exact hsilent
  · rcases hpipe hp with hp | rfl
    · exact h.once p hp
    · exact hsilent.once
  · rcases hmem hr with ⟨hr, -⟩ | rfl
    · exact h.untold r hr hclosed
    · exact absurd rfl (h.past s.next hclosed).ne

theorem closeRoute (h : s.Pipes) (id : Uuid) : (s.closeRoute id).Pipes := by
  have hsub : (s.routes.filter (·.id ≠ id)).Sublist s.routes := List.filter_sublist
  have hpipes := h.update (f := fun p => p) hsub (fun p => ⟨rfl, rfl, rfl⟩)
    (fun r hr p hp hnumber => h.opened r (hsub.subset hr) p hp hnumber) h.once
  rw [List.map_id'] at hpipes
  cases hroute : s.routeOf id with
  | none =>
    refine hpipes.keep rfl rfl rfl rfl ?_ (le_refl _)
    simp [Link.closeRoute, hroute]
  | some route =>
    have hin : route ∈ s.routes := List.mem_of_find?_eq_some hroute
    have hid : route.id = id := routeOf_id hroute
    have hcloses : (s.closeRoute id).closes = s.closes ++ [route.pipe] := by
      simp [Link.closeRoute, hroute]
    refine ⟨hpipes.numbers, hpipes.below, hpipes.ids, hpipes.owned, hpipes.opened, hpipes.once, fun n => ?_,
      fun r hr hclosed => ?_, fun n hn => ?_⟩
    · rw [hcloses, List.count_append, List.count_singleton]
      by_cases hn : route.pipe = n
      · have hzero := List.count_eq_zero.mpr (hn ▸ h.untold route hin)
        rw [hzero]
        split <;> omega
      · have htold := h.told n
        rw [if_neg (by simpa using hn)]
        exact htold
    · obtain ⟨hr, hne⟩ := List.mem_filter.mp hr
      rw [hcloses] at hclosed
      rcases List.mem_append.mp hclosed with hclosed | hclosed
      · exact h.untold r hr hclosed
      · have hsame := h.same_id hr hin (List.mem_singleton.mp hclosed)
        exact absurd (hsame.trans hid) (of_decide_eq_true hne)
    · rw [hcloses] at hn
      rcases List.mem_append.mp hn with hn | hn
      · exact h.past n hn
      · obtain ⟨-, p, hp, hnumber, -⟩ := h.owned route hin
        rw [List.mem_singleton.mp hn, ← hnumber]
        exact h.below p hp

/-- A pipe goes that has no route. -/
theorem dropped (h : s.Pipes) {pipe : Pipe} (hpipe : pipe ∈ s.pipes) (hroute : ∀ r ∈ s.routes, r.id ≠ pipe.id) :
    Pipes { s with pipes := s.pipes.filter (·.number ≠ pipe.number) } := by
  have hsub : (s.pipes.filter (·.number ≠ pipe.number)).Sublist s.pipes := List.filter_sublist
  refine ⟨(hsub.map _).nodup h.numbers, fun p hp => h.below p (hsub.subset hp), h.ids, fun r hr => ?_,
    fun r hr p hp => h.opened r hr p (hsub.subset hp), fun p hp => h.once p (hsub.subset hp), h.told, h.untold, h.past⟩
  obtain ⟨houtgoing, p, hp, hnumber, hid, hconnection⟩ := h.owned r hr
  refine ⟨houtgoing, p, List.mem_filter.mpr ⟨hp, decide_eq_true fun hsame => ?_⟩, hnumber, hid, hconnection⟩
  obtain rfl := h.same hp hpipe hsame
  exact hroute r hr hid.symm

/-- Data comes in for a pipe with a route. -/
theorem putData (h : s.Pipes) {route : Route} (hroute : route ∈ s.routes) (payload : Bytes) :
    (s.put route.pipe (.data payload)).Pipes := by
  have hopened : ∀ r ∈ s.routes, ∀ p ∈ s.pipes, p.number = r.pipe → Pipe.Open (if p.number = route.pipe then
      { p with incoming := p.incoming ++ [.data payload], waiting := p.waiting + Incoming.length (.data payload) } else p) := by
    intro r hr p hp hnumber
    have hopen := h.opened r hr p hp hnumber
    by_cases hthis : p.number = route.pipe
    · rw [if_pos hthis]
      intro x hx
      rw [Pipe.heard, ← List.append_assoc] at hx
      rcases List.mem_append.mp hx with hx | hx
      · exact hopen x hx
      · rw [List.mem_singleton.mp hx]
        rfl
    · rw [if_neg hthis]
      exact hopen
  refine h.update (List.Sublist.refl _) (fun p => ?_) hopened fun p hp => ?_
  · split <;> exact ⟨rfl, rfl, rfl⟩
  · by_cases hthis : p.number = route.pipe
    · exact (hopened route hroute p hp hthis).once
    · rw [if_neg hthis]
      exact h.once p hp

theorem closed_once {p : Pipe} (h : p.Open) (e : Option Error) (waiting : Nat) :
    Pipe.Once { p with incoming := p.incoming ++ [.closed e], waiting := waiting } :=
  ⟨p.heard, h, .inr ⟨e, (List.append_assoc _ _ _).symm⟩⟩

/-- The service closes a pipe. -/
theorem putClosed (h : s.Pipes) {route : Route} (hroute : route ∈ s.routes) (e : Option Error) :
    Pipes { s.put route.pipe (.closed e) with routes := s.routes.filter (·.id ≠ route.id) } := by
  have hsub : (s.routes.filter (·.id ≠ route.id)).Sublist s.routes := List.filter_sublist
  refine h.update hsub (fun p => ?_) (fun r hr p hp hnumber => ?_) fun p hp => ?_
  · split <;> exact ⟨rfl, rfl, rfl⟩
  · have hother : p.number ≠ route.pipe := by
      intro hthis
      have hid := h.same_id (hsub.subset hr) hroute (hnumber.symm.trans hthis)
      exact of_decide_eq_true (List.mem_filter.mp hr).2 hid
    rw [if_neg hother]
    exact h.opened r (hsub.subset hr) p hp hnumber
  · by_cases hthis : p.number = route.pipe
    · rw [if_pos hthis]
      exact closed_once (h.opened route hroute p hp hthis) e _
    · rw [if_neg hthis]
      exact h.once p hp

/-- Every pipe with a route hears that the connection ended. -/
theorem ended (h : s.Pipes) : Pipes { s with
    pipes := s.pipes.map fun p => if ⟨p.id, p.number⟩ ∈ s.routes then { p with incoming := p.incoming ++ [.closed none] } else p
    routes := [] } := by
  refine h.update (List.nil_sublist _) (fun p => ?_) (fun r hr => absurd hr List.not_mem_nil) fun p hp => ?_
  · split <;> exact ⟨rfl, rfl, rfl⟩
  · by_cases hrouted : ⟨p.id, p.number⟩ ∈ s.routes
    · rw [if_pos hrouted]
      exact closed_once (h.opened _ hrouted p hp rfl) none p.waiting
    · rw [if_neg hrouted]
      exact h.once p hp

theorem received (h : s.Pipes) (pipe : Nat) :
    Pipes { s with pipes := s.pipes.map fun p => if p.number = pipe then p.receive else p } := by
  have hheard : ∀ p : Pipe, (if p.number = pipe then p.receive else p).heard = p.heard := by
    intro p
    by_cases hthis : p.number = pipe
    · rw [if_pos hthis]
      exact p.heard_receive
    · rw [if_neg hthis]
  refine h.update (List.Sublist.refl _) (fun p => ?_) (fun r hr p hp hnumber => ?_) fun p hp => ?_
  · by_cases hthis : p.number = pipe
    · rw [if_pos hthis]
      exact p.receive_same
    · rw [if_neg hthis]
      exact ⟨rfl, rfl, rfl⟩
  · rw [Pipe.Open, hheard]
    exact h.opened r hr p hp hnumber
  · rw [Pipe.Once, hheard]
    exact h.once p hp

/-- Without routes, the connection may come or go. -/
theorem unrouted (h : s.Pipes) {s' : Link σ} (hpipes : s'.pipes = s.pipes)
    (hroutes' : s'.routes = []) (hcloses : s'.closes = s.closes) (hnext : s'.next = s.next) : s'.Pipes := by
  refine ⟨?_, ?_, ?_, ?_, ?_, ?_, ?_, ?_, ?_⟩
  · rw [hpipes]
    exact h.numbers
  · rw [hpipes, hnext]
    exact h.below
  · rw [hroutes']
    exact List.nodup_nil
  · rw [hroutes']
    exact fun _ hr => absurd hr List.not_mem_nil
  · rw [hroutes']
    exact fun _ hr => absurd hr List.not_mem_nil
  · rw [hpipes]
    exact h.once
  · rw [hcloses]
    exact h.told
  · rw [hroutes']
    exact fun _ hr => absurd hr List.not_mem_nil
  · rw [hcloses, hnext]
    exact h.past

end Pipes

end Link

end Kodosi.Connections.DeviceLink
