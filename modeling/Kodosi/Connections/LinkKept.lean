import Kodosi.Connections.LinkPipes
import Kodosi.Connections.LinkTold

/-! Every run of the link, as long as what the service says of a viewer names its person and its device: nobody takes the
    lock that he holds, the routes and the pipes fit, and the service knows the terminals. -/

namespace Kodosi.Connections.DeviceLink

/-- What the service says of a viewer names who it is. -/
def Whole (parse : String → Option Uuid) (value : Value) : Prop :=
  text value "type" = .ok "viewer" → ∀ pipe session, id parse value "pipe" = .ok pipe → id parse value "sessionId" = .ok session →
    ∃ user device, text value "userId" = .ok user ∧ text value "deviceId" = .ok device

def Event.Whole {σ : Type} (parse : String → Option Uuid) : Event σ → Prop
  | .message value => DeviceLink.Whole parse value
  | _ => True

namespace Link

variable {σ ν : Type} {parse : String → Option Uuid} {s s' : Link σ}

/-- What holds between two operations. -/
structure Valid (s : Link σ) : Prop where
  free : s.locked = false
  pipes : s.Pipes
  told : s.Told

theorem lock_free (h : s.locked = false) : s.lock = some { s with locked := true } := by
  rw [lock, h]
  rfl

theorem lock_held (h : s.locked = true) : s.lock = none := by
  rw [lock, if_pos h]

/-! ### Steps -/

/-- What an operation does under the lock, from a state that fits to one that fits. -/
structure Fits (s : Link σ) : Prop where
  pipes : s.Pipes
  told : s.Told

theorem Fits.valid (h : s.Fits) : s.unlock.Valid :=
  ⟨rfl, h.pipes.keep rfl rfl rfl rfl rfl (le_refl _), h.told.keep rfl rfl rfl (le_refl _) fun _ => rfl⟩

theorem Valid.fits (h : s.Valid) : Fits { s with locked := true } :=
  ⟨h.pipes.keep rfl rfl rfl rfl rfl (le_refl _), h.told.keep rfl rfl rfl (le_refl _) fun _ => rfl⟩

theorem Fits.send (h : s.Fits) (message : Control σ) (hof : ∀ r, message.of r = false) : (s.send message).Fits :=
  ⟨h.pipes.keep rfl rfl rfl rfl rfl (le_refl _), h.told.send hof⟩

theorem Fits.route (h : s.Fits) (houtgoing : s.outgoing = true) (id : Uuid) : (s.route id).1.Fits :=
  ⟨h.pipes.route houtgoing, h.told.keep rfl rfl rfl (Nat.le_succ _) fun _ => rfl⟩

theorem Fits.closeRoute (h : s.Fits) (id : Uuid) : (s.closeRoute id).Fits :=
  ⟨h.pipes.closeRoute id, h.told.keep rfl rfl rfl (le_refl _) fun _ => rfl⟩

theorem Fits.refuse (h : s.Fits) (id : Uuid) : (s.refuse id).Fits := (h.closeRoute id).send _ fun _ => rfl

/-- Whatever stands in the channels of those who host and of those who are called. -/
theorem Fits.channels (h : s.Fits) (hosted : List Hosted) (calls : List Calls) : Fits { s with hosted, calls } :=
  ⟨h.pipes.keep rfl rfl rfl rfl rfl (le_refl _), h.told.keep rfl rfl rfl (le_refl _) fun _ => rfl⟩

theorem Fits.tryEvent (h : s.Fits) {registration : Nat} {event : HostEvent} (hs : s.tryEvent registration event = some s') :
    s'.Fits := by
  rw [Link.tryEvent.eq_def] at hs
  split at hs
  · split at hs
    · obtain rfl := Option.some.inj hs
      exact h.channels _ _
    · cases hs
  · cases hs

theorem Fits.tryCall (h : s.Fits) {caller : Caller} (hs : s.tryCall caller = some s') : s'.Fits := by
  rw [Link.tryCall.eq_def] at hs
  split at hs
  · split at hs
    · obtain rfl := Option.some.inj hs
      exact h.channels _ _
    · cases hs
  · cases hs

theorem Valid.dropPipe (h : s.Valid) {pipe : Pipe} (hpipe : pipe ∈ s.pipes) : ∃ s', s.dropPipe pipe = some s' ∧ s'.Valid := by
  rw [Link.dropPipe, lock_free h.free]
  have hclosed := h.fits.closeRoute pipe.id
  refine ⟨_, rfl, Fits.valid ⟨hclosed.pipes.dropped hpipe fun r hr => ?_, ?_⟩⟩
  · exact of_decide_eq_true (List.mem_filter.mp hr).2
  · exact hclosed.told.keep rfl rfl rfl (le_refl _) fun _ => rfl

theorem Valid.request (h : s.Valid) {message : Uuid → Control σ} (hof : ∀ id r, (message id).of r = false) (id : Uuid) :
    ∃ s', (s.request message id).map Prod.fst = some s' ∧ s'.Valid := by
  rw [Link.request, lock_free h.free]
  by_cases houtgoing : s.outgoing = true
  · refine ⟨_, by simp only [Option.bind_eq_bind, Option.bind_some, if_pos houtgoing]; rfl, ?_⟩
    have hsent := (h.fits.route houtgoing id).send _ (hof id)
    exact ⟨rfl, hsent.pipes.keep rfl rfl rfl rfl rfl (le_refl _), hsent.told.keep rfl rfl rfl (le_refl _) fun _ => rfl⟩
  · refine ⟨_, by simp only [Option.bind_eq_bind, Option.bind_some, if_neg houtgoing]; rfl, h.fits.valid⟩

theorem Valid.host (h : s.Valid) (session incarnation : Uuid) : ∃ s', s.host session incarnation = some s' ∧ s'.Valid := by
  rw [Link.host, lock_free h.free]
  refine ⟨_, rfl, Fits.valid ⟨?_, h.fits.told.host List.filter_sublist⟩⟩
  exact h.pipes.keep rfl rfl rfl rfl rfl (Nat.le_succ _)

theorem Valid.share (h : s.Valid) (hosted : Hosted) (status : Option σ) : ∃ s', s.share hosted status = some s' ∧ s'.Valid := by
  unfold Link.share
  rw [lock_free h.free]
  simp only [Option.bind_eq_bind, Option.bind_some]
  cases hfind : s.hosting.find? fun x => x.session = hosted.session ∧ x.registration = hosted.registration with
  | none => exact ⟨_, rfl, h.fits.valid⟩
  | some hosting =>
    have hin := List.mem_of_find?_eq_some hfind
    have hfound := List.find?_some hfind
    obtain ⟨hsession, hregistration⟩ := of_decide_eq_true hfound
    refine ⟨_, rfl, Fits.valid ⟨?_, ?_⟩⟩
    · refine h.pipes.keep ?_ ?_ ?_ ?_ ?_ ?_ <;> simp only <;> split <;> rfl
    · refine h.told.share hin status ?_ ?_ ?_ ?_ ?_
      · rw [hsession, hregistration]
        simp only
        split <;> rfl
      · simp only
        split <;> rfl
      · simp only
        split <;> rfl
      · simp only
        split <;> rfl
      · rw [hsession]
        simp only
        split <;> rfl

theorem Valid.dropHosted (h : s.Valid) (hosted : Hosted) : ∃ s', s.dropHosted hosted = some s' ∧ s'.Valid := by
  unfold Link.dropHosted
  rw [lock_free h.free]
  simp only [Option.bind_eq_bind, Option.bind_some]
  refine ⟨_, rfl, Fits.valid ?_⟩
  have hfewer : Fits { s with locked := true, hosting := s.hosting.filter (·.session ≠ hosted.session) } :=
    ⟨h.pipes.keep rfl rfl rfl rfl rfl (le_refl _), h.fits.told.fewer List.filter_sublist⟩
  split
  · split
    · exact (hfewer.send (.unhost hosted.session) fun _ => rfl).channels _ s.calls
    · exact hfewer.channels _ s.calls
  · exact h.fits.channels _ s.calls

theorem Valid.takeCalls (h : s.Valid) (capacity : Nat) : ∃ s', s.takeCalls capacity = some s' ∧ s'.Valid := by
  rw [Link.takeCalls, lock_free h.free]
  refine ⟨_, rfl, Fits.valid ⟨?_, ?_⟩⟩
  · exact h.pipes.keep rfl rfl rfl rfl rfl (Nat.le_succ _)
  · exact h.told.keep rfl rfl rfl (Nat.le_succ _) fun _ => rfl

theorem Valid.connected (h : s.Valid) (hout : s.outgoing ≠ true) : ∃ s', s.connected = some s' ∧ s'.Valid := by
  have hroutes : s.routes = [] := by
    cases hroutes : s.routes with
    | nil => rfl
    | cons r rest => exact absurd (h.pipes.owned r (hroutes ▸ List.mem_cons_self)).1 hout
  rw [Link.connected, lock_free h.free]
  exact ⟨_, rfl, Fits.valid ⟨h.pipes.unrouted rfl hroutes rfl rfl, h.fits.told.connected⟩⟩

theorem Valid.disconnected (h : s.Valid) : ∃ s', s.disconnected = some s' ∧ s'.Valid := by
  rw [Link.disconnected, lock_free h.free]
  exact ⟨_, rfl, Fits.valid ⟨h.pipes.ended.unrouted rfl rfl rfl rfl, h.told.offline rfl rfl rfl rfl⟩⟩

theorem Valid.announce (h : s.Valid) : ∃ s', s.announce = some s' ∧ s'.Valid := by
  unfold Link.announce
  rw [lock_free h.free]
  simp only [Option.bind_eq_bind, Option.bind_some]
  by_cases hout : s.outgoing = true
  · rw [if_pos hout]
    exact ⟨_, rfl, Fits.valid ⟨h.pipes.keep rfl rfl rfl rfl rfl (le_refl _), h.fits.told.announce⟩⟩
  · rw [if_neg hout]
    refine ⟨_, rfl, Fits.valid ⟨h.pipes.keep rfl rfl rfl rfl rfl (le_refl _), ?_⟩⟩
    exact h.told.offline rfl (Bool.eq_false_iff.mpr hout) rfl rfl

theorem Valid.frame (h : s.Valid) (bytes : Bytes) : ∃ s', s.frame bytes = some s' ∧ s'.Valid := by
  unfold Link.frame
  by_cases hshort : bytes.length < PIPE_ID
  · rw [if_pos hshort]
    exact ⟨s, rfl, h⟩
  · rw [if_neg hshort, lock_free h.free]
    simp only [Option.bind_eq_bind, Option.bind_some]
    have hclosed : Fits (({ s with locked := true }.closeRoute (idOf (bytes.take PIPE_ID))).send
        (.close (idOf (bytes.take PIPE_ID)))) := h.fits.refuse _
    split
    · exact ⟨_, rfl, h.fits.valid⟩
    · rename_i route hroute
      have hin : route ∈ s.routes := List.mem_of_find?_eq_some hroute
      split
      · split
        · refine ⟨_, rfl, Fits.valid ⟨h.fits.pipes.putData hin _, ?_⟩⟩
          exact h.told.keep rfl rfl rfl (le_refl _) fun _ => rfl
        · exact ⟨_, rfl, hclosed.valid⟩
      · exact ⟨_, rfl, hclosed.valid⟩

/-! ### Messages -/

theorem Kind.read_viewer {type : String} : Kind.read type = some .viewer ↔ type = "viewer" := by
  constructor
  · intro h
    obtain ⟨before, after, hlist, -⟩ := List.lookup_eq_some_iff.mp h
    have hmem : (type, Kind.viewer) ∈ before ++ (type, Kind.viewer) :: after :=
      List.mem_append_right _ List.mem_cons_self
    rw [← hlist] at hmem
    simpa using hmem
  · rintro rfl
    rfl

theorem Fits.caller (h : s.Fits) (hout : s.outgoing = true) (value : Value) :
    ∃ s' result, s.caller (ν := ν) parse value = some (s', result) ∧ s'.Fits := by
  unfold Link.caller
  split
  · exact ⟨s, _, rfl, h⟩
  · exact ⟨s, _, rfl, h⟩
  · exact ⟨s, _, rfl, h⟩
  · rename_i id _ _ _ _ _
    have hrouted := h.route hout id
    simp only
    split
    · rename_i s' htaken
      exact ⟨s', _, rfl, hrouted.tryCall htaken⟩
    · exact ⟨_, _, rfl, hrouted.refuse id⟩

variable {value : Value}

/-- A viewer who is named is taken or refused. -/
theorem Fits.viewer (h : s.Fits) (hout : s.outgoing = true) (hwhole : Whole parse value)
    (htype : text value "type" = .ok "viewer") :
    ∃ s' result, s.viewer (ν := ν) parse value = some (s', result) ∧ s'.Fits := by
  unfold Link.viewer
  cases hpipe : id parse value "pipe" with
  | error e => exact ⟨s, _, rfl, h⟩
  | ok pipe =>
    cases hsession : id parse value "sessionId" with
    | error e => exact ⟨s, _, rfl, h⟩
    | ok session =>
      obtain ⟨user, device, huser, hdevice⟩ := hwhole htype pipe session hpipe hsession
      have hrouted := h.route hout pipe
      simp only [huser, hdevice]
      split
      · rename_i s' htaken
        obtain ⟨hosting, -, htaken⟩ := Option.bind_eq_some_iff.mp htaken
        exact ⟨s', _, rfl, hrouted.tryEvent htaken⟩
      · exact ⟨_, _, rfl, hrouted.refuse pipe⟩

/-- A viewer who is not named takes the lock that is held. -/
theorem viewer_held (hlocked : s.locked = true) (hwhole : ¬Whole parse value) :
    s.viewer (ν := ν) parse value = none := by
  rw [Whole] at hwhole
  push Not at hwhole
  obtain ⟨-, pipe, session, hpipe, hsession, hunnamed⟩ := hwhole
  have hheld : ∀ p, (s.route pipe).1.dropPipe p = none := by
    intro p
    rw [dropPipe, lock_held]
    · rfl
    · exact hlocked
  unfold Link.viewer
  rw [hpipe, hsession]
  simp only
  cases huser : text value "userId" with
  | error e =>
    simp only [hheld]
    rfl
  | ok user =>
    cases hdevice : text value "deviceId" with
    | error e =>
      simp only [hheld]
      rfl
    | ok device => exact absurd hdevice (hunnamed user device huser)

theorem Fits.handle (notice : Kind → Value → Except Error ν) (h : s.Fits) (hout : s.outgoing = true)
    (hwhole : Whole parse value) :
    ∃ s' result, s.handle parse notice value = some (s', result) ∧ s'.Fits := by
  have events : ∀ {s : Link σ} {registration event}, s.Fits → ((s.tryEvent registration event).getD s).Fits := by
    intro s registration event hs
    cases htaken : s.tryEvent registration event with
    | none => exact hs
    | some s' => exact hs.tryEvent htaken
  unfold Link.handle
  cases htype : text value "type" with
  | error e => exact ⟨s, _, rfl, h⟩
  | ok type =>
    simp only
    cases hkind : Kind.read type with
    | none => exact ⟨s, _, rfl, h⟩
    | some kind =>
      cases kind with
      | ping => exact ⟨_, _, rfl, h.send _ fun _ => rfl⟩
      | pong => exact ⟨s, _, rfl, h⟩
      | hosted => exact ⟨s, _, rfl, h⟩
      | changed => exact ⟨s, _, rfl, h⟩
      | terminal => exact ⟨s, _, rfl, h⟩
      | hosts => exact ⟨s, _, rfl, h⟩
      | unhosted =>
        simp only
        split
        · exact ⟨s, _, rfl, h⟩
        · rename_i session _
          split
          · exact ⟨s, _, rfl, h⟩
          · refine ⟨_, _, rfl, events ⟨?_, h.told.refused session⟩⟩
            exact h.pipes.keep rfl rfl rfl rfl rfl (le_refl _)
      | accessChanged =>
        simp only
        split
        · exact ⟨s, _, rfl, h⟩
        · split
          · exact ⟨s, _, rfl, h⟩
          · exact ⟨_, _, rfl, events h⟩
      | viewer =>
        refine h.viewer hout hwhole ?_
        rw [htype, Kind.read_viewer.mp hkind]
      | caller => exact h.caller hout value
      | closed =>
        simp only
        split
        · exact ⟨s, _, rfl, h⟩
        · split
          · exact ⟨s, _, rfl, h⟩
          · rename_i hroute
            have hin := List.mem_of_find?_eq_some hroute
            refine ⟨_, _, rfl, ?_, ?_⟩
            · rw [← routeOf_id hroute]
              exact h.pipes.putClosed hin _
            · exact h.told.keep rfl rfl rfl (le_refl _) fun _ => rfl

theorem Valid.message (notice : Kind → Value → Except Error ν) (h : s.Valid)
    (hwhole : s.outgoing = true → Whole parse value) :
    ∃ s', (s.message parse notice value).map Prod.fst = some s' ∧ s'.Valid := by
  unfold Link.message
  rw [lock_free h.free]
  simp only [Option.bind_eq_bind, Option.bind_some]
  by_cases hout : s.outgoing = true
  · rw [if_pos hout]
    obtain ⟨s', result, hhandled, hfits⟩ := h.fits.handle notice hout (hwhole hout)
    rw [hhandled]
    exact ⟨s'.unlock, rfl, hfits.valid⟩
  · rw [if_neg hout]
    exact ⟨_, rfl, h.fits.valid⟩

theorem message_held {notice : Kind → Value → Except Error ν} (h : s.Valid) (hout : s.outgoing = true)
    (hwhole : ¬Whole parse value) :
    (s.message parse notice value).map Prod.fst = none := by
  have htype : text value "type" = .ok "viewer" := by
    rw [Whole] at hwhole
    push Not at hwhole
    exact hwhole.1
  have hhandled : ({ s with locked := true } : Link σ).handle parse notice value = none := by
    unfold Link.handle
    rw [htype]
    simp only [Kind.read_viewer.mpr rfl]
    exact viewer_held rfl hwhole
  unfold Link.message
  rw [lock_free h.free]
  simp only [Option.bind_eq_bind, Option.bind_some]
  rw [if_pos hout, hhandled]
  rfl

/-! ### Runs -/

theorem Valid.step (notice : Kind → Value → Except Error ν) (h : s.Valid) (event : Event σ)
    (hwhole : s.outgoing = true → event.Whole parse) :
    ∃ s', s.step parse notice event = some s' ∧ s'.Valid := by
  have channels (hosted : List Hosted) (calls : List Calls) : Valid { s with hosted, calls } :=
    ⟨h.free, h.pipes.keep rfl rfl rfl rfl rfl (le_refl _), h.told.keep rfl rfl rfl (le_refl _) fun _ => rfl⟩
  cases event with
  | connected =>
    simp only [Link.step]
    by_cases hout : s.outgoing = true
    · rw [if_pos hout]
      exact ⟨s, rfl, h⟩
    · rw [if_neg hout]
      exact h.connected hout
  | disconnected => exact h.disconnected
  | announce => exact h.announce
  | host session incarnation => exact h.host session incarnation
  | share registration status =>
    simp only [Link.step]
    split
    · exact h.share _ status
    · exact ⟨s, rfl, h⟩
  | dropHosted registration =>
    simp only [Link.step]
    split
    · exact h.dropHosted _
    · exact ⟨s, rfl, h⟩
  | takeEvent registration => exact ⟨_, rfl, channels _ s.calls⟩
  | takeCalls capacity => exact h.takeCalls capacity
  | dropCalls number => exact ⟨_, rfl, channels s.hosted _⟩
  | takeCall number => exact ⟨_, rfl, channels s.hosted _⟩
  | opens pipe session incarnation => exact h.request (fun _ _ => rfl) pipe
  | calls pipe device => exact h.request (fun _ _ => rfl) pipe
  | dropPipe pipe =>
    simp only [Link.step]
    split
    · rename_i p hp
      split
      · exact ⟨s, rfl, h⟩
      · exact h.dropPipe (List.mem_of_find?_eq_some hp)
    · exact ⟨s, rfl, h⟩
  | receive pipe =>
    refine ⟨_, rfl, h.free, h.pipes.received pipe, ?_⟩
    exact h.told.keep rfl rfl rfl (le_refl _) fun _ => rfl
  | frame bytes => exact h.frame bytes
  | message value => exact h.message notice hwhole

theorem Valid.new : (new : Link σ).Valid := ⟨rfl, Pipes.new, Told.new⟩

theorem Valid.run (notice : Kind → Value → Except Error ν) {events : List (Event σ)} (h : s.Valid) (hwhole : ∀ event ∈ events, event.Whole parse) :
    ∃ s', events.foldlM (Link.step parse notice) s = some s' ∧ s'.Valid := by
  induction events generalizing s with
  | nil => exact ⟨s, rfl, h⟩
  | cons event rest ih =>
    obtain ⟨s', hstep, hvalid⟩ := h.step notice event fun _ => hwhole event List.mem_cons_self
    obtain ⟨s'', hrest, hvalid'⟩ := ih hvalid fun other hother => hwhole other (List.mem_cons_of_mem _ hother)
    refine ⟨s'', ?_, hvalid'⟩
    rw [List.foldlM_cons, hstep]
    exact hrest

/-- What a reader of the link relies on between two operations: the lock is free, every route is that of one living pipe
    of the connection that stands, which heard no close and of which none was told; every pipe hears one close at most;
    and when nothing is due, the service knows every terminal that it did not refuse. -/
structure Kept (s : Link σ) : Prop where
  free : s.locked = false
  route : ∀ r ∈ s.routes, s.outgoing = true ∧ ∃ p ∈ s.pipes, (p.number = r.pipe ∧ p.id = r.id ∧ p.connection = s.connection) ∧
    (∀ q ∈ s.pipes, q.number = r.pipe → q = p) ∧ p.Open ∧ r.pipe ∉ s.closes
  closed : ∀ p ∈ s.pipes, p.Once ∧ s.closes.count p.number ≤ 1
  announced : s.outgoing = true → s.due = false → ∀ h ∈ s.hosting, h.refused = false → h.Announced s.control

theorem Valid.kept (h : s.Valid) : s.Kept := by
  refine ⟨h.free, fun r hr => ?_, fun p hp => ⟨h.pipes.once p hp, h.pipes.told _⟩, fun hout hdue t ht hrefused => ?_⟩
  · obtain ⟨hout, p, hp, hfits⟩ := h.pipes.owned r hr
    refine ⟨hout, p, hp, hfits, fun q hq hnumber => ?_, h.pipes.opened r hr p hp hfits.1, h.pipes.untold r hr⟩
    exact h.pipes.same hq hp (hnumber.trans hfits.1.symm)
  · cases hsent : t.announced with
    | true => exact h.told.announced hout t ht hrefused hsent
    | false =>
      rw [(h.told.silent hout t ht hrefused hsent).1] at hdue
      cases hdue

/-- The text of the first id. -/
def first (text : String) : Option Uuid := if text = "00000000-0000-0000-0000-000000000001" then some 1 else none

/-- A viewer whose person the service does not name. -/
def unnamed : Value := .object [("type", .text "viewer"), ("pipe", .text "00000000-0000-0000-0000-000000000001"),
  ("sessionId", .text "00000000-0000-0000-0000-000000000001")]

end Link

end Kodosi.Connections.DeviceLink
