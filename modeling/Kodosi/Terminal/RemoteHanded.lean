import Kodosi.Terminal.RemoteSound

/-! Input for a terminal of another computer is handed over once: what the connection was given is, in the order of the
    queue, the inputs whose turn came, and every caller hears once how it went. -/

namespace Kodosi.Terminal.RemoteInput
open Kodosi.Lib

variable {ν : Type}

namespace RemoteActor

variable {a b : RemoteActor ν} {P : QueuedControl → Prop} {hand : List QueuedControl} {q : QueuedControl}

/-! ### The next control -/

theorem Sound.drop (front : List QueuedControl) (h : Sound P a (front ++ [q])) (hclosed : a.isClosed q = true) :
    Sound P (a.drop q) front := by
  have hdone := Sound.resolve front [] .dropped h hclosed
  rwa [List.append_nil] at hdone

theorem Sound.error (h : Sound P a [q]) (e : Error) : Sound P (a.tell q (.error e)) [] :=
  Sound.resolve [] [] (.told (.error e)) h trivial

theorem Sound.done (h : Sound P a [q]) (hcontrol : q.control.isInput = false) (v : Option ν) :
    Sound P (a.tell q (.ok v)) [] :=
  Sound.resolve [] [] (.told (.ok v)) h hcontrol

theorem mergeInput_frame (connection : Option Nat) : ∀ (queue : List QueuedControl) (a : RemoteActor ν) (bytes : List UInt8)
    (parts : List QueuedControl), (a.mergeInput connection bytes parts queue).1.inFlight = a.inFlight ∧
      (a.mergeInput connection bytes parts queue).1.ended = a.ended ∧
      (a.mergeInput connection bytes parts queue).1.cancelled = a.cancelled
  | [], _, _, _ => ⟨rfl, rfl, rfl⟩
  | next :: rest, a, bytes, parts => by
    rw [mergeInput]
    split
    · split
      · split
        · exact mergeInput_frame connection rest (a.drop next) _ _
        · exact mergeInput_frame connection rest a _ _
      · exact ⟨rfl, rfl, rfl⟩
    · exact ⟨rfl, rfl, rfl⟩

/-- Joining keeps every byte of what is joined, in its order. -/
theorem Sound.mergeInput (connection : Option Nat) : ∀ {queue : List QueuedControl} {a : RemoteActor ν} {bytes : List UInt8}
    {parts : List QueuedControl}, Sound P { a with queued := queue } parts → bytes = parts.flatMap (·.control.bytes) →
      (∀ x ∈ parts, x.control.isInput = true ∧ a.isClosed x = false) →
      Sound P (a.mergeInput connection bytes parts queue).1 (a.mergeInput connection bytes parts queue).2.2 ∧
        (a.mergeInput connection bytes parts queue).2.1 =
          (a.mergeInput connection bytes parts queue).2.2.flatMap (·.control.bytes) ∧
        ∀ x ∈ (a.mergeInput connection bytes parts queue).2.2, x.control.isInput = true ∧ a.isClosed x = false
  | [], _, _, _, h, hbytes, hparts => ⟨h, hbytes, hparts⟩
  | next :: rest, a, bytes, parts, h, hbytes, hparts => by
    have htaken : Sound P { a with queued := rest } (parts ++ [next]) := h.take rfl
    rw [RemoteActor.mergeInput]
    split
    · next more hcontrol =>
      split
      · split
        · next hclosed =>
          exact Sound.mergeInput connection (a := a.drop next) (Sound.drop parts htaken hclosed) hbytes hparts
        · next hclosed =>
          refine Sound.mergeInput connection htaken ?_ fun x hx => ?_
          · rw [List.flatMap_append, List.flatMap_singleton, hcontrol, hbytes]
            rfl
          · rcases List.mem_append.mp hx with hx | hx
            · exact hparts x hx
            · rw [List.mem_singleton.mp hx, hcontrol]
              exact ⟨rfl, Bool.eq_false_iff.mpr hclosed⟩
      · exact ⟨h, hbytes, hparts⟩
    · exact ⟨h, hbytes, hparts⟩

theorem inputs_singleton (hcontrol : q.control.isInput = false) : inputs [q] = [] := by simp [inputs, hcontrol]

/-- A control that is no input goes on its way. -/
theorem Sound.beginOther (h : Sound P a [q]) (hnone : a.inFlight = none) (hopen : a.ended = false)
    (hcontrol : q.control.isInput = false) {control : TerminalControl} (hbytes : control.bytes = []) (owner : Option Nat) :
    Sound P (a.begin control q.reply.toList owner []) [] := by
  have hinputs := inputs_singleton hcontrol
  have hreplies : replies [q] = q.reply.toList := by
    rw [replies_cons]
    exact List.append_nil _
  have hbegin := h.begin hnone hopen control (by rw [hbytes, hinputs]; rfl) owner
    (by rw [hinputs]; exact fun x hx => absurd hx List.not_mem_nil)
  rwa [hinputs, hreplies] at hbegin

theorem Sound.popFrom : ∀ {queue : List QueuedControl} {a : RemoteActor ν}, Sound P { a with queued := queue } [] →
    a.inFlight = none → a.ended = false → Sound P (a.popFrom queue) []
  | [], _, h, _, _ => h
  | q :: rest, a, h, hnone, hopen => by
    have htaken : Sound P { a with queued := rest } [q] := h.take rfl
    rw [RemoteActor.popFrom]
    by_cases hclosed : a.isClosed q = true
    · rw [if_pos hclosed]
      exact Sound.popFrom (a := a.drop q) (Sound.drop [] htaken hclosed) hnone hopen
    rw [if_neg hclosed]
    split
    · exact Sound.popFrom (a := a.tell q (.error .stale)) (htaken.error _) hnone hopen
    split
    · next focused hcontrol =>
      have hother : q.control.isInput = false := by rw [hcontrol]; rfl
      split
      · exact Sound.popFrom (a := a.tell q (.error .stale)) (htaken.error _) hnone hopen
      · next id hconnection =>
        simp only
        split
        · exact Sound.popFrom (a := { a with views := a.views.setFocus id focused }.tell q (.ok none))
            ((htaken.views _).done hother none) hnone hopen
        · exact (htaken.views _).beginOther hnone hopen hother rfl none
    · next r hcontrol =>
      have hother : q.control.isInput = false := by rw [hcontrol]; rfl
      split
      · next views error _ =>
        exact Sound.popFrom (a := { a with views }.tell q (.error error)) ((htaken.views views).error _) hnone hopen
      · next views id r _ => exact (htaken.views views).beginOther hnone hopen hother rfl (some id)
    · next bytes hcontrol =>
      have hparts : ∀ x ∈ [q], x.control.isInput = true ∧ a.isClosed x = false := by
        intro x hx
        rw [List.mem_singleton.mp hx, hcontrol]
        exact ⟨rfl, Bool.eq_false_iff.mpr hclosed⟩
      have hbytes : bytes = [q].flatMap (·.control.bytes) := by
        rw [List.flatMap_singleton, hcontrol]
        rfl
      obtain ⟨hmerged, hjoined, hwanted⟩ := Sound.mergeInput q.connection htaken hbytes hparts
      obtain ⟨hflight, hended, hcancelled⟩ := mergeInput_frame q.connection rest a bytes [q]
      have hinputs := List.filter_eq_self.mpr fun x hx => (hwanted x hx).1
      have hbegin := hmerged.begin (hflight.trans hnone) (hended.trans hopen)
        (.input (a.mergeInput q.connection bytes [q] rest).2.1) (by rw [inputs, hinputs, ← hjoined]; rfl) none
        (fun x hx => by
          rw [inputs, hinputs] at hx
          rw [isClosed, hcancelled]
          exact (hwanted x hx).2)
      rw [inputs, hinputs] at hbegin
      exact hbegin
    · next control _ _ hinput =>
      have hother : q.control.isInput = false := by
        cases hcontrol : q.control with
        | input bytes => exact absurd hcontrol (hinput bytes)
        | _ => rfl
      refine htaken.beginOther hnone hopen hother ?_ none
      cases hcontrol : q.control with
      | input bytes =>
        rw [hcontrol] at hother
        cases hother
      | _ => rfl

theorem Sound.giveSizeBack (h : Sound P a hand) (hopen : a.ended = false) (order : List Nat) (owner : Nat) :
    Sound P (a.giveSizeBack order owner) hand := by
  rw [RemoteActor.giveSizeBack]
  split
  · exact h
  split
  · exact h
  split
  · exact h
  · exact h.push rfl rfl hopen

theorem giveSizeBack_frame (order : List Nat) (owner : Nat) :
    (a.giveSizeBack order owner).inFlight = a.inFlight ∧ (a.giveSizeBack order owner).ended = a.ended := by
  rw [RemoteActor.giveSizeBack]
  split
  · exact ⟨rfl, rfl⟩
  split
  · exact ⟨rfl, rfl⟩
  split <;> exact ⟨rfl, rfl⟩

theorem Sound.takeOwner (h : Sound P a hand) (hopen : a.ended = false) (order : List Nat) :
    Sound P (a.takeOwner order) hand ∧ (a.takeOwner order).inFlight = a.inFlight ∧ (a.takeOwner order).ended = a.ended := by
  rw [RemoteActor.takeOwner]
  split
  · exact ⟨h, rfl, rfl⟩
  split
  · exact ⟨h, rfl, rfl⟩
  · next owner _ _ =>
    exact ⟨(h.views { a.views with resizeOwner := none }).giveSizeBack hopen order owner,
      giveSizeBack_frame (a := { a with views := { a.views with resizeOwner := none } }) order owner⟩

theorem Sound.nextControl (h : Sound P a []) (hopen : a.ended = false) (order : List Nat) :
    Sound P (a.nextControl order) [] := by
  rw [RemoteActor.nextControl]
  split
  · exact h
  · next hidle =>
    rw [not_or, Bool.not_eq_true, Option.isSome_eq_false_iff, Option.isNone_iff_eq_none] at hidle
    obtain ⟨howner, hflight, hended⟩ := h.takeOwner hopen order
    have hnone := hflight.trans hidle.1
    have hlive := hended.trans hopen
    generalize a.takeOwner order = b at howner hnone hlive
    simp only
    split
    · exact (howner.views b.views.retain).begin hnone hlive (.focus _) rfl none fun x hx => absurd hx List.not_mem_nil
    · exact Sound.popFrom (howner.views b.views.retain) hnone hlive

/-! ### Requests -/

variable {rest : List Request}

theorem refuse_reply {e : Error} (h : Sound P a []) (hrequests : a.requests = .control q :: rest) :
    Sound P ({ a with requests := rest }.tell q (.error e)) [] := by
  have hrefused := h.refuse [.control q] rest (.told (.error e)) hrequests fun v hno => by cases hno
  have hreplies : replies ([Request.control q].filterMap Request.queued) = q.reply.toList := by
    have hqueued : [Request.control q].filterMap Request.queued = [q] := rfl
    rw [hqueued, replies_cons]
    exact List.append_nil _
  rwa [hreplies] at hrefused

theorem tell_nobody (hreply : q.reply = none) (result : Except Error (Option ν)) : a.tell q result = a := by
  rw [tell, hreply, Option.toList_none, resolve, List.map_nil, List.append_nil]

theorem focusResize_own {x : QueuedControl} (h : x ∈ (a.focusResize q).toList) :
    x.reply = none ∧ x.control.isInput = false := by
  rw [Option.mem_toList, focusResize.eq_def] at h
  split at h
  · split at h
    · cases h
    · obtain ⟨r, -, rfl⟩ := Option.map_eq_some_iff.mp h
      exact ⟨rfl, rfl⟩
  · cases h

theorem Sound.pushes : ∀ {own : List QueuedControl} {a : RemoteActor ν}, Sound P a hand → a.ended = false →
    (∀ x ∈ own, x.reply = none ∧ x.control.isInput = false) → Sound P (own.foldl RemoteActor.push a) hand
  | [], _, h, _, _ => h
  | x :: own, a, h, hopen, hown => by
    obtain ⟨hreply, hcontrol⟩ := hown x List.mem_cons_self
    exact Sound.pushes (a := a.push x) (h.push hreply hcontrol hopen) hopen fun y hy => hown y (List.mem_cons_of_mem _ hy)

/-- A control of the channel is accepted, or its caller hears why not. -/
theorem Sound.queue (h : Sound P a []) (hrequests : a.requests = .control q :: rest) (hopen : a.ended = false) :
    Sound P ({ a with requests := rest }.queue q).1 [] := by
  rw [RemoteActor.queue.eq_def]
  split
  · split
    · exact refuse_reply h hrequests
    · next hnobody =>
      have hrefused := refuse_reply (e := .busy) h hrequests
      rwa [tell_nobody hnobody] at hrefused
  split
  · exact refuse_reply h hrequests
  · exact Sound.pushes ((h.place _).accept hrequests) hopen fun x hx => focusResize_own hx

/-! ### How controls end -/

theorem Sound.finishControl (h : Sound P a []) {result : Except NetworkError (Option ν)} (hend : a.CanEnd result) :
    Sound P (a.finishControl result).1 [] := by
  obtain ⟨f, hflight, hready⟩ := hend
  have hland : ∀ views, Sound P ({ a with inFlight := none, views }.tellReplies result f.replies) [] := by
    intro views
    have hbare : Sound P { a with views } [] := h.views views
    rw [tellReplies.eq_def]
    split
    · next hnil =>
      have hdone := hbare.land hflight [] hnil.symm fun p hp => absurd hp List.not_mem_nil
      rwa [List.append_nil] at hdone
    · next first rest hcons =>
      simp only [RemoteActor.resolve, List.append_assoc]
      refine hbare.land hflight _ ?_ fun p hp => ?_
      · rw [hcons, List.map_append, List.map_map, List.map_map]
        simp [Function.comp_def]
      · rcases List.mem_append.mp hp with hp | hp
        · obtain ⟨id, -, rfl⟩ := List.mem_map.mp hp
          cases result with
          | error e => exact .inl ⟨_, rfl⟩
          | ok v =>
            rcases hready with hhanded | ⟨e, hno⟩
            · exact .inr ⟨hhanded, v, rfl⟩
            · cases hno
        · obtain ⟨id, -, rfl⟩ := List.mem_map.mp hp
          cases result with
          | error e => exact .inl ⟨_, rfl⟩
          | ok v =>
            rcases hready with hhanded | ⟨e, hno⟩
            · exact .inr ⟨hhanded, none, rfl⟩
            · cases hno
  rw [RemoteActor.finishControl, hflight]
  exact hland _

theorem Sound.failFlight (h : Sound P a hand) (e : Error) : Sound P (a.failFlight e) hand := by
  rw [RemoteActor.failFlight]
  split
  · exact h
  · next f hflight =>
    refine h.land hflight _ ?_ fun p hp => ?_
    · rw [List.map_map]
      exact List.map_id' _
    · obtain ⟨id, -, rfl⟩ := List.mem_map.mp hp
      exact .inl ⟨e, rfl⟩

theorem Sound.drain (h : Sound P a []) (e : Error) : Sound P (a.drain e) [] := by
  have htaken : Sound P { a with queued := [] } ([] ++ a.queued) := h.take (List.append_nil _).symm
  rw [List.nil_append] at htaken
  rw [RemoteActor.drain]
  refine Sound.resolveAll ?_ fun q _ => trivial
  rwa [List.append_nil]

theorem failFlight_frame (e : Error) : (a.failFlight e).queued = a.queued ∧ (a.failFlight e).inFlight = none := by
  rw [RemoteActor.failFlight]
  split
  · exact ⟨rfl, ‹_›⟩
  · exact ⟨rfl, rfl⟩

theorem Sound.stop (h : Sound P a []) (reason : String) : Sound P (a.stop reason) [] := by
  have hfailed := (h.drain (.other reason)).failFlight (.other reason)
  obtain ⟨hqueued, hflight⟩ := failFlight_frame (a := a.drain (.other reason)) (.other reason)
  rw [RemoteActor.stop]
  generalize (a.drain (.other reason)).failFlight (.other reason) = b at hfailed hqueued hflight
  have hrefused := hfailed.refuse b.requests [] .dropped (List.append_nil _).symm fun v hno => by cases hno
  have hplaced := hrefused.place { a.place with disconnected := true, selecting := false }
  exact ⟨hplaced.once, hplaced.nodup, hplaced.fresh, hplaced.known, hplaced.distinct, hplaced.replied, hplaced.waiting,
    hplaced.inOrder, hplaced.bytes,
    hplaced.flight,
    hplaced.fate, hplaced.confirmed, hplaced.skipped, hplaced.gone, fun _ => ⟨hqueued, rfl, hflight⟩⟩

theorem Sound.reset (h : Sound P a hand) (link : Link) : Sound P (a.reset link) hand :=
  (h.place { a.place with link, synced := false }).views { a.views with confirmedFocus := false, resizeOwner := none }

theorem Sound.interrupt (h : Sound P a []) (reason : String) : Sound P (a.interrupt reason) [] := by
  rw [RemoteActor.interrupt]
  simp only
  split
  · exact (h.views _).stop reason
  · refine Sound.reset (Sound.failFlight ?_ _) .lost
    exact (h.views a.views.prune).place { a.place with lostAt := some (a.place.lostAt.getD a.place.now) }

theorem Sound.settle {outcome : RemoteActor ν × Option String} (h : Sound P outcome.1 []) : Sound P (settle outcome) [] := by
  have halone : ∀ b : RemoteActor ν, Sound P b [] → Sound P (if b.ended = false ∧ b.place.link = .lost ∧ b.views.entries = []
      then b.stop "Disconnected from the remote terminal." else b) [] := by
    intro b hb
    split
    · exact hb.stop _
    · exact hb
  obtain ⟨b, failure⟩ := outcome
  cases failure with
  | none => exact halone b h
  | some failure => exact halone _ (h.interrupt failure)

theorem Sound.close (h : Sound P a []) {ready : Option (Except NetworkError (Option ν))}
    (hready : ∀ result ∈ ready, a.CanEnd result) (stopped : Bool) (reason : String) :
    Sound P (a.close ready stopped reason) [] := by
  have hover : ∀ b : RemoteActor ν, Sound P b [] →
      Sound P (if stopped then b.stop "The host stopped this terminal." else RemoteActor.settle (b, some reason)) [] := by
    intro b hb
    split
    · exact hb.stop _
    · exact Sound.settle hb
  rw [RemoteActor.close.eq_def]
  cases ready with
  | none => exact hover a h
  | some result =>
    have hb := h.finishControl (hready result rfl)
    dsimp only
    generalize a.finishControl result = finished at hb ⊢
    obtain ⟨b, failure⟩ := finished
    cases failure with
    | none => exact hover b hb
    | some text => exact Sound.settle hb

/-! ### Steps -/

theorem Sound.failPromised (h : Sound P a hand) (hreply : q.reply = some a.next) (e : Error) :
    Sound P (a.promise.tell q (.error e)) hand := by
  rw [tell, hreply]
  exact h.refused e

theorem Sound.send (h : Sound P a hand) (hreply : q.reply = some a.next) : Sound P (a.promise.send (.control q)) hand := by
  have hreplies : replies (Request.control q).queued.toList = [a.next] := by
    have hqueued : (Request.control q).queued.toList = [q] := rfl
    rw [hqueued, replies_cons, hreply]
    rfl
  rw [RemoteActor.send, hreplies]
  split
  · exact h.refused .stopped
  split
  · exact h.refused .busy
  · next hopen _ =>
    rw [not_or, Bool.not_eq_true] at hopen
    exact h.asked hreply (Bool.eq_false_iff.mpr hopen.2)

theorem Sound.sendOther {request : Request} (h : Sound P a hand) (hrequest : request.queued = none) :
    Sound P (a.send request) hand := by
  have hreplies : replies request.queued.toList = [] := by rw [hrequest]; rfl
  have hsame : ∀ e : Error, a.fail (replies request.queued.toList) e = a := fun e => by
    rw [hreplies, RemoteActor.fail, RemoteActor.resolve, List.map_nil, List.append_nil]
  rw [RemoteActor.send, hsame, hsame]
  split
  · exact h
  split
  · exact h
  · next hopen _ =>
    rw [not_or, Bool.not_eq_true] at hopen
    refine h.requests ?_ fun hended => absurd hended hopen.2
    rw [List.filterMap_append, List.filterMap_cons, hrequest]
    exact List.append_nil _

theorem Sound.ask (h : Sound P a []) (what : Ask) : Sound P (a.ask what) [] := by
  cases what with
  | input connection bytes =>
    rw [RemoteActor.ask, RemoteActor.queueInput]
    split
    · exact h.failPromised rfl _
    split
    · exact h.failPromised rfl _
    · exact h.send rfl
  | control connection control =>
    rw [RemoteActor.ask]
    split
    · exact h.failPromised rfl _
    · exact h.send rfl
  | reconnected sameIncarnation => exact h.sendOther rfl
  | unsubscribe id => exact h.sendOther rfl
  | capture => exact h.sendOther rfl
  | other => exact h.sendOther rfl

theorem Sound.resume (h : Sound P a hand) (sameIncarnation : Bool) : Sound P (a.resume sameIncarnation) hand := by
  rw [RemoteActor.resume]
  split
  · exact h
  · exact h.place _

theorem wake_place (a : RemoteActor ν) (request : Request) : ∃ place, a.wake request = { a with place } := by
  rw [RemoteActor.wake]
  split
  · exact ⟨_, rfl⟩
  · exact ⟨a.place, rfl⟩

theorem Sound.request {request : Request} (h : Sound P a []) (hrequests : a.requests = request :: rest)
    (failure : Option String) :
    Sound P (({ a with requests := rest }.finish.wake request).handle failure request).1 [] := by
  have hopen : a.ended = false := by
    cases hended : a.ended with
    | false => rfl
    | true =>
      have hnil := (h.over' hended).2.1
      rw [hrequests] at hnil
      cases hnil
  obtain ⟨place, hwake⟩ := wake_place ({ a with requests := rest }.finish) request
  have hstate : ({ a with requests := rest }.finish.wake request) = { { a with place } with requests := rest } := hwake
  have hplaced : Sound P { a with place } [] := h.place place
  rw [hstate]
  have hother : request.queued = none → Sound P { { a with place } with requests := rest } [] := by
    intro hnone
    refine hplaced.requests ?_ fun hended => absurd (hopen.symm.trans hended) Bool.false_ne_true
    have hcarried : ({ a with place } : RemoteActor ν).carried = a.carried := rfl
    rw [hcarried, carried, hrequests, List.filterMap_cons, hnone]
  cases request with
  | control q =>
    rw [handle]
    split
    · exact refuse_reply hplaced hrequests
    · exact hplaced.queue hrequests hopen
  | reconnected sameIncarnation => exact (hother rfl).resume sameIncarnation
  | unsubscribe id => exact (hother rfl).views _
  | capture => exact hother rfl
  | other => exact hother rfl

theorem Sound.maintain (h : Sound P a []) : Sound P a.maintain [] := by
  rw [RemoteActor.maintain]
  simp only
  split
  · exact (h.views a.views.prune).drain _
  · exact h.views a.views.prune

theorem Sound.finish (h : Sound P a hand) : Sound P a.finish hand := h.place { a.place with selecting := false }

theorem Sound.update (h : Sound P a hand) (u : Update) : Sound P (a.update u).1 hand :=
  (h.place { a.place with synced := u.synced.getD a.place.synced }).views { a.views with grid := u.grid.or a.views.grid }

/-- Whatever happens next, callers and inputs stay accounted for. -/
theorem Sound.step (h : Sound P a []) {e : Event ν} (hallowed : a.Allowed e) : Sound P (a.step e) [] := by
  cases e with
  | ask what => exact h.ask what
  | cancel reply => exact h.cancel reply
  | disconnect => exact h.place { a.place with disconnected := true }
  | pass time => exact h.place { a.place with now := a.place.now + time }
  | joined id => exact h.views { a.views with entries := a.views.entries ++ [id] }
  | lapsed id => exact h.views { a.views with lapsed := id :: a.views.lapsed }
  | turn order =>
    have hturn : Sound P { a with place := { a.place with selecting := true } } [] := h.place _
    rw [RemoteActor.step]
    simp only
    split
    · exact hturn.nextControl hallowed.1 order
    · exact hturn
  | pause => exact h.reset .paused
  | handOver =>
    obtain ⟨-, f, hflight, hnot⟩ := hallowed
    rw [RemoteActor.step, hflight]
    exact h.handOver hflight hnot
  | completed result => exact Sound.settle (h.finish.finishControl hallowed.2)
  | update u => exact Sound.settle (h.finish.update u)
  | closed ready stopped reason => exact h.finish.close hallowed.2.2 stopped reason
  | request failure =>
    obtain ⟨request, rest, hrequests⟩ := List.exists_cons_of_ne_nil hallowed.2
    rw [RemoteActor.step, hrequests]
    exact Sound.settle (h.request hrequests failure)
  | maintain failure => exact Sound.settle h.finish.maintain
  | stop reason => exact h.stop reason

/-! ### Runs -/

theorem Sound.new : Sound (fun _ => False) (RemoteActor.new : RemoteActor ν) [] :=
  ⟨List.Perm.refl _, List.nodup_nil, fun _ hid => absurd hid List.not_mem_nil, fun _ hid => absurd hid List.not_mem_nil,
    List.nodup_nil, fun _ hq => absurd hq List.not_mem_nil, fun _ hq => absurd hq List.not_mem_nil, List.Sublist.refl _, rfl,
    (fun _ hf => by cases hf), fun _ hq => absurd hq List.not_mem_nil, fun _ _ hok => absurd hok List.not_mem_nil,
    fun _ hq => absurd hq List.not_mem_nil, fun _ hno => hno.elim, fun _ => ⟨rfl, rfl, rfl⟩⟩

/-- What a terminal has done with its input: the bytes that the connection was given are those of accepted inputs, in the
    order of the queue and each once; an accepted input that was not handed over waits, or its caller gave up before its
    turn or was told an error; every caller is answered once, at the latest when the terminal is over; and an input whose
    caller hears that it went was handed over. -/
structure Told (a : RemoteActor ν) : Prop where
  bytes : a.handed.flatMap (·.bytes) = a.sent.flatMap (·.control.bytes)
  inOrder : a.sent.Sublist (inputs a.accepted)
  distinct : (inputs a.accepted).Nodup
  fate : ∀ q ∈ inputs a.accepted, q ∈ a.sent ∨ (a.ended = false ∧ (q ∈ a.begun ∨ q ∈ a.queued)) ∨ a.PassedOver q
  promised : a.promised.Nodup
  once : (a.answers.map (·.1)).Nodup
  answered : ∀ id ∈ a.promised, id ∈ a.answers.map (·.1) ∨
    a.ended = false ∧ (id ∈ replies (a.carried ++ a.queued) ∨ id ∈ a.flightReplies)
  asked : ∀ id ∈ a.answers.map (·.1), id ∈ a.promised
  confirmed : ∀ q ∈ inputs a.accepted, ∀ id v, q.reply = some id → (id, .told (.ok v)) ∈ a.answers → q ∈ a.sent
  skipped : ∀ q ∈ a.sent, ∀ id, q.reply = some id → (id, .dropped) ∉ a.answers

theorem Sound.told (h : Sound P a []) : a.Told where
  bytes := h.bytes
  inOrder := by
    refine List.Sublist.trans ?_ h.inOrder
    rw [List.append_assoc]
    exact List.sublist_append_left _ _
  distinct := h.nodup_inputs
  fate := by
    intro q hq
    have hopen : q ∈ a.begun ∨ q ∈ a.queued → a.ended = false := by
      intro hwaits
      cases hended : a.ended with
      | false => rfl
      | true =>
        obtain ⟨hqueued, -, hflight⟩ := h.over' hended
        rw [begun_none hflight, hqueued] at hwaits
        rcases hwaits with hno | hno <;> cases hno
    rcases h.fate q hq with hsent | hbegun | hwaits | hpassed
    · exact .inl hsent
    · exact .inr (.inl ⟨hopen (.inl hbegun), .inl hbegun⟩)
    · exact .inr (.inl ⟨hopen (.inr hwaits), .inr hwaits⟩)
    · exact .inr (.inr hpassed)
  promised := h.nodup
  once := (List.nodup_append.mp h.apart).1
  answered := by
    intro id hid
    have hmem := h.once.mem_iff.mp hid
    rw [List.append_nil] at hmem
    rcases List.mem_append.mp hmem with hanswer | hwaits
    · exact .inl hanswer
    · refine .inr ⟨?_, List.mem_append.mp hwaits⟩
      cases hended : a.ended with
      | false => rfl
      | true =>
        obtain ⟨hqueued, hrequests, hflight⟩ := h.over' hended
        rw [carried, hrequests, hqueued, flightReplies, hflight] at hwaits
        cases hwaits
  asked := fun id hid => h.once.mem_iff.mpr (List.mem_append_left _ hid)
  confirmed := by
    intro q hq id v hid hok
    obtain ⟨x, hx, hxid, hsent⟩ := h.confirmed id v hok
    obtain ⟨hmem, hinput⟩ := mem_inputs.mp hq
    obtain rfl := h.same (List.mem_append_left _ hx) (List.mem_append_left _ hmem) hxid hid
    exact hsent hinput
  skipped := h.skipped

theorem Sound.run {es : List (Event ν)} (h : Sound P a []) (hrun : Run.Allows Allowed RemoteActor.step a es) :
    Sound P (es.foldl RemoteActor.step a) [] := by
  have hruns := Run.of_allows hrun
  refine Run.invariant (I := fun b => Sound P b []) (fun {b e c} hb hnext => ?_) hruns h
  rw [hnext.2]
  exact hb.step hnext.1

/-- The controls of the queue whose callers have given up stay what they are. -/
theorem Sound.givenUp (h : Sound P a []) : Sound (fun q => q ∈ inputs a.queued ∧ a.isClosed q = true) a [] := by
  refine ⟨h.once, h.nodup, h.fresh, h.known, h.distinct, h.replied, h.waiting, h.inOrder, h.bytes, h.flight, h.fate,
    h.confirmed, h.skipped, fun q hq => ⟨hq.2, fun hsent => ?_, fun hbegun => ?_⟩, h.over'⟩
  · exact (List.nodup_append.mp h.nodup_sent).2.2 q (List.mem_append_left _ hsent) q hq.1 rfl
  · exact (List.nodup_append.mp h.nodup_sent).2.2 q (List.mem_append_right _ hbegun) q hq.1 rfl

/-- A view types four letters. The first goes alone; of the others, which wait behind it, the second is given up, and two
    go as one. -/
def joined : List (Event Unit) :=
  [.joined 1, .turn [], .update ⟨some true, none, none⟩, .ask (.input (some 1) [97]), .ask (.input (some 1) [98]),
    .ask (.input (some 1) [99]), .ask (.input (some 1) [100]), .turn [], .request none, .turn [], .handOver, .request none,
    .turn [], .request none, .turn [], .request none, .cancel 2, .turn [], .completed (.ok none), .turn [], .handOver,
    .completed (.ok none)]

/-- A letter is typed while the connection is lost, and another one when it is back after more than ten seconds. -/
def late : List (Event Unit) :=
  [.joined 1, .turn [], .update ⟨some true, none, none⟩, .turn [], .closed none false "The remote host disconnected.",
    .turn [], .ask (.input (some 1) [97]), .request none, .pass 10000, .turn [], .maintain none, .ask (.reconnected true),
    .turn [], .request none, .turn [], .update ⟨some true, none, none⟩, .ask (.input (some 1) [98]), .turn [], .request none,
    .turn [], .handOver, .completed (.ok none)]

end RemoteActor

end Kodosi.Terminal.RemoteInput
