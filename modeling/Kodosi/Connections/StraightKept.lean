import Kodosi.Connections.PipesKept

/-! A straight connection carries the frames of its pipe both ways, and with it every run of pipes hands out whole frames. -/

namespace Kodosi.Connections.Pipes
open Kodosi.Lib

namespace Straight

variable {s s' : Straight} {good : Bytes → Prop} {side d : Side}

theorem across_ne (side : Side) : side ≠ side.across := by
  cases side <;> decide

/-- The parts on their way. -/
def datas (wire : List Carriage) : List (Piece UInt8) :=
  wire.filterMap fun
    | .data part => some part
    | _ => none

theorem datas_append (wire more : List Carriage) : datas (wire ++ more) = datas wire ++ datas more := List.filterMap_append

theorem datas_parts (frame : Bytes) : datas ((parts PIPE_PART frame).map .data) = parts PIPE_PART frame := by
  rw [datas, List.filterMap_map]
  exact List.filterMap_some

/-- What holds at a side between two steps. -/
structure Fits (good : Bytes → Prop) (s : Straight) (side : Side) : Prop where
  given : (s.half side).ends.all <+: full (s.half side.across).written
  coming : (s.half side).running = true →
    Joins (s.half side).filling (datas (s.wire side)) (s.half side).ends.all (s.half side.across).written
  bound : ∀ f ∈ (s.half side).written, good f

/-- A step that does not change what a side is given. -/
theorem Fits.same (h : s.Fits good d) (hall : (s'.half d).ends.all = (s.half d).ends.all)
    (hwritten : ∀ d, (s'.half d).written = (s.half d).written)
    (hrunning : (s'.half d).running = true → (s.half d).running = true ∧ (s'.half d).filling = (s.half d).filling ∧
      datas (s'.wire d) = datas (s.wire d)) : s'.Fits good d := by
  refine ⟨?_, fun hrun => ?_, ?_⟩
  · rw [hall, hwritten]
    exact h.given
  · obtain ⟨hrun', hfilling, hdatas⟩ := hrunning hrun
    rw [hall, hwritten, hfilling, hdatas]
    exact h.coming hrun'
  · rw [hwritten]
    exact h.bound

theorem Fits.new (side : Side) : new.Fits good side where
  given := List.nil_prefix
  coming := fun _ => ⟨[], rfl, rfl⟩
  bound := fun _ hf => absurd hf List.not_mem_nil

/-- What is no part goes over the connection. -/
theorem Fits.send (h : s.Fits good d) {more : List Carriage} (hmore : datas more = []) : (s.send side more).Fits good d := by
  refine h.same rfl (fun _ => rfl) fun hrun => ⟨hrun, rfl, ?_⟩
  simp only [Straight.send]
  split
  · rw [datas_append, hmore, List.append_nil]
  · rfl

/-- A side stops. -/
theorem Fits.stop (h : s.Fits good d) {f : Half → Half} (hf : ∀ x, (f x).ends = x.ends ∧ (f x).written = x.written ∧ (f x).running = false) :
    (s.change side f).Fits good d := by
  have hhalf : ∀ d, ((s.change side f).half d).written = (s.half d).written := by
    intro d
    simp only [change]
    split
    · exact (hf _).2.1
    · rfl
  refine h.same ?_ hhalf fun hrun => ?_
  · simp only [change]
    split
    · rw [(hf _).1]
    · rfl
  · simp only [change] at hrun ⊢
    split at hrun
    · rw [(hf _).2.2] at hrun
      cases hrun
    · rename_i hne
      rw [if_neg hne]
      exact ⟨hrun, rfl, trivial⟩

/-- The reader of a side takes a frame, or goes. -/
theorem Fits.read (h : s.Fits good d) (f : Ends → Ends) (hf : ∀ e, (f e).all = e.all) :
    (s.change side fun h => { h with ends := f h.ends }).Fits good d := by
  refine h.same ?_ (fun d => ?_) fun hrun => ?_
  · simp only [change]
    split
    · exact hf _
    · rfl
  · simp only [change]
    split <;> rfl
  · simp only [change] at hrun ⊢
    by_cases hd : d = side
    · rw [if_pos hd] at hrun ⊢
      exact ⟨hrun, rfl, trivial⟩
    · rw [if_neg hd] at hrun ⊢
      exact ⟨hrun, rfl, trivial⟩

theorem Fits.writes (h : ∀ d, s.Fits good d) {frame : Bytes} (hframe : good frame) :
    Fits good ((s.change side fun h => { h with written := h.written ++ [frame] }).send side ((parts PIPE_PART frame).map .data)) d := by
  by_cases hthis : d = side
  · subst hthis
    have hacross : d.across ≠ d := (across_ne d).symm
    refine ⟨?_, fun hrun => ?_, ?_⟩
    · simp only [Straight.send, change, if_pos, if_neg hacross]
      exact (h d).given
    · simp only [Straight.send, change, if_pos, if_neg hacross, if_neg (across_ne d)] at hrun ⊢
      exact (h d).coming hrun
    · simp only [Straight.send, change, if_pos]
      intro f hf
      rcases List.mem_append.mp hf with hf | hf
      · exact (h d).bound f hf
      · rw [List.mem_singleton.mp hf]
        exact hframe
  · have hd : d = side.across := by
      cases d <;> cases side <;> first | rfl | exact absurd rfl hthis
    have hback : d.across = side := by
      rw [hd]
      cases side <;> rfl
    refine ⟨?_, fun hrun => ?_, ?_⟩
    · simp only [Straight.send, change, if_neg hthis, if_pos hback, full_append]
      have hgiven := (h d).given
      rw [hback] at hgiven
      rw [hback]
      exact hgiven.trans (List.prefix_append _ _)
    · simp only [Straight.send, change, if_neg hthis, if_pos hback, if_pos hd, datas_append, datas_parts] at hrun ⊢
      have hcoming := (h d).coming hrun
      rw [hback] at hcoming ⊢
      exact hcoming.write frame
    · simp only [Straight.send, change, if_neg hthis]
      exact (h d).bound

theorem Fits.receives (hgood : ∀ f, good f → f.length ≤ MOST_PIPE_FRAME) (h : ∀ d, s.Fits good d) :
    ∃ s', s.step (.receives side) = .ok s' ∧ ∀ d, s'.Fits good d := by
  rw [step]
  split
  · rename_i hrun
    cases hwire : s.wire side with
    | nil => exact ⟨s, rfl, h⟩
    | cons first rest =>
      have hleft : datas [first] = [] → ∀ d, Fits good { s with wire := fun d => if d = side then rest else s.wire d } d := by
        intro hnone d
        refine (h d).same rfl (fun _ => rfl) fun hrun' => ⟨hrun', rfl, ?_⟩
        simp only
        split
        · rename_i hd
          have hcons : s.wire d = [first] ++ rest := by
            rw [hd, hwire]
            rfl
          rw [hcons, datas_append, hnone]
          rfl
        · rfl
      cases first with
      | heartbeat => exact ⟨_, rfl, hleft rfl⟩
      | close => exact ⟨_, rfl, fun d => (hleft rfl d).stop fun _ => ⟨rfl, rfl, rfl⟩⟩
      | data part =>
        have hcoming := (h side).coming hrun
        have hdatas : datas (s.wire side) = part :: datas rest := by
          rw [hwire]
          rfl
        rw [hdatas] at hcoming
        have hfits := hcoming.fits fun f hf => hgood f ((h side.across).bound f hf)
        simp only
        rw [if_neg (not_lt.mpr hfits)]
        have hother : ∀ {d}, d ≠ side → ∀ {f : Half → Half}, (∀ x, (f x).written = x.written) →
            Fits good (change { s with wire := fun d => if d = side then rest else s.wire d } side f) d := by
          intro d hd f hf
          refine (h d).same ?_ (fun d => ?_) fun hrun' => ?_
          · simp only [change, if_neg hd]
          · simp only [change]
            split
            · exact hf _
            · rfl
          · simp only [change, if_neg hd] at hrun' ⊢
            exact ⟨hrun', trivial, trivial⟩
        have hacross : side.across ≠ side := (across_ne side).symm
        by_cases hmore : part.more = true
        · rw [if_pos hmore]
          refine ⟨_, rfl, fun d => ?_⟩
          by_cases hd : d = side
          · subst hd
            refine ⟨?_, fun _ => ?_, ?_⟩
            · simp only [change, if_pos, if_neg hacross]
              exact (h d).given
            · simp only [change, if_pos, if_neg hacross]
              exact hcoming.more hmore
            · simp only [change, if_pos]
              exact (h d).bound
          · exact hother hd fun _ => rfl
        · rw [if_neg hmore]
          have hlast := hcoming.last hmore
          cases hsend : (s.half side).ends.trySend ((s.half side).filling ++ part.data) with
          | none =>
            refine ⟨_, rfl, fun d => Fits.send ?_ rfl⟩
            by_cases hd : d = side
            · subst hd
              refine ⟨?_, fun hrun' => ?_, ?_⟩
              · simp only [change, if_pos, if_neg hacross]
                exact (h d).given
              · simp only [change, if_pos, Bool.false_eq_true] at hrun'
              · simp only [change, if_pos]
                exact (h d).bound
            · exact hother hd fun _ => rfl
          | some e =>
            rw [← Ends.all_trySend hsend] at hlast
            refine ⟨_, rfl, fun d => ?_⟩
            by_cases hd : d = side
            · subst hd
              refine ⟨?_, fun _ => ?_, ?_⟩
              · simp only [change, if_pos, if_neg hacross]
                exact hlast.given_prefix
              · simp only [change, if_pos, if_neg hacross]
                exact hlast
              · simp only [change, if_pos]
                exact (h d).bound
            · exact hother hd fun _ => rfl
  · exact ⟨s, rfl, h⟩

theorem Fits.step (hgood : ∀ f, good f → f.length ≤ MOST_PIPE_FRAME) (h : ∀ d, s.Fits good d) (event : StraightEvent)
    (hframe : ∀ frame ∈ event.frame, good frame) : ∃ s', s.step event = .ok s' ∧ ∀ d, s'.Fits good d := by
  cases event with
  | alive side =>
    refine ⟨_, rfl, fun d => ?_⟩
    split
    · exact (h d).send rfl
    · exact h d
  | receives side => exact Fits.receives hgood h
  | writes side frame =>
    refine ⟨_, rfl, fun d => ?_⟩
    split
    · exact Fits.writes h (hframe frame rfl)
    · exact h d
  | ends side =>
    refine ⟨_, rfl, fun d => ?_⟩
    split
    · have hstopped : Fits good (s.change side fun h => { h with running := false }) d := (h d).stop fun _ => ⟨rfl, rfl, rfl⟩
      exact hstopped.send rfl
    · exact h d
  | takes side => exact ⟨_, rfl, fun d => (h d).read Ends.take Ends.all_take⟩
  | leaves side => exact ⟨_, rfl, fun d => (h d).read (fun e => { e with read := false }) fun _ => rfl⟩
  | stops side => exact ⟨_, rfl, fun d => (h d).stop fun _ => ⟨rfl, rfl, rfl⟩⟩

end Straight

/-! ### Whole frames -/

/-- What a pipe delivers at one end: what its reader took are the first of the frames that were written, and all of them
    when the pipe is open and nothing is on its way. -/
def Delivered (ends : Ends) (opened : Prop) (pending : List (Piece UInt8)) (written : List Bytes) : Prop :=
  ends.handed <+: written ∧ (opened → pending = [] → ends.queue = [] → ends.handed = written)

variable {written : List Bytes}

theorem full_filled (h : ∀ f ∈ written, f ≠ []) : full written = written :=
  List.filter_eq_self.mpr fun f hf => decide_eq_true (h f hf)

variable {pending : List (Piece UInt8)}

/-- When no frame is empty, an end delivers them. -/
theorem delivered {ends : Ends} {opened : Prop} (hfilled : ∀ f ∈ written, f ≠ []) (hgiven : ends.all <+: full written)
    (hcoming : opened → ∃ filling, Joins filling pending ends.all written) : Delivered ends opened pending written := by
  have hfull := full_filled hfilled
  rw [hfull] at hgiven
  refine ⟨(List.prefix_append _ _).trans hgiven, fun hopened hnothing hqueue => ?_⟩
  obtain ⟨filling, frames, hjoin, hall⟩ := hcoming hopened
  rw [hnothing, join] at hjoin
  obtain ⟨rfl, -⟩ := Prod.mk.inj hjoin
  rw [List.append_nil, hfull, Ends.all, hqueue, List.append_nil] at hall
  exact hall

/-- Both ends of a pipe deliver whole frames. -/
def Connection.Whole (s : Connection) (p : Uuid) : Prop :=
  Delivered (s.host.ends p) ((s.host.pipes.lookup p).isSome = true) (s.up p) (s.shown p) ∧
    Delivered (s.view.ends p) ((s.view.pipes.lookup p).isSome = true) (s.down p) (s.told p)

def Straight.Whole (s : Straight) (side : Side) : Prop :=
  Delivered (s.half side).ends ((s.half side).running = true) (Straight.datas (s.wire side)) (s.half side.across).written

/-- A frame that may be written and is not empty. -/
def Filled (frame : Bytes) : Prop := frame.length ≤ MOST_PIPE_FRAME ∧ frame ≠ []

theorem Carried.whole {i : Inlet} {p : Uuid} (h : Carried i p pending written) (hfilled : ∀ f ∈ written, f ≠ []) :
    Delivered (i.ends p) ((i.pipes.lookup p).isSome = true) pending written := by
  refine delivered hfilled h.given fun hopened => ?_
  obtain ⟨filling, hfilling⟩ := Option.isSome_iff_exists.mp hopened
  exact ⟨filling, h.coming filling hfilling⟩

theorem Connection.Fits.whole {s : Connection} {p : Uuid} (h : s.Fits Filled p) : s.Whole p := by
  refine ⟨?_, h.viewed.whole fun f hf => (h.bound.2 f hf).2⟩
  have hfilled : ∀ f ∈ s.shown p, f ≠ [] := fun f hf => (h.bound.1 f hf).2
  by_cases hdocument : s.documents p = .none
  · obtain ⟨hlookup, hall, -⟩ := h.early hdocument
    refine delivered hfilled ?_ fun hopened => ?_
    · rw [hall]
      exact List.nil_prefix
    · rw [hlookup] at hopened
      cases hopened
  · exact (h.hosted hdocument).whole hfilled

variable {good : Bytes → Prop}

theorem Connection.Fits.run (hgood : ∀ f, good f → f.length ≤ MOST_PIPE_FRAME) {events : List Event} {s : Connection}
    (h : ∀ p, s.Fits good p) (hframes : ∀ event ∈ events, ∀ frame ∈ event.frame, good frame) :
    ∃ s', events.foldlM Connection.step s = .ok s' ∧ ∀ p, s'.Fits good p := by
  induction events generalizing s with
  | nil => exact ⟨s, rfl, h⟩
  | cons event rest ih =>
    obtain ⟨s', hstep, hfits⟩ := Connection.Fits.step hgood h event (hframes event List.mem_cons_self)
    obtain ⟨s'', hrest, hfits'⟩ := ih hfits fun other hother => hframes other (List.mem_cons_of_mem _ hother)
    refine ⟨s'', ?_, hfits'⟩
    rw [List.foldlM_cons, hstep]
    exact hrest

theorem Straight.Fits.run (hgood : ∀ f, good f → f.length ≤ MOST_PIPE_FRAME) {events : List StraightEvent}
    {s : Straight} (h : ∀ d, s.Fits good d) (hframes : ∀ event ∈ events, ∀ frame ∈ event.frame, good frame) :
    ∃ s', events.foldlM Straight.step s = .ok s' ∧ ∀ d, s'.Fits good d := by
  induction events generalizing s with
  | nil => exact ⟨s, rfl, h⟩
  | cons event rest ih =>
    obtain ⟨s', hstep, hfits⟩ := Straight.Fits.step hgood h event (hframes event List.mem_cons_self)
    obtain ⟨s'', hrest, hfits'⟩ := ih hfits fun other hother => hframes other (List.mem_cons_of_mem _ hother)
    refine ⟨s'', ?_, hfits'⟩
    rw [List.foldlM_cons, hstep]
    exact hrest

/-- In every run in which no empty frame is written, the pipes of a terminal's connection and the pipe of a straight
    connection deliver whole frames both ways, and no side finds a frame too long. -/
theorem pipes_whole (events : List Event) (straight : List StraightEvent)
    (h : ∀ event ∈ events, ∀ frame ∈ event.frame, Filled frame) (h' : ∀ event ∈ straight, ∀ frame ∈ event.frame, Filled frame) :
    (∃ s, events.foldlM Connection.step .new = .ok s ∧ ∀ p, s.Whole p) ∧
      ∃ s, straight.foldlM Straight.step .new = .ok s ∧ ∀ side, s.Whole side := by
  have hgood : ∀ f, Filled f → f.length ≤ MOST_PIPE_FRAME := fun _ hf => hf.1
  obtain ⟨s, hrun, hfits⟩ := Connection.Fits.run hgood Connection.Fits.new h
  obtain ⟨t, hrun', hfits'⟩ := Straight.Fits.run hgood Straight.Fits.new h'
  refine ⟨⟨s, hrun, fun p => (hfits p).whole⟩, t, hrun', fun side => ?_⟩
  refine delivered (fun f hf => ((hfits' side.across).bound f hf).2) (hfits' side).given fun hrunning => ?_
  exact ⟨_, (hfits' side).coming hrunning⟩

theorem pipes_whole_one : (∃ s, ([.opens 1 "key" "name", .command, .hostReceives, .documentOpens 1, .viewWrites 1 [7], .viewSends 1,
      .command, .hostReceives, .documentTakes 1] : List Event).foldlM Connection.step .new = .ok s ∧ ∀ p, s.Whole p) ∧
    ∃ s, ([.writes .view [7], .receives .host, .takes .host] : List StraightEvent).foldlM Straight.step .new = .ok s ∧
      ∀ side, s.Whole side := by
  refine pipes_whole _ _ (fun event hevent frame hframe => ?_) fun event hevent frame hframe => ?_
  · fin_cases hevent <;> simp [Event.frame] at hframe
    subst hframe
    exact ⟨by decide, by decide⟩
  · fin_cases hevent <;> simp [StraightEvent.frame] at hframe
    subst hframe
    exact ⟨by decide, by decide⟩

/-- An empty frame has no parts, so nobody hears of it. -/
theorem empty_lost : ∃ s, ([.opens 1 "key" "name", .command, .hostReceives, .documentOpens 1, .viewWrites 1 []] : List Event).foldlM
    Connection.step .new = .ok s ∧ ¬s.Whole 1 := by
  refine ⟨_, rfl, fun hwhole => ?_⟩
  have hall := hwhole.1.2 rfl rfl rfl
  cases hall

end Kodosi.Connections.Pipes
