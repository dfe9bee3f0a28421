import Kodosi.Browser.Streams

/-! Through every run of a window: what waits is counted, each pipe has a stream that decodes, each seat has a pipe, and
    the window captures while someone watches. -/

namespace Kodosi.Browser.Live
open Kodosi.Lib

variable {s t : Live}

/-! ### Parts of a step -/

theorem steer_seats (f : Flow) (now : Nat) : (f.steer now).1.seats = f.seats := by
  rw [Flow.steer]
  split
  · rfl
  · simp only
    split
    · rfl
    · rename_i queue _
      have hnext : ({ f with steeredAt := some now }.nextBitrate queue now).1.seats = f.seats := by
        rw [Flow.nextBitrate]
        split
        · rfl
        · split <;> rfl
      split <;> exact hnext

theorem keyframeAllowed_seats (f : Flow) (now : Nat) : (f.keyframeAllowed now).1.seats = f.seats := by
  rw [Flow.keyframeAllowed]
  split <;> rfl

theorem wanted_congr (hempty : t.flow.isEmpty = s.flow.isEmpty) (hactive : t.active = s.active) : t.wanted = s.wanted := by
  rw [wanted, wanted, hempty, hactive]

/-- A tick leaves the seats, the pipes and the frames, and captures as it did or as it should. -/
theorem tick_spec (s : Live) (now : Nat) : ((s.tick now).1.flow.seats = s.flow.seats ∧ (s.tick now).1.seats = s.seats ∧
    (s.tick now).1.gone = s.gone ∧ (s.tick now).1.made = s.made) ∧ (Captures s → Captures (s.tick now).1) := by
  let retried := if s.captureFailedAt.any (RETRY_CAPTURE ≤ now - ·) then updateCapture { s with captureFailedAt := none } else s
  have hretried : (retried.flow = s.flow ∧ retried.seats = s.seats ∧ retried.gone = s.gone ∧ retried.made = s.made) ∧
      (Captures s → Captures retried) := by
    simp only [retried]
    split
    · obtain ⟨⟨hflow, hseats, hgone, hmade⟩, hcaptures⟩ := updateCapture_spec { s with captureFailedAt := none }
      exact ⟨⟨hflow, hseats, hgone, hmade⟩, fun _ => hcaptures⟩
    · exact ⟨⟨rfl, rfl, rfl, rfl⟩, id⟩
  obtain ⟨⟨hflow, hseats, hgone, hmade⟩, hcaptures⟩ := hretried
  have hsteer : (retried.flow.steer now).1.seats = s.flow.seats := by rw [steer_seats, hflow]
  have hwanted : Captures retried → Captures { retried with flow := (retried.flow.steer now).1 } := by
    intro h
    have hsame : wanted { retried with flow := (retried.flow.steer now).1 } = retried.wanted := by
      refine wanted_congr ?_ rfl
      show (retried.flow.steer now).1.seats.isEmpty = _
      rw [steer_seats]
      rfl
    rw [Captures, hsame]
    exact h
  rw [tick]
  dsimp only
  split
  · exact ⟨⟨hsteer, hseats, hgone, hmade⟩, fun h => hwanted (hcaptures h)⟩
  · exact ⟨⟨hsteer, hseats, hgone, hmade⟩, fun h => hwanted (hcaptures h)⟩

variable {now : Nat}

theorem handle_tick (h : s.handle (.tick now) = some t) : t = (s.tick now).1 := by
  rw [handle] at h
  generalize s.tick now = ticked at h
  obtain ⟨u, sleeps⟩ := ticked
  cases sleeps with
  | true => cases h
  | false => exact (Option.some.inj h).symm

theorem keyframe_spec (s : Live) (now : Nat) : (s.keyframe now).flow.seats = s.flow.seats ∧ (s.keyframe now).seats = s.seats ∧
    (s.keyframe now).gone = s.gone ∧ (s.keyframe now).made = s.made ∧ (s.keyframe now).active = s.active ∧
    (s.keyframe now).capturing = s.capturing ∧ (s.keyframe now).captureFailedAt = s.captureFailedAt := by
  rw [keyframe]
  simp only
  split <;> exact ⟨keyframeAllowed_seats s.flow now, rfl, rfl, rfl, rfl, rfl, rfl⟩

theorem watch_spec (s : Live) (viewer : String) (now : Nat) : ((s.watch viewer now).flow = s.flow.seat viewer now ∧
    (s.watch viewer now).seats = s.seats ∧ (s.watch viewer now).gone = s.gone ∧ (s.watch viewer now).made = s.made) ∧
    Captures (s.watch viewer now) :=
  updateCapture_spec { s with flow := s.flow.seat viewer now, usedAt := now }

/-- A leave frees the seat of its own join, or nothing. -/
theorem leave_spec (s : Live) (viewer : String) (number : Nat) : s.leave viewer number = s ∨
    ((s.leave viewer number).flow = s.flow.leave viewer ∧ (s.leave viewer number).seats = s.seats.erase viewer ∧
      (s.leave viewer number).gone = s.gone ++ s.framesOf viewer ∧ (s.leave viewer number).made = s.made) ∧
    Captures (s.leave viewer number) := by
  rw [leave]
  split
  · exact .inr (updateCapture_spec { s with
      seats := s.seats.erase viewer, flow := s.flow.leave viewer, gone := s.gone ++ s.framesOf viewer })
  · exact .inl rfl

theorem seat_seat (f : Flow) (viewer v : String) (now : Nat) :
    (f.seat viewer now).seats[v]? = if v = viewer then some (.new now) else f.seats[v]? :=
  getElem?_insert_viewer viewer v _

theorem leave_seat (f : Flow) (viewer v : String) :
    (f.leave viewer).seats[v]? = if v = viewer then none else f.seats[v]? := getElem?_erase_viewer viewer v

theorem ack_seat (f : Flow) (viewer v : String) (frame : UInt32) (now : Nat) :
    (f.ack viewer frame now).seats[v]? = if v = viewer then f.seats[v]?.map (·.ack frame now) else f.seats[v]? :=
  getElem?_modify_viewer viewer v _

/-! ### What waits -/

variable {e : Event}

theorem counts_handle (h : Counts s) (hnext : s.handle e = some t) : Counts t := by
  cases e with
  | join viewer number =>
    obtain rfl := Option.some.inj hnext
    exact h
  | watch viewer now =>
    obtain rfl := Option.some.inj hnext
    intro v seat hseat
    rw [(watch_spec s viewer now).1.1, seat_seat] at hseat
    split at hseat
    · obtain rfl := Option.some.inj hseat
      rfl
    · exact h v seat hseat
  | ack viewer frame now =>
    obtain rfl := Option.some.inj hnext
    intro v seat hseat
    rw [ack_seat] at hseat
    split at hseat
    · obtain ⟨old, hold, rfl⟩ := Option.map_eq_some_iff.mp hseat
      exact Seat.counted_ack (h v old hold) frame now
    · exact h v seat hseat
  | keyframe now =>
    obtain rfl := Option.some.inj hnext
    intro v seat hseat
    rw [(keyframe_spec s now).1] at hseat
    exact h v seat hseat
  | leave viewer number =>
    obtain rfl := Option.some.inj hnext
    intro v seat hseat
    rcases leave_spec s viewer number with hs | ⟨⟨hflow, -⟩, -⟩
    · rw [hs] at hseat
      exact h v seat hseat
    · rw [hflow, leave_seat] at hseat
      split at hseat
      · cases hseat
      · exact h v seat hseat
  | touch now =>
    obtain rfl := Option.some.inj hnext
    exact h
  | frame key bytes now refused =>
    obtain rfl := Option.some.inj hnext
    intro v seat hseat
    obtain ⟨old, hold, ⟨-, rfl, -⟩ | ⟨-, rfl, -⟩ | ⟨-, rfl, -⟩⟩ := seat_frame hseat
    · exact Seat.counted_frame (h v old hold) _ key bytes now
    · exact Seat.counted_lost (Seat.counted_frame (h v old hold) _ key bytes now) _
    · exact Seat.counted_frame (h v old hold) _ key bytes now
  | captureFailed now =>
    obtain rfl := Option.some.inj hnext
    exact h
  | tabs active =>
    obtain rfl := Option.some.inj hnext
    intro v seat hseat
    rw [tabs, (updateCapture_spec { s with active }).1.1] at hseat
    exact h v seat hseat
  | tick now =>
    obtain rfl := handle_tick hnext
    intro v seat hseat
    rw [(tick_spec s now).1.1] at hseat
    exact h v seat hseat

/-! ### Seats and pipes -/

theorem piped_handle (h : Piped s) (hfrom : FromPipe s e) (hnext : s.handle e = some t) : Piped t := by
  cases e with
  | join viewer number =>
    obtain rfl := Option.some.inj hnext
    intro v seat hseat
    rw [join, getElem?_insert_viewer]
    split
    · exact ⟨_, rfl⟩
    · exact h v seat hseat
  | watch viewer now =>
    obtain rfl := Option.some.inj hnext
    intro v seat hseat
    rw [(watch_spec s viewer now).1.1, seat_seat] at hseat
    rw [(watch_spec s viewer now).1.2.1]
    split at hseat
    · rename_i hv
      rw [hv]
      exact hfrom
    · exact h v seat hseat
  | ack viewer frame now =>
    obtain rfl := Option.some.inj hnext
    intro v seat hseat
    rw [ack_seat] at hseat
    split at hseat
    · obtain ⟨old, hold, -⟩ := Option.map_eq_some_iff.mp hseat
      exact h v old hold
    · exact h v seat hseat
  | keyframe now =>
    obtain rfl := Option.some.inj hnext
    obtain ⟨hflow, hseats, -⟩ := keyframe_spec s now
    intro v seat hseat
    rw [hflow] at hseat
    rw [hseats]
    exact h v seat hseat
  | leave viewer number =>
    obtain rfl := Option.some.inj hnext
    intro v seat hseat
    rcases leave_spec s viewer number with hs | ⟨⟨hflow, hseats, -⟩, -⟩
    · rw [hs] at hseat ⊢
      exact h v seat hseat
    · rw [hflow, leave_seat] at hseat
      rw [hseats, getElem?_erase_viewer]
      split at hseat
      · cases hseat
      · rename_i hv
        rw [if_neg hv]
        exact h v seat hseat
  | touch now =>
    obtain rfl := Option.some.inj hnext
    exact h
  | frame key bytes now refused =>
    obtain rfl := Option.some.inj hnext
    intro v seat hseat
    obtain ⟨old, hold, ⟨-, -, hseats⟩ | ⟨-, -, hseats⟩ | ⟨-, -, pipe, -, hseats⟩⟩ := seat_frame hseat
    · rw [hseats]
      exact h v old hold
    · rw [hseats]
      exact h v old hold
    · exact ⟨_, hseats⟩
  | captureFailed now =>
    obtain rfl := Option.some.inj hnext
    exact h
  | tabs active =>
    obtain rfl := Option.some.inj hnext
    obtain ⟨⟨hflow, hseats, -⟩, -⟩ := updateCapture_spec { s with active }
    intro v seat hseat
    rw [tabs, hflow] at hseat
    rw [tabs, hseats]
    exact h v seat hseat
  | tick now =>
    obtain rfl := handle_tick hnext
    obtain ⟨⟨hflow, hseats, -⟩, -⟩ := tick_spec s now
    intro v seat hseat
    rw [hflow] at hseat
    rw [hseats]
    exact h v seat hseat

/-! ### Captures -/

theorem captures_same (h : Captures s) (hempty : t.flow.isEmpty = s.flow.isEmpty) (hactive : t.active = s.active)
    (hcapturing : t.capturing = s.capturing) (hfailed : t.captureFailedAt = s.captureFailedAt) : Captures t := by
  rw [Captures, hcapturing, hfailed, wanted_congr hempty hactive]
  exact h

variable {refused : List String}

/-- A frame that leaves someone leaves the flow in use, and a flow that no one uses stays so. -/
theorem captures_frame {key : Bool} {bytes : Nat} (h : Captures s)
    (hleaves : LeavesOne s (.frame key bytes now refused)) : Captures (s.frame key bytes now refused) := by
  obtain ⟨⟨hactive, hcapturing, hfailed, -⟩, -, hflow, -⟩ := frame_spec s key bytes now refused
  have hnone : (s.frame key bytes now refused).wanted ≠ none → s.wanted ≠ none := by
    intro hwanted hnone
    refine hwanted ?_
    rw [wanted, hactive]
    rw [wanted] at hnone
    by_cases hempty : s.flow.isEmpty = true
    · have hall := isEmpty_iff.mp hempty
      have hempty' : (s.frame key bytes now refused).flow.isEmpty = true := by
        refine isEmpty_iff.mpr fun v => ?_
        cases hseat : (s.frame key bytes now refused).flow.seats[v]? with
        | none => rfl
        | some seat' =>
          obtain ⟨seat, hseat, -⟩ := seat_frame hseat
          rw [hall v] at hseat
          cases hseat
      rw [if_pos hempty']
    · rw [if_neg hempty] at hnone
      rw [hnone, ite_self]
  rw [Captures, hcapturing, hfailed]
  rcases h with h | h
  · refine .inl ?_
    by_cases hcaptures : s.capturing = none
    · rw [hcaptures]
      by_contra hwanted
      exact hnone (fun h => hwanted h.symm) (h.symm.trans hcaptures)
    · obtain ⟨v, seat, hseat, hstays⟩ := hleaves hcaptures
      have hin : (s.frame key bytes now refused).flow.isEmpty = false := by
        refine Bool.not_eq_true _ ▸ fun hempty => ?_
        have hv := hflow v
        rw [isEmpty_iff.mp hempty v, hseat, Option.bind_some, Seat.kept, if_neg hstays] at hv
        split at hv <;> cases hv
      have hwas : s.flow.isEmpty = false := by
        refine Bool.not_eq_true _ ▸ fun hempty => ?_
        rw [isEmpty_iff.mp hempty v] at hseat
        cases hseat
      rw [wanted_congr (hin.trans hwas.symm) hactive]
      exact h
  · exact .inr h

theorem captures_handle (h : Captures s) (hleaves : LeavesOne s e) (hnext : s.handle e = some t) : Captures t := by
  cases e with
  | join viewer number =>
    obtain rfl := Option.some.inj hnext
    exact captures_same h rfl rfl rfl rfl
  | watch viewer now =>
    obtain rfl := Option.some.inj hnext
    exact (watch_spec s viewer now).2
  | ack viewer frame now =>
    obtain rfl := Option.some.inj hnext
    refine captures_same h ?_ rfl rfl rfl
    refine Bool.eq_iff_iff.mpr ?_
    rw [Flow.isEmpty, Flow.isEmpty, isEmpty_iff, isEmpty_iff]
    refine forall_congr' fun v => ?_
    rw [ack_seat]
    split
    · exact Option.map_eq_none_iff
    · exact Iff.rfl
  | keyframe now =>
    obtain rfl := Option.some.inj hnext
    obtain ⟨hflow, -, -, -, hactive, hcapturing, hfailed⟩ := keyframe_spec s now
    refine captures_same h ?_ hactive hcapturing hfailed
    rw [Flow.isEmpty, hflow]
    rfl
  | leave viewer number =>
    obtain rfl := Option.some.inj hnext
    rcases leave_spec s viewer number with hs | ⟨-, hcaptures⟩
    · rwa [hs]
    · exact hcaptures
  | touch now =>
    obtain rfl := Option.some.inj hnext
    exact captures_same h rfl rfl rfl rfl
  | frame key bytes now refused =>
    obtain rfl := Option.some.inj hnext
    exact captures_frame h hleaves
  | captureFailed now =>
    obtain rfl := Option.some.inj hnext
    exact .inr ⟨rfl, rfl⟩
  | tabs active =>
    obtain rfl := Option.some.inj hnext
    exact (updateCapture_spec { s with active }).2
  | tick now =>
    obtain rfl := handle_tick hnext
    exact (tick_spec s now).2 h

/-! ### Streams -/

theorem decodes_nil : Decodes [] := ⟨fun _ h => (nomatch h), .nil⟩

/-- A key frame goes on any stream, and another frame on one that ends with the frame before it. -/
theorem Decodes.push {frames : List Shown} {shown : Shown} (h : Decodes frames)
    (hnext : shown.key = true ∨ frames ≠ [] ∧ ∀ last ∈ frames.getLast?, shown.made = last.made + 1) :
    Decodes (frames ++ [shown]) := by
  refine ⟨fun first hfirst => ?_, List.isChain_append.mpr ⟨h.2, .singleton _, fun a ha b hb => ?_⟩⟩
  · cases frames with
    | nil =>
      obtain rfl := Option.some.inj hfirst
      rcases hnext with hkey | ⟨hne, -⟩
      · exact hkey
      · exact absurd rfl hne
    | cons head rest => exact h.1 first hfirst
  · obtain rfl := Option.some.inj hb
    rcases hnext with hkey | ⟨-, hlast⟩
    · exact .inl hkey
    · exact .inr (hlast a ha)

theorem ack_live (seat : Seat) (frame : UInt32) (now : Nat) : (seat.ack frame now).live = seat.live := by
  rw [Seat.ack]
  generalize Seat.ackFrom frame seat.sent seat.waiting none = acked
  obtain ⟨sent, waiting, newest⟩ := acked
  cases newest with
  | none => rfl
  | some at' =>
    simp only [Seat.measure]
    split <;> rfl

/-- A stream with the next frame of the window decodes. -/
theorem Streams.push {key : Bool} {bytes now : Nat} {refused : List String} (h : Streams s)
    (hfresh : Fresh s (.frame key bytes now refused)) {v : String} {pipe : Pipe} (hpipe : s.seats[v]? = some pipe)
    (hsent : v ∈ s.flow.having (s.nextFrame + 1) key bytes now (· == .sent)) (htaken : v ∉ refused) :
    Decodes (pipe.frames ++ [s.shownNext key]) := by
  obtain ⟨seat, hseat, hsent⟩ := mem_having.mp hsent
  refine (h.pipes v pipe hpipe).push ?_
  rcases seat.frame_cases (s.nextFrame + 1) key bytes now with ⟨-, hbehind | hbehind, -⟩ | ⟨-, -, -, ⟨_, hwaits⟩, -⟩ |
    ⟨hwaiting, hkey | hlive, -⟩
  · rw [hbehind] at hsent
    cases hsent
  · rw [hbehind] at hsent
    cases hsent
  · rw [hwaits] at hsent
    cases hsent
  · exact .inl hkey
  · cases key with
    | true => exact .inl rfl
    | false =>
      obtain ⟨pipe', hpipe', hlast⟩ := h.live v seat hseat hlive
      obtain rfl := Option.some.inj (hpipe.symm.trans hpipe')
      refine .inr ⟨hfresh v seat pipe hseat hpipe hlive hwaiting htaken, fun last hmem => ?_⟩
      rw [hlast last hmem]
      rfl

theorem streams_frame {key : Bool} {bytes : Nat} (h : Streams s) (hfresh : Fresh s (.frame key bytes now refused)) :
    Streams (s.frame key bytes now refused) := by
  obtain ⟨⟨-, -, -, hmade⟩, hseats, -, hgone⟩ := frame_spec s key bytes now refused
  refine ⟨fun v pipe hpipe => ?_, fun frames hframes => ?_, fun v seat' hseat' hlive => ?_⟩
  · rw [hseats v] at hpipe
    split at hpipe
    · cases hpipe
    · split at hpipe
      · rename_i hsent
        obtain ⟨old, hold, rfl⟩ := Option.map_eq_some_iff.mp hpipe
        exact h.push hfresh hold hsent.1 hsent.2
      · exact h.pipes v pipe hpipe
  · rcases hgone frames hframes with hold | ⟨v, pipe, hpipe, rfl | ⟨hsent, htaken, rfl⟩⟩
    · exact h.gone frames hold
    · exact h.pipes v pipe hpipe
    · exact h.push hfresh hpipe hsent htaken
  · obtain ⟨seat, hseat, ⟨hnot, rfl, -⟩ | ⟨-, rfl, -⟩ | ⟨-, -, pipe, -, hpipe⟩⟩ := seat_frame hseat'
    · -- A seat to which nothing was sent is not live.
      rcases seat.frame_cases (s.nextFrame + 1) key bytes now with ⟨-, -, hdead, -⟩ | ⟨-, -, -, -, hdead, -⟩ |
        ⟨-, -, hsent, -⟩
      · rw [hdead] at hlive
        cases hlive
      · rw [hdead] at hlive
        cases hlive
      · exact absurd hsent hnot
    · cases hlive
    · refine ⟨_, hpipe, fun last hlast => ?_⟩
      obtain rfl := Option.some.inj (List.getLast?_concat.symm.trans hlast)
      exact hmade.symm

/-- A window with the same pipes and frames, whose seats are no more live than they were, has streams that decode. -/
theorem streams_same (h : Streams s) (hseats : t.seats = s.seats) (hgone : t.gone = s.gone) (hmade : t.made = s.made)
    (hlive : ∀ (v : String) (seat : Seat), t.flow.seats[v]? = some seat → seat.live = true →
      ∃ old, s.flow.seats[v]? = some old ∧ old.live = true) : Streams t := by
  refine ⟨by rw [hseats]; exact h.pipes, by rw [hgone]; exact h.gone, fun v seat hseat hl => ?_⟩
  obtain ⟨old, hold, hl⟩ := hlive v seat hseat hl
  rw [hseats, hmade]
  exact h.live v old hold hl

theorem streams_gone (h : Streams s) (viewer : String) : ∀ frames ∈ s.gone ++ s.framesOf viewer, Decodes frames := by
  intro frames hframes
  rcases List.mem_append.mp hframes with hold | hold
  · exact h.gone frames hold
  · obtain ⟨pipe, hpipe, rfl⟩ := Option.map_eq_some_iff.mp (Option.mem_toList.mp hold)
    exact h.pipes viewer pipe hpipe

theorem streams_handle (h : Streams s) (hfresh : Fresh s e) (hnext : s.handle e = some t) : Streams t := by
  cases e with
  | join viewer number =>
    obtain rfl := Option.some.inj hnext
    refine ⟨fun v pipe hpipe => ?_, streams_gone h viewer, fun v seat hseat hlive => ?_⟩
    · rw [join, getElem?_insert_viewer] at hpipe
      split at hpipe
      · obtain rfl := Option.some.inj hpipe
        exact decodes_nil
      · exact h.pipes v pipe hpipe
    · rw [join, getElem?_insert_viewer]
      split
      · exact ⟨_, rfl, fun _ hlast => nomatch hlast⟩
      · exact h.live v seat hseat hlive
  | watch viewer now =>
    obtain rfl := Option.some.inj hnext
    obtain ⟨⟨hflow, hseats, hgone, hmade⟩, -⟩ := watch_spec s viewer now
    refine streams_same h hseats hgone hmade fun v seat hseat hlive => ?_
    rw [hflow, seat_seat] at hseat
    split at hseat
    · obtain rfl := Option.some.inj hseat
      cases hlive
    · exact ⟨seat, hseat, hlive⟩
  | ack viewer frame now =>
    obtain rfl := Option.some.inj hnext
    refine streams_same h rfl rfl rfl fun v seat hseat hlive => ?_
    rw [ack_seat] at hseat
    split at hseat
    · obtain ⟨old, hold, rfl⟩ := Option.map_eq_some_iff.mp hseat
      exact ⟨old, hold, (ack_live old frame now).symm.trans hlive⟩
    · exact ⟨seat, hseat, hlive⟩
  | keyframe now =>
    obtain rfl := Option.some.inj hnext
    obtain ⟨hflow, hseats, hgone, hmade, -⟩ := keyframe_spec s now
    exact streams_same h hseats hgone hmade fun v seat hseat hlive => ⟨seat, by rwa [hflow] at hseat, hlive⟩
  | leave viewer number =>
    obtain rfl := Option.some.inj hnext
    rcases leave_spec s viewer number with hs | ⟨⟨hflow, hseats, hgone, hmade⟩, -⟩
    · rwa [hs]
    · refine ⟨fun v pipe hpipe => ?_, by rw [hgone]; exact streams_gone h viewer, fun v seat hseat hlive => ?_⟩
      · rw [hseats, getElem?_erase_viewer] at hpipe
        split at hpipe
        · cases hpipe
        · exact h.pipes v pipe hpipe
      · rw [hflow, leave_seat] at hseat
        rw [hseats, hmade, getElem?_erase_viewer]
        split at hseat
        · cases hseat
        · rename_i hv
          rw [if_neg hv]
          exact h.live v seat hseat hlive
  | touch now =>
    obtain rfl := Option.some.inj hnext
    exact ⟨h.pipes, h.gone, h.live⟩
  | frame key bytes now refused =>
    obtain rfl := Option.some.inj hnext
    exact streams_frame h hfresh
  | captureFailed now =>
    obtain rfl := Option.some.inj hnext
    exact ⟨h.pipes, h.gone, h.live⟩
  | tabs active =>
    obtain rfl := Option.some.inj hnext
    obtain ⟨⟨hflow, hseats, hgone, hmade⟩, -⟩ := updateCapture_spec { s with active }
    exact streams_same h hseats hgone hmade fun v seat hseat hlive => ⟨seat, by rwa [tabs, hflow] at hseat, hlive⟩
  | tick now =>
    obtain rfl := handle_tick hnext
    obtain ⟨⟨hflow, hseats, hgone, hmade⟩, -⟩ := tick_spec s now
    exact streams_same h hseats hgone hmade fun v seat hseat hlive => ⟨seat, by rwa [hflow] at hseat, hlive⟩

/-! ### Runs -/

theorem no_seat (now : Nat) (v : String) (seat : Seat) (h : (new now).flow.seats[v]? = some seat) : False := by
  have hempty : (new now).flow.seats[v]? = none := Std.ExtTreeMap.getElem?_empty
  rw [hempty] at h
  cases h

/-- In every run what waits for a viewer is what its frames on the way have, and never less than nothing. In every run
    whose events keep to it, each pipe has a stream that decodes, each seat has a pipe, and the window captures while
    someone watches. -/
theorem window_streams {now : Nat} :
    (∀ {es : List Event} {s : Live}, Run (fun s e t => s.handle e = some t) (new now) es s →
      ∀ (v : String) (seat : Seat), s.flow.seats[v]? = some seat → seat.Counted ∧ 0 ≤ seat.waiting) ∧
    (∀ {es : List Event} {s : Live}, Run (Guarded Fresh fun s e t => s.handle e = some t) (new now) es s →
      (∀ (v : String) (pipe : Pipe), s.seats[v]? = some pipe → Decodes pipe.frames) ∧
        ∀ frames ∈ s.gone, Decodes frames) ∧
    (∀ {es : List Event} {s : Live}, Run (Guarded FromPipe fun s e t => s.handle e = some t) (new now) es s → Piped s) ∧
    ∀ {es : List Event} {s : Live}, Run (Guarded LeavesOne fun s e t => s.handle e = some t) (new now) es s →
      Captures s := by
  refine ⟨fun hrun v seat hseat => ?_, fun {es s} hrun => ?_, fun hrun => ?_, fun hrun => ?_⟩
  · have hcounts := hrun.invariant (I := Counts) (fun h hnext => counts_handle h hnext) fun v seat hseat =>
      (no_seat now v seat hseat).elim
    exact ⟨hcounts v seat hseat, Seat.Counted.nonneg (hcounts v seat hseat)⟩
  · have hstreams : Streams s := by
      refine hrun.invariant (I := Streams) (fun h hnext => streams_handle h hnext.1 hnext.2)
        ⟨fun v pipe hpipe => ?_, fun _ h => ?_, fun v seat hseat => (no_seat now v seat hseat).elim⟩
      · have hempty : (new now).seats[v]? = none := Std.ExtTreeMap.getElem?_empty
        rw [hempty] at hpipe
        cases hpipe
      · exact absurd h List.not_mem_nil
    exact ⟨hstreams.pipes, hstreams.gone⟩
  · exact hrun.invariant (I := Piped) (fun h hnext => piped_handle h hnext.1 hnext.2) fun v seat hseat =>
      (no_seat now v seat hseat).elim
  · exact hrun.invariant (I := Captures) (fun h hnext => captures_handle h hnext.1 hnext.2) (.inl rfl)

/-- A viewer joins, watches and gets its first key frame. -/
theorem window_streams_watched : ∃ s : Live,
    [.tabs (some 1), .join "a" 1, .watch "a" 0, .frame true 10 0 []].foldlM handle (new 0) = some s ∧
    (∀ (v : String) (seat : Seat), s.flow.seats[v]? = some seat → seat.Counted ∧ 0 ≤ seat.waiting) ∧
    (∀ (v : String) (pipe : Pipe), s.seats[v]? = some pipe → Decodes pipe.frames) ∧ Piped s ∧ Captures s := by
  let joined := ((new 0).tabs (some 1)).join "a" 1
  have hpipe : ∃ pipe, joined.seats["a"]? = some pipe := ⟨_, (getElem?_insert_viewer "a" "a" _).trans (if_pos rfl)⟩
  have hseat : (joined.watch "a" 0).flow.seats["a"]? = some (.new 0) := by
    rw [(watch_spec joined "a" 0).1.1, seat_seat, if_pos rfl]
  have hguarded : ∀ {guard : Live → Event → Prop}, guard (new 0) (.tabs (some 1)) → guard ((new 0).tabs (some 1)) (.join "a" 1) →
      guard joined (.watch "a" 0) → guard (joined.watch "a" 0) (.frame true 10 0 []) →
      Run (Guarded guard fun s e t => s.handle e = some t) (new 0)
        [.tabs (some 1), .join "a" 1, .watch "a" 0, .frame true 10 0 []] ((joined.watch "a" 0).frame true 10 0 []) :=
    fun htabs hjoin hwatch hframe =>
      Run.trans (Run.single_iff.mpr ⟨htabs, rfl⟩) (.trans (Run.single_iff.mpr ⟨hjoin, rfl⟩)
        (.trans (Run.single_iff.mpr ⟨hwatch, rfl⟩) (Run.single_iff.mpr ⟨hframe, rfl⟩)))
  have hfresh := @hguarded Fresh trivial trivial trivial trivial
  have hleaves : LeavesOne (joined.watch "a" 0) (.frame true 10 0 []) := fun _ => ⟨"a", .new 0, hseat, by decide⟩
  exact ⟨_, rfl, (@window_streams 0).1 hfresh.unguard, ((@window_streams 0).2.1 hfresh).1,
    (@window_streams 0).2.2.1 (@hguarded FromPipe trivial trivial hpipe trivial),
    (@window_streams 0).2.2.2 (@hguarded LeavesOne trivial trivial trivial hleaves)⟩

/-- A viewer that comes back on a new pipe gets a frame on it that no key frame precedes; a watch seats a viewer without
    a pipe; and a window goes on capturing when a frame drops its last viewer. -/
theorem window_streams_broken :
    (∃ s, [.join "a" 1, .watch "a" 0, .frame true 10 0 [], .join "a" 2, .frame false 10 0 []].foldlM handle (new 0) = some s ∧
      ∃ (v : String) (pipe : Pipe), s.seats[v]? = some pipe ∧ ¬ Decodes pipe.frames) ∧
    (∃ s, [.watch "a" 0].foldlM handle (new 0) = some s ∧ ¬ Piped s) ∧
    ∃ s, [.tabs (some 1), .join "a" 1, .watch "a" 0, .frame true 3000000 0 [], .frame false 10 0 [],
      .frame false 10 (15 * SECOND) []].foldlM handle (new 0) = some s ∧ ¬ Captures s := by
  refine ⟨⟨_, rfl, "a", ⟨2, [⟨2, false, 2⟩]⟩, ?_, fun h => ?_⟩, ⟨_, rfl, fun h => ?_⟩, ⟨_, rfl, fun h => ?_⟩⟩
  · decide +kernel
  · exact absurd (h.1 _ rfl) Bool.false_ne_true
  · obtain ⟨pipe, hpipe⟩ := h "a" (.new 0) ((getElem?_insert_viewer "a" "a" _).trans (if_pos rfl))
    exact Option.some_ne_none pipe (hpipe.symm.trans (by decide))
  · rw [Captures] at h
    revert h
    decide +kernel

end Kodosi.Browser.Live
