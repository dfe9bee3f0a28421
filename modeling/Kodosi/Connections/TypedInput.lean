import Kodosi.Lib.Run

/-! What a person types at a terminal of another computer: the viewer sends it in pieces with their offsets, the host
    gives each piece to its terminal and confirms it when the terminal took it. -/

namespace Kodosi.Connections.TypedInput
open Kodosi.Lib

abbrev Bytes := List UInt8

/-- How much of the input may wait for its confirmation before the viewer takes no more, and before the host gives
    the connection up. -/
def VIEWER_UNCONFIRMED_INPUT : Nat := 64 * 1024
def HOST_UNCONFIRMED_INPUT : Nat := 256 * 1024

def LATE_HEARTBEATS : UInt32 := 2
def INPUT_NOT_SENT : String := "Kodosi did not send some of your last input."
def CLOSED : String := "The connection has closed."

/-- What the viewer sends: input, or anything else, such as controls, pictures and their parts. -/
inductive ViewerFrame where
  | input (offset : Nat) (heartbeat : UInt32) (bytes : Bytes)
  | other

/-- What the host sends. -/
inductive HostFrame where
  | inputAck (offset : Nat)
  | heartbeat (number : UInt32)
  | keyframe (more : Bool)
  | ended
  | other

/-- How a send ends. One that fails may have reached the other side all the same. -/
inductive Sent where
  | through
  | failed (reaches : Bool)

def Sent.reaches : Sent → Bool
  | .through => true
  | .failed reaches => reaches

def Sent.fails : Sent → Bool
  | .through => false
  | .failed _ => true

/-! ### The two sides -/

/-- The view of the terminal. What it told when its connection ended is there with the reason of the end. Behind the
    program's own fields stand the bytes of the inputs that it gave to the channel, those of the inputs whose send went
    through, and the last offset that the host confirmed. -/
structure Viewer where
  started : Bool
  ended : Bool
  heartbeat : UInt32
  inputSent : Nat
  inputConfirmed : Nat
  closed : Bool
  told : Option (String × String)
  given : Bytes
  sent : Bytes
  confirmed : Nat

/-- The host's side. `inputs` are the ends of the inputs that the terminal has not answered, in their order; behind the
    program's own fields stand the bytes that it gave to the terminal, and the offsets that it confirmed. -/
structure Host where
  heartbeat : UInt32
  inputOffset : Nat
  inputConfirmed : Nat
  inputs : List Nat
  closed : Bool
  submitted : Bytes
  acks : List Nat

structure System where
  viewer : Viewer
  host : Host
  toHost : List ViewerFrame
  toViewer : List HostFrame

def System.start : System where
  viewer := ⟨false, false, 0, 0, 0, false, none, [], [], 0⟩
  host := ⟨0, 0, 0, [], false, [], []⟩
  toHost := []
  toViewer := []

/-! ### The viewer -/

namespace Viewer

def unconfirmed (v : Viewer) (reason : String) : String :=
  match v.inputSent - v.inputConfirmed with
  | 0 => reason
  | _ => reason ++ " " ++ INPUT_NOT_SENT

/-- The connection ends, and the view is told why. -/
def close (v : Viewer) (reason : String) : Viewer :=
  { v with closed := true, told := some (reason, v.unconfirmed reason) }

end Viewer

namespace System

/-- A frame of the viewer that is no input. -/
def viewerSends (s : System) (sends : Sent) (reason : String) : System :=
  { s with
    toHost := if sends.reaches then s.toHost ++ [.other] else s.toHost
    viewer := if sends.fails then s.viewer.close reason else s.viewer }

/-- A request with input. It is only taken while not too much of the input waits for its confirmation. -/
def request (s : System) (bytes : Bytes) (encodes : Bool) (sends : Sent) (reason : String) : System :=
  let v := s.viewer
  if VIEWER_UNCONFIRMED_INPUT ≤ v.inputSent - v.inputConfirmed then s
  else if !v.started then s
  else if bytes = [] then s
  else if !encodes then s
  else
    let frame := ViewerFrame.input v.inputSent v.heartbeat bytes
    let s : System := if sends.reaches then
        { s with toHost := s.toHost ++ [frame], viewer := { v with given := v.given ++ bytes } }
      else s
    if sends.fails then { s with viewer := s.viewer.close reason }
    else { s with viewer := { s.viewer with inputSent := v.inputSent + bytes.length, sent := v.sent ++ bytes } }

/-- A frame of the host. `fine` says whether the rest of its handling goes well: a snapshot that reads, a view that
    takes the update, an answer that goes out. -/
def viewerReceives (s : System) (fine : Bool) (reason : String) : System :=
  match s.toViewer with
  | [] => s
  | frame :: rest =>
    let s : System := { s with toViewer := rest }
    let v := s.viewer
    match frame with
    | .inputAck offset =>
      if offset < v.inputConfirmed ∨ v.inputSent < offset then
        { s with viewer := v.close "The host confirmed input that was not sent." }
      else { s with viewer := { v with inputConfirmed := offset, confirmed := offset } }
    | .heartbeat number =>
      let v := { v with heartbeat := number }
      if fine then { s with viewer := v, toHost := s.toHost ++ [.other] } else { s with viewer := v.close reason }
    | .keyframe more =>
      if !fine then { s with viewer := v.close reason }
      else { s with viewer := if more then v else { v with started := true } }
    | .ended => { s with viewer := { v with ended := true, inputConfirmed := v.inputSent }.close CLOSED }
    | .other => if fine then s else { s with viewer := v.close reason }

/-! ### The host -/

/-- A frame that the host sends, other than the confirmation of input. -/
def hostSends (s : System) (frame : HostFrame) (sends : Sent) : System :=
  { s with
    toViewer := if sends.reaches then s.toViewer ++ [frame] else s.toViewer
    host := { s.host with closed := s.host.closed || sends.fails } }

/-- The terminal answers the first input that waits. -/
def answered (s : System) (accepted : Bool) (sends : Sent) : System :=
  match s.host.inputs with
  | [] => s
  | offset :: rest =>
    let h := { s.host with inputs := rest }
    if !accepted then { s with host := { h with closed := true } }
    else
      { s with host := { h with inputConfirmed := offset, acks := h.acks ++ [offset] } }.hostSends (.inputAck offset) sends

/-- A frame of the viewer. `fine` says whether the terminal takes an input, and whether the handling of any other frame
    goes well. -/
def hostReceives (s : System) (fine : Bool) : System :=
  match s.toHost with
  | [] => s
  | frame :: rest =>
    let s : System := { s with toHost := rest }
    let h := s.host
    match frame with
    | .input offset heartbeat bytes =>
      if offset ≠ h.inputOffset ∨ HOST_UNCONFIRMED_INPUT < h.inputOffset - h.inputConfirmed then
        { s with host := { h with closed := true } }
      else if LATE_HEARTBEATS < h.heartbeat - heartbeat then { s with host := { h with closed := true } }
      else
        let h := { h with inputOffset := h.inputOffset + bytes.length }
        if !fine then { s with host := { h with closed := true } }
        else { s with host := { h with inputs := h.inputs ++ [h.inputOffset], submitted := h.submitted ++ bytes } }
    | .other => if fine then s else { s with host := { h with closed := true } }

end System

/-! ### Runs -/

inductive Event where
  | viewerSends (sends : Sent) (reason : String)
  | request (bytes : Bytes) (encodes : Bool) (sends : Sent) (reason : String)
  | viewerReceives (fine : Bool) (reason : String)
  /-- The viewer's connection fails, or ends in another way; when the viewer itself cancels it, nobody is told. -/
  | viewerEnds (reason : String)
  | viewerCancelled
  | hostReceives (fine : Bool)
  | answered (accepted : Bool) (sends : Sent)
  | heartbeat (sends : Sent)
  /-- A part of a snapshot, or any other frame. -/
  | keyframe (more : Bool) (sends : Sent)
  | hostSends (sends : Sent)
  /-- The terminal ends. -/
  | ended (sends : Sent)
  | hostFails

namespace System

/-- One event. A side whose connection is over does nothing more; a frame on its way may arrive or not. -/
def step (s : System) : Event → System
  | .viewerSends sends reason => if s.viewer.closed then s else s.viewerSends sends reason
  | .request bytes encodes sends reason => if s.viewer.closed then s else s.request bytes encodes sends reason
  | .viewerReceives fine reason => if s.viewer.closed then s else s.viewerReceives fine reason
  | .viewerEnds reason => if s.viewer.closed then s else { s with viewer := s.viewer.close reason }
  | .viewerCancelled => if s.viewer.closed then s else { s with viewer := { s.viewer with closed := true } }
  | .hostReceives fine => if s.host.closed then s else s.hostReceives fine
  | .answered accepted sends => if s.host.closed then s else s.answered accepted sends
  | .heartbeat sends =>
    if s.host.closed then s
    else { s with host := { s.host with heartbeat := s.host.heartbeat + 1 } }.hostSends
      (.heartbeat (s.host.heartbeat + 1)) sends
  | .keyframe more sends => if s.host.closed then s else s.hostSends (.keyframe more) sends
  | .hostSends sends => if s.host.closed then s else s.hostSends .other sends
  | .ended sends =>
    if s.host.closed then s
    else
      let s := s.hostSends .ended sends
      { s with host := { s.host with closed := true } }
  | .hostFails => { s with host := { s.host with closed := true } }

def Next (s : System) (event : Event) (s' : System) : Prop := s' = s.step event

end System

/-! ### What every run keeps -/

/-- The bytes of the inputs on their way. -/
def inFlight (frames : List ViewerFrame) : Bytes :=
  frames.flatMap fun
    | .input _ _ bytes => bytes
    | .other => []

theorem inFlight_snoc (frames : List ViewerFrame) (frame : ViewerFrame) :
    inFlight (frames ++ [frame]) = inFlight frames ++ inFlight [frame] := by
  rw [inFlight, List.flatMap_append]
  rfl

/-- What the viewer counts, and what it tells. -/
structure Viewer.Holds (v : Viewer) : Prop where
  counts : v.closed = false → v.inputSent = v.sent.length ∧ v.inputConfirmed = v.confirmed ∧ v.ended = false
  given : v.closed = false → v.given = v.sent
  untold : v.closed = false → v.told = none
  sent : v.sent <+: v.given
  confirmed : v.confirmed ≤ v.sent.length
  counted : v.inputConfirmed ≤ v.inputSent
  told : ∀ reason text, v.told = some (reason, text) →
    text = if ¬v.ended ∧ v.confirmed < v.sent.length then reason ++ " " ++ INPUT_NOT_SENT else reason

/-- The host's side, and the frames between the two. -/
structure System.Holds (s : System) : Prop where
  viewer : s.viewer.Holds
  given : s.host.closed = false → s.viewer.given = s.host.submitted ++ inFlight s.toHost
  submitted : s.host.submitted <+: s.viewer.given
  offset : s.host.closed = false → s.host.inputOffset = s.host.submitted.length
  inputs : ∀ e ∈ s.host.inputs, e ≤ s.host.submitted.length
  acks : ∀ o ∈ s.host.acks, o ≤ s.host.submitted.length
  coming : ∀ o, HostFrame.inputAck o ∈ s.toViewer → o ≤ s.host.submitted.length
  confirmed : s.viewer.confirmed ≤ s.host.submitted.length
  counted : s.host.inputConfirmed ≤ s.host.submitted.length

section

variable {v : Viewer} {s : System}

theorem unconfirmed_eq (h : v.inputSent = v.sent.length) (h' : v.inputConfirmed = v.confirmed) (reason : String) :
    v.unconfirmed reason = if v.confirmed < v.sent.length then reason ++ " " ++ INPUT_NOT_SENT else reason := by
  unfold Viewer.unconfirmed
  rw [h, h']
  cases hrest : v.sent.length - v.confirmed with
  | zero => exact (if_neg (by omega)).symm
  | succ n => exact (if_pos (by omega)).symm

/-- The viewer's connection ends without the host's end. -/
theorem Viewer.Holds.close (h : v.Holds) (hopen : v.closed = false) {given : Bytes} (hgiven : v.given <+: given)
    (reason : String) : ({ v with given } : Viewer).close reason |>.Holds := by
  obtain ⟨hsent, hconfirmed, hended⟩ := h.counts hopen
  refine ⟨nofun, nofun, nofun, h.sent.trans hgiven, h.confirmed, h.counted, ?_⟩
  rintro _ _ ⟨⟩
  have htext := unconfirmed_eq (v := { v with given }) hsent hconfirmed reason
  rw [htext]
  simp only [Viewer.close, hended, Bool.false_eq_true, not_false_eq_true, true_and]

theorem Viewer.Holds.close' (h : v.Holds) (hopen : v.closed = false) (reason : String) : (v.close reason).Holds :=
  h.close hopen (List.prefix_refl _) reason

/-- What becomes of a system whose viewer alone changes, and neither in what it gave nor in what it holds confirmed. -/
theorem System.Holds.viewer_only (h : s.Holds) {v' : Viewer} (hv : v'.Holds) (hgiven : v'.given = s.viewer.given)
    (hconfirmed : v'.confirmed = s.viewer.confirmed) : ({ s with viewer := v' } : System).Holds :=
  ⟨hv, fun hopen => hgiven.trans (h.given hopen), hgiven ▸ h.submitted, h.offset, h.inputs, h.acks, h.coming,
    hconfirmed ▸ h.confirmed, h.counted⟩

theorem System.Holds.host_closed (h : s.Holds) : ({ s with host := { s.host with closed := true } } : System).Holds :=
  ⟨h.viewer, nofun, h.submitted, nofun, h.inputs, h.acks, h.coming, h.confirmed, h.counted⟩

/-- A frame that is no input goes out of either side. -/
theorem System.Holds.other_sent (h : s.Holds) : ({ s with toHost := s.toHost ++ [.other] } : System).Holds := by
  refine ⟨h.viewer, fun hopen => ?_, h.submitted, h.offset, h.inputs, h.acks, h.coming, h.confirmed, h.counted⟩
  rw [inFlight_snoc]
  exact (h.given hopen).trans (by simp [inFlight])

theorem System.Holds.hostSends (h : s.Holds) {frame : HostFrame} {sends : Sent}
    (hframe : ∀ o, frame = .inputAck o → o ≤ s.host.submitted.length) : (s.hostSends frame sends).Holds := by
  have hcoming : ∀ o, HostFrame.inputAck o ∈ (s.hostSends frame sends).toViewer → o ≤ s.host.submitted.length := by
    intro o ho
    unfold System.hostSends at ho
    dsimp only at ho
    split at ho
    · rcases List.mem_append.mp ho with ho | ho
      · exact h.coming o ho
      · exact hframe o (List.mem_singleton.mp ho).symm
    · exact h.coming o ho
  have hopen : (s.hostSends frame sends).host.closed = false → s.host.closed = false :=
    fun hclosed => (Bool.or_eq_false_iff.mp hclosed).1
  exact ⟨h.viewer, fun hclosed => h.given (hopen hclosed), h.submitted, fun hclosed => h.offset (hopen hclosed),
    h.inputs, h.acks, hcoming, h.confirmed, h.counted⟩

theorem System.Holds.viewerSends (h : s.Holds) (hopen : s.viewer.closed = false) (sends : Sent) (reason : String) :
    (s.viewerSends sends reason).Holds := by
  have hclosed : ∀ s : System, s.Holds → s.viewer.closed = false →
      ({ s with viewer := if sends.fails then s.viewer.close reason else s.viewer } : System).Holds := by
    intro s h hopen
    cases sends.fails with
    | true => exact h.viewer_only (h.viewer.close' hopen reason) rfl rfl
    | false => exact h
  unfold System.viewerSends
  cases sends.reaches with
  | true => exact hclosed _ h.other_sent hopen
  | false => exact hclosed _ h hopen

theorem System.Holds.request (h : s.Holds) (hopen : s.viewer.closed = false) (bytes : Bytes) (encodes : Bool)
    (sends : Sent) (reason : String) : (s.request bytes encodes sends reason).Holds := by
  unfold System.request
  dsimp only
  split
  · exact h
  split
  · exact h
  split
  · exact h
  split
  · exact h
  obtain ⟨hsent, hconfirmed, hended⟩ := h.viewer.counts hopen
  have hgiven := h.viewer.given hopen
  -- what is with the host and on its way, with one more input
  have hmore : s.host.closed = false → s.viewer.given ++ bytes = s.host.submitted ++
      inFlight (s.toHost ++ [.input s.viewer.inputSent s.viewer.heartbeat bytes]) := by
    intro hhost
    rw [inFlight_snoc, h.given hhost, List.append_assoc]
    simp [inFlight]
  have hprefix : s.host.submitted <+: s.viewer.given ++ bytes := h.submitted.trans (List.prefix_append _ _)
  cases sends with
  | through =>
    simp only [Sent.reaches, Sent.fails, if_true, Bool.false_eq_true, if_false]
    refine ⟨⟨fun _ => ⟨?_, hconfirmed, hended⟩, fun _ => ?_, h.viewer.untold, ?_, ?_, ?_, ?_⟩, hmore, hprefix, h.offset, h.inputs,
      h.acks, h.coming, h.confirmed, h.counted⟩
    · rw [hsent, List.length_append]
    · rw [hgiven]
    · rw [hgiven]
    · rw [List.length_append]
      exact h.viewer.confirmed.trans (Nat.le_add_right _ _)
    · exact h.viewer.counted.trans (Nat.le_add_right _ _)
    · intro _ _ htold
      exact absurd htold (by simp [h.viewer.untold hopen])
  | failed reaches =>
    cases reaches with
    | true =>
      exact ⟨h.viewer.close hopen (List.prefix_append _ _) reason, hmore, hprefix, h.offset, h.inputs, h.acks, h.coming,
        h.confirmed, h.counted⟩
    | false => exact h.viewer_only (h.viewer.close' hopen reason) rfl rfl

theorem System.Holds.viewerReceives (h : s.Holds) (hopen : s.viewer.closed = false) (fine : Bool) (reason : String) :
    (s.viewerReceives fine reason).Holds := by
  unfold System.viewerReceives
  split
  · exact h
  · rename_i frame rest htoViewer
    have hrest : ({ s with toViewer := rest } : System).Holds :=
      ⟨h.viewer, h.given, h.submitted, h.offset, h.inputs, h.acks,
        fun o ho => h.coming o (htoViewer ▸ List.mem_cons_of_mem _ ho), h.confirmed, h.counted⟩
    obtain ⟨hsent, hconfirmed, hended⟩ := h.viewer.counts hopen
    dsimp only
    split
    · rename_i offset
      split
      · exact hrest.viewer_only (h.viewer.close' hopen _) rfl rfl
      · rename_i hoffset
        have hin : s.viewer.inputConfirmed ≤ offset ∧ offset ≤ s.viewer.inputSent := by omega
        have hcoming : offset ≤ s.host.submitted.length := h.coming offset (htoViewer ▸ List.mem_cons_self ..)
        refine ⟨⟨fun _ => ⟨hsent, rfl, hended⟩, h.viewer.given, h.viewer.untold, h.viewer.sent, hsent ▸ hin.2, hin.2, ?_⟩, hrest.given,
          hrest.submitted, hrest.offset, hrest.inputs, hrest.acks, hrest.coming, hcoming, hrest.counted⟩
        intro _ _ htold
        exact absurd htold (by simp [h.viewer.untold hopen])
    · rename_i number
      have hbeat : ({ s.viewer with heartbeat := number } : Viewer).Holds :=
        ⟨h.viewer.counts, h.viewer.given, h.viewer.untold, h.viewer.sent, h.viewer.confirmed, h.viewer.counted, h.viewer.told⟩
      split
      · exact (hrest.viewer_only hbeat rfl rfl).other_sent
      · exact hrest.viewer_only (hbeat.close' hopen reason) rfl rfl
    · rename_i more
      split
      · exact hrest.viewer_only (h.viewer.close' hopen reason) rfl rfl
      · split
        · exact hrest
        · refine hrest.viewer_only ?_ rfl rfl
          exact ⟨h.viewer.counts, h.viewer.given, h.viewer.untold, h.viewer.sent, h.viewer.confirmed, h.viewer.counted, h.viewer.told⟩
    · refine hrest.viewer_only ?_ rfl rfl
      refine ⟨nofun, nofun, nofun, h.viewer.sent, h.viewer.confirmed, le_rfl, ?_⟩
      rintro _ _ ⟨⟩
      have hnone : s.viewer.inputSent - s.viewer.inputSent = 0 := Nat.sub_self _
      simp only [Viewer.close, Viewer.unconfirmed, hnone, not_true_eq_false, false_and, if_false]
    · split
      · exact hrest
      · exact hrest.viewer_only (h.viewer.close' hopen reason) rfl rfl

theorem System.Holds.answered (h : s.Holds) (accepted : Bool) (sends : Sent) : (s.answered accepted sends).Holds := by
  unfold System.answered
  split
  · exact h
  · rename_i offset rest hinputs
    have hoffset : offset ≤ s.host.submitted.length := h.inputs offset (hinputs ▸ List.mem_cons_self ..)
    have hrest : ∀ e ∈ rest, e ≤ s.host.submitted.length :=
      fun e he => h.inputs e (hinputs ▸ List.mem_cons_of_mem _ he)
    dsimp only
    split
    · exact ⟨h.viewer, nofun, h.submitted, nofun, hrest, h.acks, h.coming, h.confirmed, h.counted⟩
    · refine System.Holds.hostSends ?_ fun o ho => (HostFrame.inputAck.inj ho) ▸ hoffset
      refine ⟨h.viewer, h.given, h.submitted, h.offset, hrest, fun o ho => ?_, h.coming, h.confirmed, hoffset⟩
      rcases List.mem_append.mp ho with ho | ho
      · exact h.acks o ho
      · exact (List.mem_singleton.mp ho) ▸ hoffset

theorem System.Holds.hostReceives (h : s.Holds) (hopen : s.host.closed = false) (fine : Bool) :
    (s.hostReceives fine).Holds := by
  unfold System.hostReceives
  split
  · exact h
  · rename_i frame rest htoHost
    have hgiven := h.given hopen
    have hoffset := h.offset hopen
    -- a host that gives up takes nothing of the frame
    have hends : ∀ host : Host, host.submitted = s.host.submitted → host.inputs = s.host.inputs →
        host.acks = s.host.acks → host.inputConfirmed = s.host.inputConfirmed →
        ({ s with toHost := rest, host := { host with closed := true } } : System).Holds := by
      intro host hsubmitted hinputs hacks hcounted
      refine ⟨h.viewer, nofun, ?_, nofun, ?_, ?_, ?_, ?_, ?_⟩
      all_goals simp only [hsubmitted, hinputs, hacks, hcounted]
      · exact h.submitted
      · exact h.inputs
      · exact h.acks
      · exact h.coming
      · exact h.confirmed
      · exact h.counted
    rw [htoHost] at hgiven
    dsimp only
    split
    · rename_i offset heartbeat bytes
      split
      · exact hends s.host rfl rfl rfl rfl
      split
      · exact hends s.host rfl rfl rfl rfl
      split
      · exact hends { s.host with inputOffset := s.host.inputOffset + bytes.length } rfl rfl rfl rfl
      · have hall : s.viewer.given = (s.host.submitted ++ bytes) ++ inFlight rest := by
          rw [hgiven, List.append_assoc]
          rfl
        have hle : s.host.submitted.length ≤ (s.host.submitted ++ bytes).length := by
          rw [List.length_append]
          exact Nat.le_add_right _ _
        refine ⟨h.viewer, fun _ => hall, ⟨_, hall.symm⟩, fun _ => ?_, fun e he => ?_, fun o ho => (h.acks o ho).trans hle,
          fun o ho => (h.coming o ho).trans hle, h.confirmed.trans hle, h.counted.trans hle⟩
        · rw [hoffset, List.length_append]
        · rcases List.mem_append.mp he with he | he
          · exact (h.inputs e he).trans hle
          · rw [List.mem_singleton.mp he, hoffset, List.length_append]
    · split
      · exact ⟨h.viewer, fun _ => hgiven, h.submitted, h.offset, h.inputs, h.acks, h.coming, h.confirmed, h.counted⟩
      · exact hends s.host rfl rfl rfl rfl

/-- Every event keeps what holds. -/
theorem System.Holds.step (h : s.Holds) (event : Event) : (s.step event).Holds := by
  cases event with
  | viewerSends sends reason =>
    unfold System.step
    cases hopen : s.viewer.closed with
    | true => exact h
    | false => exact h.viewerSends hopen sends reason
  | request bytes encodes sends reason =>
    unfold System.step
    cases hopen : s.viewer.closed with
    | true => exact h
    | false => exact h.request hopen bytes encodes sends reason
  | viewerReceives fine reason =>
    unfold System.step
    cases hopen : s.viewer.closed with
    | true => exact h
    | false => exact h.viewerReceives hopen fine reason
  | viewerEnds reason =>
    unfold System.step
    cases hopen : s.viewer.closed with
    | true => exact h
    | false => exact h.viewer_only (h.viewer.close' hopen reason) rfl rfl
  | viewerCancelled =>
    unfold System.step
    cases hopen : s.viewer.closed with
    | true => exact h
    | false =>
      refine h.viewer_only ?_ rfl rfl
      exact ⟨nofun, nofun, nofun, h.viewer.sent, h.viewer.confirmed, h.viewer.counted, h.viewer.told⟩
  | hostReceives fine =>
    unfold System.step
    cases hopen : s.host.closed with
    | true => exact h
    | false => exact h.hostReceives hopen fine
  | answered accepted sends =>
    unfold System.step
    cases s.host.closed with
    | true => exact h
    | false => exact h.answered accepted sends
  | heartbeat sends =>
    unfold System.step
    cases hopen : s.host.closed with
    | true => exact h
    | false =>
      refine System.Holds.hostSends ?_ nofun
      exact ⟨h.viewer, fun _ => h.given hopen, h.submitted, fun _ => h.offset hopen, h.inputs, h.acks, h.coming,
        h.confirmed, h.counted⟩
  | keyframe more sends =>
    unfold System.step
    cases s.host.closed with
    | true => exact h
    | false => exact h.hostSends nofun
  | hostSends sends =>
    unfold System.step
    cases s.host.closed with
    | true => exact h
    | false => exact h.hostSends nofun
  | ended sends =>
    unfold System.step
    cases s.host.closed with
    | true => exact h
    | false =>
      have hsent : (s.hostSends .ended sends).Holds := h.hostSends nofun
      exact hsent.host_closed
  | hostFails => exact h.host_closed

theorem System.Holds.start : System.start.Holds where
  viewer := ⟨fun _ => ⟨rfl, rfl, rfl⟩, fun _ => rfl, fun _ => rfl, List.prefix_refl _, le_rfl, le_rfl, nofun⟩
  given _ := rfl
  submitted := List.prefix_refl _
  offset _ := rfl
  inputs := nofun
  acks := nofun
  coming := nofun
  confirmed := le_rfl
  counted := le_rfl

/-- In every run, what the host gave to the terminal is a beginning of what the viewer gave to the channel; the host
    confirms no more than that, and the viewer holds no more confirmed; and the viewer whose connection ended tells that
    input was not sent exactly when the end was not the host's and some of the input that it sent was not confirmed. -/
theorem typed_once {events : List Event} (hrun : Run System.Next .start events s) :
    s.host.submitted <+: s.viewer.given ∧ s.viewer.sent <+: s.viewer.given ∧
      (∀ offset ∈ s.host.acks, offset ≤ s.host.submitted.length) ∧
      s.viewer.confirmed ≤ s.host.submitted.length ∧ s.viewer.confirmed ≤ s.viewer.sent.length ∧
      ∀ reason text, s.viewer.told = some (reason, text) →
        text = if ¬s.viewer.ended ∧ s.viewer.confirmed < s.viewer.sent.length then reason ++ " " ++ INPUT_NOT_SENT
          else reason := by
  have hholds : s.Holds := by
    refine hrun.invariant (I := System.Holds) (fun h hnext => ?_) System.Holds.start
    rw [hnext]
    exact h.step _
  exact ⟨hholds.submitted, hholds.viewer.sent, hholds.acks, hholds.confirmed, hholds.viewer.confirmed, hholds.viewer.told⟩

end

/-! ### A line that is typed -/

/-- The viewer starts, sends five bytes, the host submits them, its terminal takes them, and the viewer hears of it. -/
def typed : List Event :=
  [.keyframe false .through, .viewerReceives true "", .request [101, 120, 105, 116, 13] true .through "",
    .hostReceives true, .answered true .through, .viewerReceives true "", .viewerEnds CLOSED]

theorem run_of (events : List Event) : Run System.Next .start events (events.foldl System.step .start) :=
  Run.foldl System.step .start events

theorem line_typed : (typed.foldl System.step .start).host.submitted <+: (typed.foldl System.step .start).viewer.given :=
  (typed_once (run_of typed)).1

/-- The host's end comes before the terminal took the line, and the viewer tells of no input that was not sent. -/
theorem end_confirms : ¬∀ (events : List Event) (s : System), Run System.Next .start events s →
    ∀ reason text, s.viewer.told = some (reason, text) →
      (text = reason ++ " " ++ INPUT_NOT_SENT ↔ s.viewer.confirmed < s.viewer.sent.length) := by
  intro hclaim
  let events : List Event :=
    [.keyframe false .through, .viewerReceives true "", .request [101, 120, 105, 116, 13] true .through "",
      .ended .through, .viewerReceives true ""]
  have htold := hclaim events _ (run_of events) CLOSED CLOSED (by decide)
  exact absurd (htold.mpr (by decide)) (by decide)

end Kodosi.Connections.TypedInput
