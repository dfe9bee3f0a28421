import Kodosi.Browser.Window
import Kodosi.Lib.Run

/-! What the viewers of a window get: each pipe a stream that it can decode, each seat the count of its bytes on the way,
    and a capture while someone watches. -/

namespace Kodosi.Browser
open Kodosi.Lib

/-! ### Maps of viewers -/

section Maps

variable {V : Type} {m : Viewers V}

theorem isEmpty_iff : m.isEmpty = true ↔ ∀ viewer : String, m[viewer]? = none := by
  rw [Std.ExtTreeMap.isEmpty_iff]
  constructor
  · rintro rfl viewer
    exact Std.ExtTreeMap.getElem?_empty
  · intro h
    refine Std.ExtTreeMap.ext_getElem? fun viewer => ?_
    rw [h viewer, Std.ExtTreeMap.getElem?_empty]

theorem getElem?_erase_viewer (viewer v : String) : (m.erase viewer)[v]? = if v = viewer then none else m[v]? := by
  rw [Std.ExtTreeMap.getElem?_erase]
  by_cases h : v = viewer
  · subst h
    simp
  · rw [if_neg h, if_neg (by simpa using fun heq => h heq.symm)]

theorem getElem?_insert_viewer (viewer v : String) (a : V) :
    (m.insert viewer a)[v]? = if v = viewer then some a else m[v]? := by
  rw [Std.ExtTreeMap.getElem?_insert]
  by_cases h : v = viewer
  · subst h
    simp
  · rw [if_neg h, if_neg (by simpa using fun heq => h heq.symm)]

theorem getElem?_modify_viewer (viewer v : String) (f : V → V) :
    (m.modify viewer f)[v]? = if v = viewer then m[v]?.map f else m[v]? := by
  rw [Std.ExtTreeMap.getElem?_modify]
  by_cases h : v = viewer
  · subst h
    simp
  · rw [if_neg h, if_neg (by simpa using fun heq => h heq.symm)]

end Maps

variable {p : Outcome → Bool}

theorem mem_having {f : Flow} {id : UInt32} {key : Bool} {bytes now : Nat} {viewer : String} :
    viewer ∈ f.having id key bytes now p ↔
      ∃ seat, f.seats[viewer]? = some seat ∧ p (seat.frame id key bytes now).2 = true := by
  rw [Flow.having, Std.ExtTreeMap.mem_keys, Std.ExtTreeMap.mem_iff_isSome_getElem?, Std.ExtTreeMap.getElem?_filter']
  cases f.seats[viewer]? with
  | none => simp
  | some seat => simp [Option.filter]

theorem nodup_having {f : Flow} {id : UInt32} {key : Bool} {bytes now : Nat} :
    (f.having id key bytes now p).Nodup := Std.ExtTreeMap.nodup_keys

/-! ### One seat -/

/-- What waits is what the frames on their way have. -/
def Seat.Counted (s : Seat) : Prop := s.waiting = (s.sent.map fun sent => (sent.bytes : Int)).sum

/-- What one frame can be to a seat. -/
theorem Seat.frame_cases (s : Seat) (id : UInt32) (key : Bool) (bytes now : Nat) :
    (WAITING_MOST < s.waiting ∧ ((s.frame id key bytes now).2 = .behind ∨ (s.frame id key bytes now).2 = .hopeless) ∧
      (s.frame id key bytes now).1.live = false ∧ (s.frame id key bytes now).1.sent = s.sent ∧
      (s.frame id key bytes now).1.waiting = s.waiting) ∨
    (s.waiting ≤ WAITING_MOST ∧ key = false ∧ s.live = false ∧ (∃ wantsKey, (s.frame id key bytes now).2 = .waits wantsKey) ∧
      (s.frame id key bytes now).1.live = false ∧ (s.frame id key bytes now).1.sent = s.sent ∧
      (s.frame id key bytes now).1.waiting = s.waiting) ∨
    (s.waiting ≤ WAITING_MOST ∧ (key = true ∨ s.live = true) ∧ (s.frame id key bytes now).2 = .sent ∧
      (s.frame id key bytes now).1.sent = s.sent ++ [⟨id, bytes, now⟩] ∧
      (s.frame id key bytes now).1.waiting = s.waiting + bytes) := by
  rw [Seat.frame]
  by_cases hover : WAITING_MOST < s.waiting
  · rw [if_pos hover]
    refine .inl ⟨hover, ?_, rfl, rfl, rfl⟩
    by_cases hopeless : HOPELESS ≤ now - s.overSince.getD now
    · exact .inr (if_pos hopeless)
    · exact .inl (if_neg hopeless)
  · rw [if_neg hover]
    by_cases hwaits : key = false ∧ s.live = false
    · refine .inr (.inl ⟨Int.not_lt.mp hover, hwaits.1, hwaits.2, ?_⟩)
      rw [if_pos hwaits]
      exact ⟨⟨_, rfl⟩, hwaits.2, rfl, rfl⟩
    · refine .inr (.inr ⟨Int.not_lt.mp hover, ?_⟩)
      rw [if_neg hwaits]
      refine ⟨?_, rfl, rfl, rfl⟩
      cases key <;> simp_all

variable {s : Seat}

theorem Seat.counted_frame (h : s.Counted) (id : UInt32) (key : Bool) (bytes now : Nat) :
    (s.frame id key bytes now).1.Counted := by
  rcases s.frame_cases id key bytes now with ⟨-, -, -, hsent, hwaiting⟩ | ⟨-, -, -, -, -, hsent, hwaiting⟩ |
    ⟨-, -, -, hsent, hwaiting⟩
  · rw [Counted, hsent, hwaiting]
    exact h
  · rw [Counted, hsent, hwaiting]
    exact h
  · rw [Counted, hsent, hwaiting, List.map_append, List.sum_append, h]
    simp

theorem Seat.counted_lost (h : s.Counted) (id : UInt32) : (s.lost id).Counted := by
  rw [lost]
  cases hlast : s.sent.getLast? with
  | none => exact h
  | some last =>
    simp only
    split
    · obtain ⟨rest, hsent⟩ := List.getLast?_eq_some_iff.mp hlast
      rw [Counted, hsent, List.map_append, List.sum_append] at h
      simp only [Counted, hsent, List.dropLast_concat, h, List.map_cons, List.map_nil, List.sum_cons, List.sum_nil]
      omega
    · exact h

/-- Each turn of the loop takes what the frame had. -/
theorem counted_ackFrom (frame : UInt32) : ∀ {sent : List Sent} {waiting : Int} {newest : Option Nat},
    waiting = (sent.map fun sent => (sent.bytes : Int)).sum →
    (Seat.ackFrom frame sent waiting newest).2.1 =
      ((Seat.ackFrom frame sent waiting newest).1.map fun sent => (sent.bytes : Int)).sum
  | [], _, _, h => h
  | first :: rest, waiting, newest, h => by
    rw [Seat.ackFrom]
    split
    · exact h
    · refine counted_ackFrom frame ?_
      rw [h, List.map_cons, List.sum_cons]
      omega

theorem Seat.counted_ack (h : s.Counted) (frame : UInt32) (now : Nat) : (s.ack frame now).Counted := by
  have hack : (ackFrom frame s.sent s.waiting none).2.1 = _ := counted_ackFrom frame h
  rw [ack]
  generalize ackFrom frame s.sent s.waiting none = acked at hack
  obtain ⟨sent, waiting, newest⟩ := acked
  cases newest with
  | none => exact hack
  | some at' =>
    simp only [measure]
    split <;> exact hack

theorem Seat.Counted.nonneg (h : s.Counted) : 0 ≤ s.waiting := by
  rw [h]
  refine List.sum_nonneg fun x hx => ?_
  obtain ⟨sent, -, rfl⟩ := List.mem_map.mp hx
  exact Int.natCast_nonneg _

/-! ### One frame -/

namespace Live

variable {s t : Live} {shown : Shown} {refused : List String}

/-- What delivering leaves as it is. -/
structure SameBut (s t : Live) : Prop where
  active : t.active = s.active
  capturing : t.capturing = s.capturing
  captureFailedAt : t.captureFailedAt = s.captureFailedAt
  made : t.made = s.made

theorem SameBut.trans {u : Live} (h : SameBut s t) (h' : SameBut t u) : SameBut s u :=
  ⟨h'.active.trans h.active, h'.capturing.trans h.capturing, h'.captureFailedAt.trans h.captureFailedAt,
    h'.made.trans h.made⟩

theorem deliver_one (s : Live) (viewer : String) : SameBut s (deliver shown refused s viewer) ∧
    (deliver shown refused s viewer).gone = s.gone ∧
    (∀ v, (deliver shown refused s viewer).seats[v]? =
      if v = viewer ∧ v ∉ refused then s.seats[v]?.map fun pipe => { pipe with frames := pipe.frames ++ [shown] }
      else s.seats[v]?) ∧
    (∀ v, (deliver shown refused s viewer).flow.seats[v]? =
      if v = viewer ∧ (v ∈ refused ∨ s.seats[v]? = none) then s.flow.seats[v]?.map (·.lost shown.id)
      else s.flow.seats[v]?) := by
  have hlost : ∀ v, (s.flow.lost viewer shown.id).seats[v]? =
      if v = viewer then s.flow.seats[v]?.map (·.lost shown.id) else s.flow.seats[v]? :=
    fun v => getElem?_modify_viewer viewer v _
  rw [deliver]
  cases hpipe : s.seats[viewer]? with
  | none =>
    refine ⟨⟨rfl, rfl, rfl, rfl⟩, rfl, fun v => ?_, fun v => ?_⟩
    · by_cases hv : v = viewer
      · subst hv
        simp [hpipe]
      · rw [if_neg fun h => hv h.1]
    · rw [hlost]
      by_cases hv : v = viewer
      · subst hv
        rw [if_pos rfl, if_pos ⟨rfl, .inr hpipe⟩]
      · rw [if_neg hv, if_neg fun h => hv h.1]
  | some pipe =>
    by_cases hrefused : viewer ∈ refused
    · simp only [if_pos hrefused]
      refine ⟨⟨rfl, rfl, rfl, rfl⟩, trivial, fun v => ?_, fun v => ?_⟩
      · rw [if_neg]
        rintro ⟨rfl, h⟩
        exact h hrefused
      · rw [hlost]
        by_cases hv : v = viewer
        · subst hv
          rw [if_pos rfl, if_pos ⟨rfl, .inl hrefused⟩]
        · rw [if_neg hv, if_neg fun h => hv h.1]
    · simp only [if_neg hrefused]
      refine ⟨⟨rfl, rfl, rfl, rfl⟩, trivial, fun v => ?_, fun v => ?_⟩
      · rw [getElem?_insert_viewer]
        by_cases hv : v = viewer
        · subst hv
          rw [if_pos rfl, if_pos ⟨rfl, hrefused⟩, hpipe]
          rfl
        · rw [if_neg hv, if_neg fun h => hv h.1]
      · rw [if_neg]
        rintro ⟨rfl, h | h⟩
        · exact hrefused h
        · rw [hpipe] at h
          cases h

/-- A frame for these viewers goes on the pipes that take it, and is lost for the others. -/
theorem deliver_all : ∀ {to' : List String} (s : Live), to'.Nodup →
    SameBut s (to'.foldl (deliver shown refused) s) ∧ (to'.foldl (deliver shown refused) s).gone = s.gone ∧
    (∀ v, (to'.foldl (deliver shown refused) s).seats[v]? =
      if v ∈ to' ∧ v ∉ refused then s.seats[v]?.map fun pipe => { pipe with frames := pipe.frames ++ [shown] }
      else s.seats[v]?) ∧
    (∀ v, (to'.foldl (deliver shown refused) s).flow.seats[v]? =
      if v ∈ to' ∧ (v ∈ refused ∨ s.seats[v]? = none) then s.flow.seats[v]?.map (·.lost shown.id)
      else s.flow.seats[v]?)
  | [], s, _ => ⟨⟨rfl, rfl, rfl, rfl⟩, rfl, fun _ => by simp, fun _ => by simp⟩
  | viewer :: to', s, hnodup => by
    obtain ⟨hsame, hgone, hseats, hflow⟩ := @deliver_one shown refused s viewer
    obtain ⟨hnot, hnodup⟩ := List.nodup_cons.mp hnodup
    obtain ⟨hsame', hgone', hseats', hflow'⟩ := deliver_all (deliver shown refused s viewer) hnodup
    rw [List.foldl_cons]
    refine ⟨hsame.trans hsame', hgone'.trans hgone, fun v => ?_, fun v => ?_⟩
    · rw [hseats', hseats]
      by_cases hv : v = viewer
      · subst hv
        simp [hnot]
      · simp [hv]
    · rw [hflow', hflow, hseats]
      by_cases hv : v = viewer
      · subst hv
        simp [hnot]
      · simp [hv]

/-- The viewers that are dropped leave their pipes. -/
theorem drop_all : ∀ (dropped : List String) (s : Live),
    SameBut s (dropped.foldl drop s) ∧ (dropped.foldl drop s).flow = s.flow ∧
    (∀ v, (dropped.foldl drop s).seats[v]? = if v ∈ dropped then none else s.seats[v]?) ∧
    ∀ frames ∈ (dropped.foldl drop s).gone, frames ∈ s.gone ∨ ∃ (v : String) (pipe : Pipe),
      s.seats[v]? = some pipe ∧ frames = pipe.frames
  | [], s => ⟨⟨rfl, rfl, rfl, rfl⟩, rfl, fun _ => by simp, fun _ h => .inl h⟩
  | viewer :: dropped, s => by
    obtain ⟨hsame, hflow, hseats, hgone⟩ := drop_all dropped (s.drop viewer)
    rw [List.foldl_cons]
    refine ⟨⟨hsame.active, hsame.capturing, hsame.captureFailedAt, hsame.made⟩, hflow, fun v => ?_, fun frames h => ?_⟩
    · rw [hseats, drop, getElem?_erase_viewer]
      by_cases hv : v = viewer
      · simp [hv]
      · simp [hv]
    · rcases hgone frames h with h | ⟨v, pipe, hpipe, rfl⟩
      · rw [drop, List.mem_append] at h
        rcases h with h | h
        · exact .inl h
        · obtain ⟨pipe, hpipe, rfl⟩ := Option.map_eq_some_iff.mp (Option.mem_toList.mp h)
          exact .inr ⟨viewer, pipe, hpipe, rfl⟩
      · rw [drop, getElem?_erase_viewer] at hpipe
        by_cases hv : v = viewer
        · rw [if_pos hv] at hpipe
          cases hpipe
        · rw [if_neg hv] at hpipe
          exact .inr ⟨v, pipe, hpipe, rfl⟩

theorem seats_frame (f : Flow) (id : UInt32) (key : Bool) (bytes now : Nat) (v : String) :
    (f.frame id key bytes now).1.seats[v]? = f.seats[v]?.bind fun seat => seat.kept id key bytes now := by
  have hseats : (f.frame id key bytes now).1.seats = f.seats.filterMap fun _ seat => seat.kept id key bytes now := by
    simp only [Flow.frame]
    split
    · rfl
    · rw [Flow.keyframeAllowed]
      split <;> rfl
  rw [hseats]
  exact Std.ExtTreeMap.getElem?_filterMap'

/-- The viewers to which a frame goes, and those that are dropped. -/
theorem delivery_frame (f : Flow) (id : UInt32) (key : Bool) (bytes now : Nat) :
    (f.frame id key bytes now).2.to' = f.having id key bytes now (· == .sent) ∧
    (f.frame id key bytes now).2.dropped = f.having id key bytes now (· == .hopeless) := ⟨rfl, rfl⟩

/-- The frame that a window makes next. -/
def shownNext (s : Live) (key : Bool) : Shown := ⟨s.nextFrame + 1, key, s.made + 1⟩

variable (s) in
/-- What one frame makes of a window: the pipes that take it, the seats that stay, and the pipes that go. -/
theorem frame_spec (key : Bool) (bytes now : Nat) (refused : List String) :
    ((s.frame key bytes now refused).active = s.active ∧ (s.frame key bytes now refused).capturing = s.capturing ∧
      (s.frame key bytes now refused).captureFailedAt = s.captureFailedAt ∧
      (s.frame key bytes now refused).made = s.made + 1) ∧
    (∀ v, (s.frame key bytes now refused).seats[v]? =
      if v ∈ s.flow.having (s.nextFrame + 1) key bytes now (· == .hopeless) then none
      else if v ∈ s.flow.having (s.nextFrame + 1) key bytes now (· == .sent) ∧ v ∉ refused then
        s.seats[v]?.map fun pipe => { pipe with frames := pipe.frames ++ [s.shownNext key] }
      else s.seats[v]?) ∧
    (∀ v, (s.frame key bytes now refused).flow.seats[v]? =
      if v ∈ s.flow.having (s.nextFrame + 1) key bytes now (· == .sent) ∧ (v ∈ refused ∨ s.seats[v]? = none) then
        (s.flow.seats[v]?.bind fun seat => seat.kept (s.nextFrame + 1) key bytes now).map (·.lost (s.nextFrame + 1))
      else s.flow.seats[v]?.bind fun seat => seat.kept (s.nextFrame + 1) key bytes now) ∧
    ∀ frames ∈ (s.frame key bytes now refused).gone, frames ∈ s.gone ∨ ∃ (v : String) (pipe : Pipe),
      s.seats[v]? = some pipe ∧ (frames = pipe.frames ∨
        v ∈ s.flow.having (s.nextFrame + 1) key bytes now (· == .sent) ∧ v ∉ refused ∧
          frames = pipe.frames ++ [s.shownNext key]) := by
  let id := s.nextFrame + 1
  let made : Live := { s with nextFrame := id, made := s.made + 1, flow := (s.flow.frame id key bytes now).1 }
  let delivered := ((s.flow.frame id key bytes now).2.to').foldl (deliver (s.shownNext key) refused) made
  let asked := if (s.flow.frame id key bytes now).2.askKeyframe then delivered.command .keyframe else delivered
  have hframe : s.frame key bytes now refused = ((s.flow.frame id key bytes now).2.dropped).foldl drop asked := rfl
  have hnodup : (s.flow.frame id key bytes now).2.to'.Nodup := by
    rw [(delivery_frame s.flow id key bytes now).1]
    exact nodup_having
  have hasked : SameBut delivered asked ∧ asked.flow = delivered.flow ∧ asked.seats = delivered.seats ∧
      asked.gone = delivered.gone := by
    simp only [asked]
    split <;> exact ⟨⟨rfl, rfl, rfl, rfl⟩, rfl, rfl, rfl⟩
  obtain ⟨hsame, hflow, hseats, hgone⟩ := drop_all (s.flow.frame id key bytes now).2.dropped asked
  obtain ⟨hsame₁, hflow₁, hseats₁, hgone₁⟩ := hasked
  obtain ⟨hsame₂, hgone₂, hseats₂, hflow₂⟩ := @deliver_all (s.shownNext key) refused
    (s.flow.frame id key bytes now).2.to' made hnodup
  have hall := (hsame₂.trans hsame₁).trans hsame
  have hpipes : ∀ v : String, asked.seats[v]? =
      if v ∈ s.flow.having id key bytes now (· == .sent) ∧ v ∉ refused then
        s.seats[v]?.map fun pipe => { pipe with frames := pipe.frames ++ [s.shownNext key] }
      else s.seats[v]? := fun v => by rw [hseats₁]; exact hseats₂ v
  rw [hframe]
  refine ⟨⟨hall.active, hall.capturing, hall.captureFailedAt, hall.made⟩, fun v => ?_, fun v => ?_, fun frames h => ?_⟩
  · rw [hseats v, hpipes v]
    rfl
  · rw [hflow, hflow₁]
    refine (hflow₂ v).trans ?_
    simp only [made]
    rw [seats_frame]
    rfl
  · rcases hgone frames h with h | ⟨v, pipe, hpipe, rfl⟩
    · rw [hgone₁, hgone₂] at h
      exact .inl h
    · rw [hpipes v] at hpipe
      split at hpipe
      · rename_i hsent
        obtain ⟨pipe', hpipe', rfl⟩ := Option.map_eq_some_iff.mp hpipe
        exact .inr ⟨v, pipe', hpipe', .inr ⟨hsent.1, hsent.2, rfl⟩⟩
      · exact .inr ⟨v, pipe, hpipe, .inl rfl⟩

/-- A seat after a frame: nothing was sent to it, the frame was lost, or the frame is on its pipe. -/
theorem seat_frame {key : Bool} {bytes now : Nat} {v : String} {seat' : Seat}
    (h : (s.frame key bytes now refused).flow.seats[v]? = some seat') :
    ∃ seat, s.flow.seats[v]? = some seat ∧
      (((seat.frame (s.nextFrame + 1) key bytes now).2 ≠ .sent ∧ seat' = (seat.frame (s.nextFrame + 1) key bytes now).1 ∧
          (s.frame key bytes now refused).seats[v]? = s.seats[v]?) ∨
        ((v ∈ refused ∨ s.seats[v]? = none) ∧
          seat' = (seat.frame (s.nextFrame + 1) key bytes now).1.lost (s.nextFrame + 1) ∧
          (s.frame key bytes now refused).seats[v]? = s.seats[v]?) ∨
        ((seat.frame (s.nextFrame + 1) key bytes now).2 = .sent ∧
          seat' = (seat.frame (s.nextFrame + 1) key bytes now).1 ∧ ∃ pipe, s.seats[v]? = some pipe ∧
          (s.frame key bytes now refused).seats[v]? = some { pipe with frames := pipe.frames ++ [s.shownNext key] })) := by
  obtain ⟨-, hseats, hflow, -⟩ := frame_spec s key bytes now refused
  have hv := hseats v
  rw [hflow v] at h
  cases hseat : s.flow.seats[v]? with
  | none =>
    rw [hseat] at h
    split at h <;> cases h
  | some seat =>
    have hhaving : ∀ p : Outcome → Bool, v ∈ s.flow.having (s.nextFrame + 1) key bytes now p ↔
        p (seat.frame (s.nextFrame + 1) key bytes now).2 = true := by
      intro p
      rw [mem_having, hseat]
      simp
    simp only [hseat, Option.bind_some, Seat.kept, hhaving] at h
    simp only [hhaving] at hv
    refine ⟨seat, rfl, ?_⟩
    cases houtcome : (seat.frame (s.nextFrame + 1) key bytes now).2 with
    | hopeless => simp [houtcome] at h
    | behind =>
      simp only [houtcome] at h hv
      exact .inl ⟨nofun, by simpa using h.symm, by simpa using hv⟩
    | waits wantsKey =>
      simp only [houtcome] at h hv
      exact .inl ⟨nofun, by simpa using h.symm, by simpa using hv⟩
    | sent =>
      simp only [houtcome] at h hv
      cases hpipe : s.seats[v]? with
      | none =>
        rw [hpipe] at h hv
        exact .inr (.inl ⟨.inr rfl, by simpa using h.symm, by simpa using hv⟩)
      | some pipe =>
        rw [hpipe] at h hv
        by_cases hrefused : v ∈ refused
        · exact .inr (.inl ⟨.inl hrefused, by simpa [hrefused] using h.symm, by simpa [hrefused] using hv⟩)
        · exact .inr (.inr ⟨rfl, by simpa [hrefused] using h.symm, pipe, rfl, by simpa [hrefused] using hv⟩)

/-! ### What holds of a window -/

/-- A stream that starts at a key frame, and in which each other frame follows the one that was made just before it. -/
def Decodes (frames : List Shown) : Prop :=
  (∀ first ∈ frames.head?, first.key = true) ∧ frames.IsChain fun a b => b.key = true ∨ b.made = a.made + 1

/-- Each pipe has a stream that decodes, and a live seat's pipe, unless nothing is on it, has the newest frame. -/
structure Streams (s : Live) : Prop where
  pipes : ∀ (v : String) (pipe : Pipe), s.seats[v]? = some pipe → Decodes pipe.frames
  gone : ∀ frames ∈ s.gone, Decodes frames
  live : ∀ (v : String) (seat : Seat), s.flow.seats[v]? = some seat → seat.live = true →
    ∃ pipe, s.seats[v]? = some pipe ∧ ∀ last ∈ pipe.frames.getLast?, last.made = s.made

/-- What waits for each viewer is what its frames on the way have. -/
def Counts (s : Live) : Prop := ∀ (v : String) (seat : Seat), s.flow.seats[v]? = some seat → seat.Counted

/-- Each seat in the flow is that of a viewer with a pipe. -/
def Piped (s : Live) : Prop :=
  ∀ (v : String) (seat : Seat), s.flow.seats[v]? = some seat → ∃ pipe, s.seats[v]? = some pipe

/-- The window captures its active tab while someone watches, apart from the pause after a capture that failed. -/
def Captures (s : Live) : Prop := s.capturing = s.wanted ∨ s.captureFailedAt.isSome = true ∧ s.capturing = none

/-- A frame that is not a key frame is not put on a pipe that has none yet: no viewer with a new pipe still has the live
    seat of its earlier one. -/
def Fresh (s : Live) : Event → Prop
  | .frame false _ _ refused => ∀ (v : String) (seat : Seat) (pipe : Pipe), s.flow.seats[v]? = some seat →
      s.seats[v]? = some pipe → seat.live = true → seat.waiting ≤ WAITING_MOST → v ∉ refused → pipe.frames ≠ []
  | _ => True

/-- A viewer that watches has a pipe. -/
def FromPipe (s : Live) : Event → Prop
  | .watch viewer _ => ∃ pipe, s.seats[viewer]? = some pipe
  | _ => True

/-- A frame does not drop the last viewers of a window that captures. -/
def LeavesOne (s : Live) : Event → Prop
  | .frame key bytes now _ => s.capturing ≠ none → ∃ (v : String) (seat : Seat), s.flow.seats[v]? = some seat ∧
      (seat.frame (s.nextFrame + 1) key bytes now).2 ≠ .hopeless
  | _ => True

/-! ### Captures -/

theorem updateCapture_spec (s : Live) : (s.updateCapture.flow = s.flow ∧ s.updateCapture.seats = s.seats ∧
    s.updateCapture.gone = s.gone ∧ s.updateCapture.made = s.made) ∧ Captures s.updateCapture := by
  rw [updateCapture]
  by_cases h : s.wanted = s.capturing
  · rw [if_pos h]
    exact ⟨⟨rfl, rfl, rfl, rfl⟩, .inl h.symm⟩
  · rw [if_neg h]
    cases hwanted : s.wanted <;> exact ⟨⟨rfl, rfl, rfl, rfl⟩, .inl hwanted.symm⟩

end Live

end Kodosi.Browser
