import Kodosi.Connections.Channel
import Kodosi.Lib.Run

/-! What a wait that is given up can lose: nothing that arrives, and of what is written only the answers that TLS
    gave to what arrived, when the wait is given up before the transport has taken them. -/

namespace Kodosi.Connections
open Kodosi.Wire
open Kodosi.Lib

variable {M A τ : Type}

/-! ### Frames off a text -/

/-- The frames that were taken off a text, and what is left of it. -/
def Taken (L : Libraries M A) : List (Frame M A × Nat) → Bytes → Bytes → Prop
  | [], left, text => text = left
  | frame :: frames, left, text => ∃ rest, Frame.take L text = (.ok (some frame), rest) ∧ Taken L frames left rest

namespace Taken

variable {L : Libraries M A}

theorem more (extra : Bytes) : ∀ {frames : List (Frame M A × Nat)} {left text : Bytes}, Taken L frames left text →
    Taken L frames (left ++ extra) (text ++ extra)
  | [], _, _, h => congrArg (· ++ extra) h
  | _ :: _, _, _, ⟨rest, htake, h⟩ => ⟨rest ++ extra, take_more htake extra, h.more extra⟩

theorem snoc {frame : Frame M A × Nat} {left rest : Bytes} (htake : Frame.take L left = (.ok (some frame), rest)) :
    ∀ {frames : List (Frame M A × Nat)} {text : Bytes}, Taken L frames left text → Taken L (frames ++ [frame]) rest text
  | [], _, h => ⟨rest, by rw [h, htake], rfl⟩
  | _ :: _, _, ⟨middle, htake', h⟩ => ⟨middle, htake', h.snoc htake⟩

end Taken

namespace Channel

variable {L : Libraries M A} {R : Records τ} {c : Channel M A τ}

/-! ### What is written -/

/-- From one state to another, what TLS writes comes behind what is with the transport and the call. -/
def Flows (c c' : Channel M A τ) : Prop :=
  ∃ more, c'.written = c.written ++ more ∧ c'.given ++ c'.call.wire = c.given ++ c.call.wire ++ more

variable {c' : Channel M A τ}

theorem Flows.same (hwritten : c'.written = c.written) (hgiven : c'.given = c.given)
    (hwire : c'.call.wire = c.call.wire) : Flows c c' :=
  ⟨[], by rw [hwritten, List.append_nil], by rw [hgiven, hwire, List.append_nil]⟩

theorem Flows.trans {b d : Channel M A τ} (h : Flows c b) (h' : Flows b d) : Flows c d := by
  obtain ⟨xs, hwritten, hgiven⟩ := h
  obtain ⟨ys, hwritten', hgiven'⟩ := h'
  refine ⟨xs ++ ys, ?_, ?_⟩
  · rw [hwritten', hwritten, List.append_assoc]
  · rw [hgiven', hgiven, List.append_assoc (c.given ++ c.call.wire)]

variable {call : Bytes → Call}

theorem flows_writeTls (hcall : ∀ wire, (call wire).wire = wire) (h : c.call.wire = []) : Flows c (writeTls call c) :=
  ⟨c.sendable.take MESSAGE_BYTES, rfl, by
    rw [h, List.append_nil]
    exact congrArg (c.given ++ ·) (hcall _)⟩

theorem flows_fail (error : Error) (c : Channel M A τ) : Flows c (c.fail error) := .same rfl rfl rfl

theorem flows_take (h : c.call.wire = []) : Flows c (take L c) := by
  unfold take
  split
  · exact .same rfl rfl h.symm
  · exact .same rfl rfl h.symm
  · split
    · exact .same rfl rfl h.symm
    · exact .same rfl rfl h.symm

theorem flows_flushSend (h : c.call.wire = []) : Flows c (flushSend c) := by
  unfold flushSend
  split
  · exact .same rfl rfl h.symm
  · exact flows_writeTls (fun _ => rfl) h

theorem flows_flushReceive (h : c.call.wire = []) : Flows c (flushReceive L c) := by
  unfold flushReceive
  split
  · exact flows_take h
  · exact flows_writeTls (fun _ => rfl) h

theorem flows_write (encoded : Bytes) (h : c.call.wire = []) : Flows c (write R encoded c) := by
  unfold write
  split
  · exact flows_fail _ _
  · exact (Flows.same rfl rfl rfl).trans (flows_flushSend h)

theorem flows_send (frame : Frame M A) (old : Bool) (h : c.call.wire = []) : Flows c (send L R frame old c) := by
  unfold send
  split
  · exact flows_fail _ _
  · simp only
    split
    · split
      · exact (Flows.same rfl rfl rfl).trans (flows_fail _ _)
      · exact (Flows.same rfl rfl rfl).trans (flows_write _ h)
    · exact (Flows.same rfl rfl rfl).trans (flows_write _ h)

theorem flows_accept {n : Nat} {wire : Bytes} {flush : Channel M A τ → Channel M A τ}
    (hcall : ∀ wire, (call wire).wire = wire) (hflush : ∀ {c : Channel M A τ}, c.call.wire = [] → Flows c (flush c))
    (h : c.call.wire = wire) : Flows c (accept n wire call flush c) := by
  have hpart : Flows c { c with given := c.given ++ wire.take n, call := call (wire.drop n) } := by
    refine ⟨[], (List.append_nil _).symm, ?_⟩
    show c.given ++ wire.take n ++ (call (wire.drop n)).wire = _
    rw [hcall, List.append_assoc, List.take_append_drop, h, List.append_nil]
  unfold accept
  simp only
  split
  · rename_i hall
    exact hpart.trans (hflush ((hcall _).trans hall))
  · exact hpart

/-! ### What arrives -/

/-- What reading a message does to the channel: it takes the bytes one after the other, all of them unless TLS fails,
    and the text comes behind the text that is there. -/
structure Absorbed (c c' : Channel M A τ) (bytes : Bytes) (error : Option Error) : Prop where
  given : c'.given = c.given
  written : c'.written = c.written
  call : c'.call = c.call
  arrived : c'.arrived = c.arrived
  returned : c'.returned = c.returned
  read : ∃ rest, c'.read ++ rest = c.read ++ bytes ∧ (error = none → rest = [])
  text : ∃ more, c'.plain = c.plain ++ more ∧ c'.plaintext = c.plaintext ++ more

variable {bytes : Bytes}

theorem absorbed_none (error : Option Error) (h : error = none → bytes = []) (c : Channel M A τ) :
    Absorbed c c bytes error :=
  ⟨rfl, rfl, rfl, rfl, rfl, ⟨bytes, rfl, h⟩, ⟨[], (List.append_nil _).symm, (List.append_nil _).symm⟩⟩

theorem absorbed_rest (c : Channel M A τ) (bytes : Bytes) :
    Absorbed c (absorbRest R c bytes).1 bytes (absorbRest R c bytes).2 := by
  fun_induction absorbRest R c bytes with
  | case1 c => exact absorbed_none _ (fun _ => rfl) c
  | case2 c bytes hbytes htls => exact absorbed_none (some _) nofun c
  | case3 c bytes hbytes tls htls => exact absorbed_none (some _) nofun c
  | case4 c bytes hbytes n tls' htls error herror =>
    refine ⟨rfl, rfl, rfl, rfl, rfl, ⟨bytes.drop (n + 1), ?_, nofun⟩,
      ⟨[], (List.append_nil _).symm, (List.append_nil _).symm⟩⟩
    show c.read ++ bytes.take (n + 1) ++ bytes.drop (n + 1) = _
    rw [List.append_assoc, List.take_append_drop]
  | case5 c bytes hbytes n tls' htls packets hpackets ih =>
    obtain ⟨hgiven, hwritten, hcall, harrived, hreturned, ⟨rest, hread, hall⟩, ⟨more, hplain, htext⟩⟩ := ih
    refine ⟨hgiven, hwritten, hcall, harrived, hreturned, ⟨rest, ?_, hall⟩, ⟨packets.plaintext ++ more, ?_, ?_⟩⟩
    · rw [hread, List.append_assoc, List.take_append_drop]
    · rw [hplain, List.append_assoc]
    · rw [htext, List.append_assoc]

theorem absorbed (c : Channel M A τ) (bytes : Bytes) : Absorbed c (absorb R c bytes).1 bytes (absorb R c bytes).2 := by
  unfold absorb
  split
  · exact absorbed_none (some _) nofun c
  · exact absorbed_rest c bytes

theorem flows_arrive (message : Except Error (Option Bytes)) (h : c.call.wire = []) :
    Flows c (arrive L R message c) := by
  unfold arrive
  split
  · exact flows_fail _ _
  · exact .same rfl rfl h.symm
  · rename_i bytes
    have habsorbed := absorbed (R := R) { c with arrived := c.arrived ++ bytes } bytes
    have hsame : Flows c (absorb R { c with arrived := c.arrived ++ bytes } bytes).1 :=
      .same habsorbed.written habsorbed.given (congrArg Call.wire habsorbed.call)
    have hwire : (absorb R { c with arrived := c.arrived ++ bytes } bytes).1.call.wire = [] :=
      (congrArg Call.wire habsorbed.call).trans h
    split
    · rename_i c' heq
      rw [heq] at hsame hwire
      exact hsame.trans (flows_flushReceive hwire)
    · rename_i c' error heq
      rw [heq] at hsame
      exact hsame.trans (flows_fail _ _)

/-- Whether a step throws no bytes away: a wait that still flushes an answer is not given up. -/
def Safe (c : Channel M A τ) : Event M A → Prop
  | .drop => ∀ wire, c.call ≠ .answering wire
  | _ => True

variable {e : Event M A}

theorem flows_step (h : Safe c e) : Flows c (step L R c e) := by
  have hsame : Flows c c := .same rfl rfl rfl
  cases e with
  | send frame old =>
    simp only [step]
    split
    · exact flows_send _ _ (by simp only [*, Call.wire])
    · exact hsame
  | receive =>
    simp only [step]
    split
    · exact flows_take (by simp only [*, Call.wire])
    · exact hsame
  | arrive message =>
    simp only [step]
    split
    · exact flows_arrive _ (by simp only [*, Call.wire])
    · exact hsame
  | accept n =>
    simp only [step]
    split
    · exact flows_accept (fun _ => rfl) flows_flushSend (by simp only [*, Call.wire])
    · exact flows_accept (fun _ => rfl) flows_flushReceive (by simp only [*, Call.wire])
    · exact hsame
  | refuse error =>
    simp only [step]
    split
    · exact flows_fail _ _
    · exact flows_fail _ _
    · exact hsame
  | drop =>
    simp only [step]
    split
    · exact .same rfl rfl (by simp only [*, Call.wire])
    · rename_i wire hcall
      exact absurd hcall (h wire)
    · exact hsame

/-! ### What always holds -/

variable (L) in
/-- TLS has read all that arrived, unless it failed, and the frames that the program got are those that the text starts
    with. A wait begins when no whole frame is left. -/
structure Holds (c : Channel M A τ) : Prop where
  read : ∃ rest, c.arrived = c.read ++ rest ∧ ((∀ error wire, c.call ≠ .failed error wire) → rest = [])
  frames : Taken L c.returned c.plain c.plaintext
  waits : c.call = .receiving → Frame.take L c.plain = (.ok none, c.plain)
  answers : ∀ wire, c.call = .answering wire → wire ≠ []

variable (L) in
/-- The same of a channel between two of its steps. -/
structure Whole (c : Channel M A τ) : Prop where
  read : c.arrived = c.read
  frames : Taken L c.returned c.plain c.plaintext

theorem Holds.whole (h : Holds L c) (hcall : ∀ error wire, c.call ≠ .failed error wire) : Whole L c := by
  obtain ⟨rest, hread, hall⟩ := h.read
  rw [hall hcall, List.append_nil] at hread
  exact ⟨hread, h.frames⟩

theorem Whole.holds (h : Whole L c) (hreceiving : c.call ≠ .receiving)
    (hanswers : ∀ wire, c.call = .answering wire → wire ≠ []) : Holds L c :=
  ⟨⟨[], by rw [h.read, List.append_nil], fun _ => rfl⟩, h.frames, fun hcall => absurd hcall hreceiving, hanswers⟩

theorem take_stays {buffer rest : Bytes} {out : Except Wire.Fault (Option (Frame M A × Nat))}
    (h : Frame.take L buffer = (out, rest)) (hout : ∀ frame, out ≠ .ok (some frame)) : rest = buffer := by
  rw [Frame.take] at h
  split at h
  · obtain ⟨rfl, -⟩ := Prod.mk.inj h
    exact absurd rfl (hout _)
  · exact (Prod.mk.inj h).2.symm

theorem holds_take (h : Whole L c) : Holds L (take L c) := by
  unfold take
  split
  · rename_i frame plain htake
    exact Whole.holds ⟨h.read, h.frames.snoc htake⟩ nofun nofun
  · rename_i fault plain htake
    obtain rfl : plain = c.plain := take_stays htake nofun
    exact Whole.holds ⟨h.read, h.frames⟩ nofun nofun
  · rename_i plain htake
    obtain rfl : plain = c.plain := take_stays htake nofun
    split
    · exact Whole.holds ⟨h.read, h.frames⟩ nofun nofun
    · exact ⟨⟨[], by rw [List.append_nil]; exact h.read, fun _ => rfl⟩, h.frames, fun _ => htake, nofun⟩

theorem holds_fail (h : Holds L c) (error : Error) : Holds L (c.fail error) := by
  obtain ⟨rest, hread, -⟩ := h.read
  exact ⟨⟨rest, hread, fun hcall => absurd rfl (hcall error c.call.wire)⟩, h.frames, nofun, nofun⟩

theorem take_ne_nil (h : bytes ≠ []) : bytes.take MESSAGE_BYTES ≠ [] := by
  have hsome : MESSAGE_BYTES ≠ 0 := by decide
  rw [Ne, List.take_eq_nil_iff]
  exact not_or.mpr ⟨hsome, h⟩

theorem holds_flushSend (h : Whole L c) : Holds L (flushSend c) := by
  unfold flushSend
  split
  · exact Whole.holds ⟨h.read, h.frames⟩ nofun nofun
  · exact Whole.holds ⟨h.read, h.frames⟩ nofun nofun

theorem holds_flushReceive (h : Whole L c) : Holds L (flushReceive L c) := by
  unfold flushReceive
  split
  · exact holds_take h
  · rename_i hsendable
    refine Whole.holds ⟨h.read, h.frames⟩ nofun fun wire hwire => ?_
    obtain rfl := Call.answering.inj hwire
    exact take_ne_nil hsendable

theorem holds_write (encoded : Bytes) (h : Whole L c) (hcall : c.call = .none) : Holds L (write R encoded c) := by
  unfold write
  split
  · exact holds_fail (h.holds (hcall ▸ nofun) (hcall ▸ nofun)) _
  · exact holds_flushSend ⟨h.read, h.frames⟩

theorem holds_send (frame : Frame M A) (old : Bool) (h : Whole L c) (hcall : c.call = .none) :
    Holds L (send L R frame old c) := by
  have hholds := h.holds (hcall ▸ nofun) (hcall ▸ nofun)
  unfold send
  split
  · exact holds_fail hholds _
  · simp only
    split
    · split
      · have hcounted : Holds L { c with frames := c.frames + 1 } :=
          ⟨hholds.read, hholds.frames, hholds.waits, hholds.answers⟩
        exact holds_fail hcounted _
      · exact holds_write _ ⟨h.read, h.frames⟩ hcall
    · exact holds_write _ ⟨h.read, h.frames⟩ hcall

theorem holds_arrive (message : Except Error (Option Bytes)) (h : Holds L c) (hcall : c.call = .receiving) :
    Holds L (arrive L R message c) := by
  have hwhole := h.whole (hcall ▸ nofun)
  unfold arrive
  split
  · exact holds_fail h _
  · exact Whole.holds ⟨hwhole.read, hwhole.frames⟩ nofun nofun
  · rename_i bytes
    have habsorbed := absorbed (R := R) { c with arrived := c.arrived ++ bytes } bytes
    obtain ⟨rest, hread, hall⟩ := habsorbed.read
    obtain ⟨more, hplain, htext⟩ := habsorbed.text
    have hframes : Taken L c.returned (c.plain ++ more) (c.plaintext ++ more) := hwhole.frames.more more
    have harrived := habsorbed.arrived
    have hreturned := habsorbed.returned
    split
    · rename_i c' heq
      rw [heq] at hread hall hplain htext harrived hreturned
      refine holds_flushReceive ⟨?_, ?_⟩
      · rw [hall rfl, List.append_nil] at hread
        rw [harrived, hread]
        exact congrArg (· ++ bytes) hwhole.read
      · rw [hreturned, hplain, htext]
        exact hframes
    · rename_i c' error heq
      rw [heq] at hread hplain htext harrived hreturned
      refine ⟨⟨rest, ?_, fun hfailed => absurd rfl (hfailed error c'.call.wire)⟩, ?_, nofun, nofun⟩
      · show c'.arrived = c'.read ++ rest
        rw [harrived, hread]
        exact congrArg (· ++ bytes) hwhole.read
      · show Taken L c'.returned c'.plain c'.plaintext
        rw [hreturned, hplain, htext]
        exact hframes

theorem holds_step (h : Holds L c) (e : Event M A) : Holds L (step L R c e) := by
  cases e with
  | send frame old =>
    simp only [step]
    split
    · rename_i hcall
      exact holds_send _ _ (h.whole (hcall ▸ nofun)) hcall
    · exact h
  | receive =>
    simp only [step]
    split
    · rename_i hcall
      exact holds_take (h.whole (hcall ▸ nofun))
    · exact h
  | arrive message =>
    simp only [step]
    split
    · rename_i hcall
      exact holds_arrive _ h hcall
    · exact h
  | accept n =>
    simp only [step, accept]
    split
    · rename_i wire hcall
      have hwhole := h.whole (hcall ▸ nofun)
      split
      · exact holds_flushSend ⟨hwhole.read, hwhole.frames⟩
      · exact Whole.holds ⟨hwhole.read, hwhole.frames⟩ nofun nofun
    · rename_i wire hcall
      have hwhole := h.whole (hcall ▸ nofun)
      split
      · exact holds_flushReceive ⟨hwhole.read, hwhole.frames⟩
      · rename_i hleft
        refine Whole.holds ⟨hwhole.read, hwhole.frames⟩ nofun fun wire' hwire => ?_
        obtain rfl := Call.answering.inj hwire
        exact hleft
    · exact h
  | refuse error =>
    simp only [step]
    split
    · exact holds_fail h _
    · exact holds_fail h _
    · exact h
  | drop =>
    simp only [step]
    split
    · rename_i hcall
      have hwhole := h.whole (hcall ▸ nofun)
      exact Whole.holds ⟨hwhole.read, hwhole.frames⟩ nofun nofun
    · rename_i wire hcall
      have hwhole := h.whole (hcall ▸ nofun)
      exact Whole.holds ⟨hwhole.read, hwhole.frames⟩ nofun nofun
    · exact h

theorem holds_established (tls : τ) (plain : Bytes) (closed : Bool) :
    Holds L (established tls plain closed : Channel M A τ) :=
  Whole.holds ⟨rfl, rfl⟩ nofun nofun

/-! ### Runs -/

/-- The transport was given what TLS wrote, each byte once and in order, up to what a call still holds. -/
def Kept (c : Channel M A τ) : Prop := c.given ++ c.call.wire = c.written

/-- Bytes are missing. -/
def Short (c : Channel M A τ) : Prop := (c.given ++ c.call.wire).length < c.written.length

theorem Kept.not_short (h : Kept c) : ¬Short c := fun hshort =>
  absurd (congrArg List.length h) (Nat.ne_of_lt hshort)

theorem kept_step (h : Kept c) (hsafe : Safe c e) : Kept (step L R c e) := by
  obtain ⟨more, hwritten, hgiven⟩ := flows_step (L := L) (R := R) hsafe
  rw [Kept, hgiven, hwritten, h]

theorem unsafe_drop (hsafe : ¬Safe c e) : ∃ wire, e = .drop ∧ c.call = .answering wire := by
  cases e with
  | drop =>
    obtain ⟨wire, hcall⟩ := not_forall.mp hsafe
    exact ⟨wire, rfl, not_not.mp hcall⟩
  | _ => exact absurd trivial hsafe

theorem short_drop (h : (c.given ++ c.call.wire).length ≤ c.written.length) (hholds : Holds L c) (hsafe : ¬Safe c e) :
    Short (step L R c e) := by
  obtain ⟨wire, rfl, hcall⟩ := unsafe_drop hsafe
  have hpos := List.length_pos_iff.mpr (hholds.answers wire hcall)
  have hstep : step L R c .drop = { c with call := .none } := by simp only [step, hcall]
  rw [hcall, List.length_append] at h
  rw [hstep, Short]
  show (c.given ++ []).length < c.written.length
  rw [List.append_nil]
  have : (Call.answering wire).wire = wire := rfl
  rw [this] at h
  omega

theorem short_step (h : Short c) (hholds : Holds L c) : Short (step L R c e) := by
  by_cases hsafe : Safe c e
  · obtain ⟨more, hwritten, hgiven⟩ := flows_step (L := L) (R := R) hsafe
    have hmore : ∀ bytes : Bytes, (bytes ++ more).length = bytes.length + more.length := fun _ => List.length_append
    rw [Short, hgiven, hwritten, hmore, hmore]
    exact Nat.add_lt_add_right h _
  · exact short_drop h.le hholds hsafe

theorem short_run : ∀ (es : List (Event M A)) {c : Channel M A τ}, Short c → Holds L c → Short (es.foldl (step L R) c)
  | [], _, h, _ => h
  | e :: es, _, h, hholds => short_run es (short_step h hholds) (holds_step hholds e)

theorem kept_run : ∀ (es : List (Event M A)) {c : Channel M A τ}, Kept c → Holds L c →
    (Kept (es.foldl (step L R) c) ↔ Run.Allows Safe (step L R) c es)
  | [], _, h, _ => iff_of_true h trivial
  | e :: es, c, h, hholds => by
    by_cases hsafe : Safe c e
    · exact (kept_run es (kept_step h hsafe) (holds_step hholds e)).trans (and_iff_right hsafe).symm
    · have hshort : Short (step L R c e) := short_drop (Nat.le_of_eq (congrArg List.length h)) hholds hsafe
      refine iff_of_false (fun hkept => ?_) fun hallows => hsafe hallows.1
      exact hkept.not_short (short_run es hshort (holds_step hholds e))

/-- Records that are their text; one of them asks for an answer. -/
def plainRecords : Records Bytes where
  readTls unread bytes := some (bytes.length, unread ++ bytes)
  processNewPackets unread :=
    .ok (if unread = [24] then ⟨[], [25], [], false⟩ else ⟨[], [], unread, false⟩)
  writeAll unread text := some (unread, text)
  refreshTrafficKeys unread := .ok (unread, [24])

/-- The other side takes new keys, and the wait is given up before the transport has the answer. -/
def refreshed : List (Event Unit Empty) := [.receive, .arrive (.ok (some [24])), .drop]

/-- The channel when the message has come. -/
def asked : Channel Unit Empty Bytes :=
  { (established [] [] false : Channel Unit Empty Bytes) with call := .receiving, arrived := [24] }

theorem absorb_asked : absorb plainRecords asked [24] = ({ asked with read := [24], sendable := [25] }, none) := by
  rw [absorb, if_neg (by decide), absorbRest, if_neg (by decide)]
  show absorbRest plainRecords { asked with read := [24], sendable := [25] } [] = _
  rw [absorbRest, if_pos rfl]

theorem arrive_absorbed (h : absorb R { c with arrived := c.arrived ++ bytes } bytes = (c', none)) :
    arrive L R (.ok (some bytes)) c = flushReceive L c' := by
  simp only [arrive, h]

end Channel

end Kodosi.Connections
