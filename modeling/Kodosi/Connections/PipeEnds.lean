import Kodosi.Connections.Pipes

/-! What is on its way on a pipe, and one end of a connection that hands it out. -/

namespace Kodosi.Connections.Pipes
open Kodosi.Lib

variable {pipe other : Uuid} {packets packets' : List Packet}

/-! ### What is on its way -/

/-- The parts of a pipe among what goes over a connection. -/
def datas (pipe : Uuid) (packets : List Packet) : List (Piece UInt8) :=
  packets.filterMap fun
    | .pipeData p part => if p = pipe then some part else none
    | _ => none

/-- How often a pipe is opened. -/
def opens (pipe : Uuid) (packets : List Packet) : Nat :=
  packets.countP fun
    | .pipeOpen p _ _ => p = pipe
    | _ => false

/-- Every part of a pipe stands behind the opening of it. -/
def Behind (pipe : Uuid) : List Packet → Prop
  | [] => True
  | .pipeOpen p _ _ :: rest => p = pipe ∨ Behind pipe rest
  | .pipeData p _ :: rest => p ≠ pipe ∧ Behind pipe rest
  | .pipeClose _ :: rest => Behind pipe rest
  | .other :: rest => Behind pipe rest

@[simp] theorem datas_append : datas pipe (packets ++ packets') = datas pipe packets ++ datas pipe packets' :=
  List.filterMap_append

@[simp] theorem opens_append : opens pipe (packets ++ packets') = opens pipe packets + opens pipe packets' :=
  List.countP_append

@[simp] theorem datas_nil : datas pipe [] = [] := rfl
@[simp] theorem datas_open {key name : String} : datas pipe (.pipeOpen other key name :: packets) = datas pipe packets := rfl
@[simp] theorem datas_close : datas pipe (.pipeClose other :: packets) = datas pipe packets := rfl
@[simp] theorem datas_other : datas pipe (.other :: packets) = datas pipe packets := rfl

@[simp] theorem datas_data {part : Piece UInt8} :
    datas pipe (.pipeData other part :: packets) = if other = pipe then part :: datas pipe packets else datas pipe packets := by
  by_cases h : other = pipe
  · simp [datas, h]
  · simp [datas, h]

@[simp] theorem opens_nil : opens pipe [] = 0 := rfl
@[simp] theorem opens_close : opens pipe (.pipeClose other :: packets) = opens pipe packets := by simp [opens]
@[simp] theorem opens_other : opens pipe (.other :: packets) = opens pipe packets := by simp [opens]
@[simp] theorem opens_data {part : Piece UInt8} : opens pipe (.pipeData other part :: packets) = opens pipe packets := by
  simp [opens]

@[simp] theorem opens_open {key name : String} :
    opens pipe (.pipeOpen other key name :: packets) = opens pipe packets + if other = pipe then 1 else 0 := by
  simp [opens, List.countP_cons]

theorem datas_chunks (frame : Bytes) : datas pipe (chunks other frame) = if other = pipe then parts PIPE_PART frame else [] := by
  rw [chunks]
  induction parts PIPE_PART frame with
  | nil => simp
  | cons part rest ih =>
    rw [List.map_cons, datas_data, ih]
    by_cases h : other = pipe
    · simp [h]
    · simp [h]

/-- What comes behind an opening may be anything. -/
theorem Behind.append : ∀ {packets : List Packet}, Behind pipe packets → Behind pipe packets' ∨ 0 < opens pipe packets →
    Behind pipe (packets ++ packets')
  | [], _, hmore => hmore.resolve_right (lt_irrefl 0)
  | .pipeOpen p _ _ :: rest, h, hmore => by
    by_cases hp : p = pipe
    · exact .inl hp
    · refine .inr ((h.resolve_left hp).append (hmore.imp_right fun hopen => ?_))
      rwa [opens_open, if_neg hp] at hopen
  | .pipeData p _ :: rest, h, hmore => by
    rw [opens_data] at hmore
    exact ⟨h.1, Behind.append h.2 hmore⟩
  | .pipeClose _ :: rest, h, hmore => by
    rw [opens_close] at hmore
    have hrest : Behind pipe rest := h
    exact hrest.append hmore
  | .other :: rest, h, hmore => by
    rw [opens_other] at hmore
    have hrest : Behind pipe rest := h
    exact hrest.append hmore

/-- A packet that is no part of the pipe may come between. -/
theorem Behind.between {packet : Packet} (hpacket : Behind pipe [packet]) : ∀ (packets : List Packet),
    Behind pipe (packets ++ packets') → Behind pipe (packets ++ packet :: packets')
  | [], h => hpacket.append (.inl h)
  | .pipeOpen _ _ _ :: rest, h => h.imp_right fun h => Behind.between hpacket rest h
  | .pipeData _ _ :: rest, h => ⟨h.1, Behind.between hpacket rest h.2⟩
  | .pipeClose _ :: rest, h => Behind.between hpacket rest h
  | .other :: rest, h => Behind.between hpacket rest h

/-! ### One end -/

/-- Every frame that the reader of a pipe was given. -/
def Ends.all (e : Ends) : List Bytes := e.handed ++ e.queue

/-- The frames that are not empty. -/
def full (frames : List Bytes) : List Bytes := frames.filter (· ≠ [])

theorem full_append (frames more : List Bytes) : full (frames ++ more) = full frames ++ full more := List.filter_append _ _

theorem Ends.all_take (e : Ends) : e.take.all = e.all := by
  rw [Ends.take.eq_def]
  cases hqueue : e.queue with
  | nil => rfl
  | cons frame rest => simp [Ends.all, hqueue]

theorem Ends.all_trySend {e e' : Ends} {frame : Bytes} (h : e.trySend frame = some e') : e'.all = e.all ++ [frame] := by
  rw [Ends.trySend] at h
  split at h
  · obtain rfl := Option.some.inj h
    exact (List.append_assoc _ _ _).symm
  · cases h

/-- What was given, and what the parts that are on their way join to behind the beginning of a frame, are the frames that
    were written. -/
def Joins (filling : Bytes) (pending : List (Piece UInt8)) (given written : List Bytes) : Prop :=
  ∃ frames, join filling pending = (frames, []) ∧ given ++ frames = full written

namespace Joins

variable {filling : Bytes} {part : Piece UInt8} {pending : List (Piece UInt8)} {given written : List Bytes}

theorem given_prefix (h : Joins filling pending given written) : given <+: full written := by
  obtain ⟨frames, -, hall⟩ := h
  exact ⟨frames, hall⟩

/-- The next part has room. -/
theorem fits (h : Joins filling (part :: pending) given written) (hbound : ∀ f ∈ written, f.length ≤ MOST_PIPE_FRAME) :
    filling.length + part.data.length ≤ MOST_PIPE_FRAME := by
  obtain ⟨frames, hjoin, hall⟩ := h
  by_cases hnil : filling ++ part.data = []
  · have hlength := congrArg List.length hnil
    rw [List.length_append, List.length_nil] at hlength
    omega
  · obtain ⟨m, hm, hle⟩ := join_fits hnil hjoin
    have hwritten : m ∈ full written := hall ▸ List.mem_append_right _ hm
    have hmost := hbound m (List.mem_filter.mp hwritten).1
    omega

theorem more (h : Joins filling (part :: pending) given written) (hmore : part.more = true) :
    Joins (filling ++ part.data) pending given written := by
  obtain ⟨frames, hjoin, hall⟩ := h
  rw [join, if_pos hmore] at hjoin
  exact ⟨frames, hjoin, hall⟩

theorem last (h : Joins filling (part :: pending) given written) (hmore : ¬part.more = true) :
    Joins [] pending (given ++ [filling ++ part.data]) written := by
  obtain ⟨frames, hjoin, hall⟩ := h
  rw [join, if_neg hmore] at hjoin
  obtain ⟨hframes, hrest⟩ := Prod.mk.inj hjoin
  refine ⟨(join [] pending).1, Prod.ext rfl hrest, ?_⟩
  rw [List.append_assoc, List.singleton_append, hframes, hall]

/-- Another frame is written. -/
theorem write (h : Joins filling pending given written) (frame : Bytes) :
    Joins filling (pending ++ parts PIPE_PART frame) given (written ++ [frame]) := by
  obtain ⟨frames, hjoin, hall⟩ := h
  refine ⟨frames ++ full [frame], ?_, ?_⟩
  · rw [join_append, hjoin]
    simp only
    rw [join_parts (by decide)]
    rfl
  · rw [full_append, ← List.append_assoc, hall]

end Joins

/-- One end of a pipe on which parts are on their way: what its reader was given are the first of the frames that were
    written, and while the pipe is open, what is on its way are the others. -/
structure Carried (i : Inlet) (pipe : Uuid) (pending : List (Piece UInt8)) (written : List Bytes) : Prop where
  given : (i.ends pipe).all <+: full written
  coming : ∀ filling, i.pipes.lookup pipe = some filling → Joins filling pending (i.ends pipe).all written

variable {i i' : Inlet} {pending : List (Piece UInt8)} {written : List Bytes}

theorem Inlet.lookup_remove (h : other ≠ pipe) : (i.remove pipe).pipes.lookup other = i.pipes.lookup other := by
  rw [Inlet.remove, Dictionary.lookup_erase, if_neg h]

namespace Carried

theorem congr (h : Carried i pipe pending written) (hlookup : i'.pipes.lookup pipe = i.pipes.lookup pipe)
    (hends : (i'.ends pipe).all = (i.ends pipe).all) : Carried i' pipe pending written := by
  refine ⟨?_, ?_⟩
  · rw [hends]
    exact h.given
  · rw [hlookup, hends]
    exact h.coming

/-- The pipe goes. -/
theorem gone (h : Carried i pipe pending written) (hlookup : i'.pipes.lookup pipe = none)
    (hends : (i'.ends pipe).all = (i.ends pipe).all) {pending' : List (Piece UInt8)} : Carried i' pipe pending' written := by
  refine ⟨?_, fun filling hsome => ?_⟩
  · rw [hends]
    exact h.given
  · rw [hlookup] at hsome
    cases hsome

theorem remove (h : Carried i pipe pending written) {pending' : List (Piece UInt8)} :
    Carried (i.remove pipe) pipe pending' written := by
  have hgone : (i.remove pipe).pipes.lookup pipe = none := by
    rw [Inlet.remove, Dictionary.lookup_erase, if_pos rfl]
  exact h.gone hgone rfl

/-- Another frame is written. -/
theorem write (h : Carried i pipe pending written) (frame : Bytes) :
    Carried i pipe (pending ++ parts PIPE_PART frame) (written ++ [frame]) := by
  refine ⟨?_, fun filling hfilling => (h.coming filling hfilling).write frame⟩
  rw [full_append]
  exact h.given.trans (List.prefix_append _ _)

end Carried

/-- What holds of the other pipes after a part came in. -/
def Inlet.Besides (i i' : Inlet) (pipe : Uuid) : Prop :=
  ∀ p, p ≠ pipe → i'.pipes.lookup p = i.pipes.lookup p ∧ i'.ends p = i.ends p

theorem Carried.part {part : Piece UInt8} (h : Carried i pipe (part :: pending) written)
    (hbound : ∀ f ∈ written, f.length ≤ MOST_PIPE_FRAME) :
    ∃ i' closed, i.pipePart pipe part = .ok (i', closed) ∧ Carried i' pipe pending written ∧ i.Besides i' pipe := by
  rw [Inlet.pipePart.eq_def]
  cases hlookup : i.pipes.lookup pipe with
  | none => exact ⟨i, false, rfl, h.gone hlookup rfl, fun _ _ => ⟨rfl, rfl⟩⟩
  | some filling =>
    have hcoming := h.coming filling hlookup
    simp only
    rw [if_neg (not_lt.mpr (hcoming.fits hbound))]
    by_cases hmore : part.more = true
    · rw [if_pos hmore]
      refine ⟨_, false, rfl, ⟨h.given, fun filling' hfilling' => ?_⟩, fun p hp => ⟨?_, rfl⟩⟩
      · rw [Dictionary.lookup_insert, if_pos rfl] at hfilling'
        obtain rfl := Option.some.inj hfilling'
        exact hcoming.more hmore
      · rw [Dictionary.lookup_insert, if_neg hp]
    · rw [if_neg hmore]
      have hlast := hcoming.last hmore
      cases hsend : (i.ends pipe).trySend (filling ++ part.data) with
      | none => exact ⟨i.remove pipe, true, rfl, h.remove, fun p hp => ⟨Inlet.lookup_remove hp, rfl⟩⟩
      | some e =>
        rw [← Ends.all_trySend hsend] at hlast
        refine ⟨_, false, rfl, ⟨?_, fun filling' hfilling' => ?_⟩, fun p hp => ⟨?_, ?_⟩⟩
        · simp only [Inlet.update, if_pos]
          exact hlast.given_prefix
        · rw [Dictionary.lookup_insert, if_pos rfl] at hfilling'
          obtain rfl := Option.some.inj hfilling'
          simp only [Inlet.update, if_pos]
          exact hlast
        · rw [Dictionary.lookup_insert, if_neg hp]
        · simp only [Inlet.update, if_neg hp]

end Kodosi.Connections.Pipes
