import Kodosi.Lib.Bytes

/-! Frames between the programs of one computer: four bytes of a size, then so many bytes. A call that reads a frame can be
    given up between two reads, and the next call goes on where it stopped. -/

namespace Kodosi.Wire.LocalHost
open Kodosi.Lib

abbrev Bytes := List UInt8

def TERMINAL_SNAPSHOT_MAX_BYTES : Nat := 8 * 1024 * 1024 + 4 * (64 * 1024 * 1024) + 4 * 1024 * 1024
def TERMINAL_FRAME_MAX : Nat := TERMINAL_SNAPSHOT_MAX_BYTES + 10
def MAX_FRAME : Nat := 8 * 1024 * 1024 + 64 * 1024

inductive Error where
  | io
  | unexpectedEof
  | invalid (message : String)
  deriving DecidableEq

/-- The bytes that a frame puts on the stream. -/
def writeFrame (bytes : Bytes) : Except Error Bytes :=
  if bytes = [] ∨ TERMINAL_FRAME_MAX < bytes.length then .error (.invalid "local frame exceeds its bound")
  else if 2 ^ 32 ≤ bytes.length then .error (.invalid "local frame length overflow")
  else .ok (toBe 4 bytes.length ++ bytes)

/-- What a read gives: so many bytes and one, or fewer where fewer are there or fit, or an error. -/
inductive Read where
  | gives (count : Nat)
  | fails
  deriving DecidableEq

structure FrameReader where
  input : Bytes
  prefixBytes : Bytes
  prefixRead : Nat
  body : Bytes
  bodyRead : Nat
  maximum : Nat

def FrameReader.new (input : Bytes) : FrameReader := ⟨input, [0, 0, 0, 0], 0, [], 0, MAX_FRAME⟩

/-- The loop that reads into what is left of a buffer. Without an error the call is given up when its reads end: `none`. -/
def fill : List Read → Bytes → Bytes → Nat → Except (Option Error) (List Read) × Bytes × Bytes × Nat
  | [], input, buffer, done => (if done < buffer.length then .error none else .ok [], input, buffer, done)
  | read :: reads, input, buffer, done =>
    if done < buffer.length then
      match read with
      | .fails => (.error (some .io), input, buffer, done)
      | .gives count =>
        let chunk := input.take (min (count + 1) (buffer.length - done))
        if chunk.length = 0 then (.error (some .unexpectedEof), input, buffer, done)
        else fill reads (input.drop chunk.length)
          (buffer.take done ++ chunk ++ buffer.drop (done + chunk.length)) (done + chunk.length)
    else (.ok (read :: reads), input, buffer, done)

namespace FrameReader

/-- The buffer of the body, made when the size is known. -/
def sized (r : FrameReader) : Except Error FrameReader :=
  if r.body = [] then
    let size := ofBe r.prefixBytes
    if size = 0 ∨ r.maximum < size then .error (.invalid "local frame exceeds its bound")
    else .ok { r with body := List.replicate size 0 }
  else .ok r

def readBody (r : FrameReader) (reads : List Read) : Option (Except Error Bytes) × FrameReader :=
  match fill reads r.input r.body r.bodyRead with
  | (.error e, input, body, bodyRead) => (e.map .error, { r with input, body, bodyRead })
  | (.ok _, input, body, _) => (some (.ok body), { r with input, prefixRead := 0, body := [], bodyRead := 0 })

/-- A call of `read_frame` and what its reads give. It gives nothing where it is given up. -/
def readFrame (r : FrameReader) (reads : List Read) : Option (Except Error Bytes) × FrameReader :=
  match fill reads r.input r.prefixBytes r.prefixRead with
  | (.error e, input, prefixBytes, prefixRead) => (e.map .error, { r with input, prefixBytes, prefixRead })
  | (.ok reads, input, prefixBytes, prefixRead) =>
    match sized { r with input, prefixBytes, prefixRead } with
    | .error e => (some (.error e), { r with input, prefixBytes, prefixRead })
    | .ok r => r.readBody reads

/-- Calls one after the other on the same reader: what they gave. -/
def readFrames (r : FrameReader) : List (List Read) → List (Option (Except Error Bytes)) × FrameReader
  | [] => ([], r)
  | reads :: calls =>
    let (answer, r) := r.readFrame reads
    let (answers, r) := readFrames r calls
    (answer :: answers, r)

end FrameReader

/-! ### One loop -/

/-- What a loop of reads does: it takes bytes of the stream into the buffer, one at least with each read. -/
structure Fills (reads : List Read) (input buffer : Bytes) (done : Nat) (e : Except (Option Error) (List Read))
    (input' buffer' : Bytes) (done' : Nat) : Prop where
  length : buffer'.length = buffer.length
  taken : buffer'.take done' ++ input' = buffer.take done ++ input
  onward : done ≤ done' ∧ done' ≤ buffer.length
  full : ∀ rest, e = .ok rest → done' = buffer.length ∧ input'.length + reads.length ≤ input.length + rest.length ∧
    ∀ x ∈ rest, x ∈ reads
  stopped : ∀ error, e = .error error → done' < buffer.length ∧ (error = none → input'.length + reads.length ≤ input.length) ∧
    ∀ x ∈ error, x = .unexpectedEof ∧ input' = [] ∨ x = .io ∧ .fails ∈ reads

variable {reads : List Read} {input buffer input' buffer' : Bytes} {done done' : Nat} {e : Except (Option Error) (List Read)}

theorem fill_fills (hdone : done ≤ buffer.length) (h : fill reads input buffer done = (e, input', buffer', done')) :
    Fills reads input buffer done e input' buffer' done' := by
  induction reads generalizing input buffer done with
  | nil =>
    rw [fill] at h
    obtain ⟨rfl, rfl, rfl, rfl⟩ := h
    split_ifs with hlt
    · exact ⟨rfl, rfl, ⟨le_rfl, hdone⟩, nofun, fun _ h => by cases h; exact ⟨hlt, fun _ => le_rfl, nofun⟩⟩
    · exact ⟨rfl, rfl, ⟨le_rfl, hdone⟩, fun _ h => by cases h; exact ⟨by omega, le_rfl, fun _ => id⟩, nofun⟩
  | cons read reads ih =>
    by_cases hlt : done < buffer.length
    · cases read with
      | fails =>
        rw [fill, if_pos hlt] at h
        obtain ⟨rfl, rfl, rfl, rfl⟩ := h
        refine ⟨rfl, rfl, ⟨le_rfl, hdone⟩, nofun, fun _ h => ?_⟩
        cases h
        refine ⟨hlt, nofun, fun x hx => .inr ⟨(Option.mem_some.mp hx).symm, List.mem_cons_self⟩⟩
      | gives count =>
        rw [fill, if_pos hlt] at h
        dsimp only at h
        by_cases hend : (input.take (min (count + 1) (buffer.length - done))).length = 0
        · rw [if_pos hend] at h
          obtain ⟨rfl, rfl, rfl, rfl⟩ := h
          rw [List.length_take] at hend
          refine ⟨rfl, rfl, ⟨le_rfl, hdone⟩, nofun, fun _ h => ?_⟩
          cases h
          exact ⟨hlt, nofun, fun x hx => .inl ⟨(Option.mem_some.mp hx).symm, List.eq_nil_of_length_eq_zero (by omega)⟩⟩
        · rw [if_neg hend] at h
          obtain ⟨rest, hrest⟩ : input.take (min (count + 1) (buffer.length - done)) <+: input := List.take_prefix _ _
          have hlength := List.length_take (i := min (count + 1) (buffer.length - done)) (l := input)
          generalize input.take (min (count + 1) (buffer.length - done)) = chunk at *
          obtain rfl := hrest
          rw [List.drop_left] at h
          have htaken : (buffer.take done ++ chunk ++ buffer.drop (done + chunk.length)).take (done + chunk.length) =
              buffer.take done ++ chunk := List.take_left' (by simp; omega)
          have hbuffer : (buffer.take done ++ chunk ++ buffer.drop (done + chunk.length)).length = buffer.length := by
            simp
            omega
          have hfills := ih (by omega) h
          refine ⟨hfills.length.trans hbuffer, ?_, ⟨by have := hfills.onward; omega, hbuffer ▸ hfills.onward.2⟩, fun later he => ?_, fun error he => ?_⟩
          · rw [hfills.taken, htaken, List.append_assoc]
          · obtain ⟨hdone', hfewer, hlater⟩ := hfills.full later he
            refine ⟨hdone'.trans hbuffer, ?_, fun x hx => List.mem_cons_of_mem _ (hlater x hx)⟩
            rw [List.length_cons, List.length_append]
            omega
          · obtain ⟨hshort, hfewer, hwhy⟩ := hfills.stopped error he
            refine ⟨hbuffer ▸ hshort, fun hnone => ?_, fun x hx => (hwhy x hx).imp_right fun h => ⟨h.1, List.mem_cons_of_mem _ h.2⟩⟩
            have := hfewer hnone
            rw [List.length_cons, List.length_append]
            omega
    · unfold fill at h
      rw [if_neg hlt] at h
      obtain ⟨rfl, rfl, rfl, rfl⟩ := h
      exact ⟨rfl, rfl, ⟨le_rfl, hdone⟩, fun _ h => by cases h; exact ⟨by omega, le_rfl, fun _ => id⟩, nofun⟩

/-! ### The reader -/

/-- A frame on the stream. -/
def framed (frame : Bytes) : Bytes := toBe 4 frame.length ++ frame

/-- Frames that a reader takes. -/
def Fit (maximum : Nat) (frames : List Bytes) : Prop := ∀ f ∈ frames, f ≠ [] ∧ f.length ≤ maximum ∧ f.length < 2 ^ 32

variable {left more : List Bytes} {maximum : Nat} {head rest f : Bytes} {r : FrameReader}

/-- Four bytes at the start of frames are the size of the first one. -/
theorem next_frame (hfit : Fit maximum left) (hfour : head.length = 4) (h : head ++ rest = left.flatMap framed) :
    ∃ f more, left = f :: more ∧ ofBe head = f.length ∧ rest = f ++ more.flatMap framed := by
  cases left with
  | nil =>
    have := congrArg List.length h
    simp [hfour] at this
  | cons f more =>
    rw [List.flatMap_cons, framed, List.append_assoc] at h
    obtain ⟨rfl, rfl⟩ := List.append_inj h (by simp [hfour])
    exact ⟨f, more, rfl, ofBe_toBe 4 _ (hfit f List.mem_cons_self).2.2, rfl⟩

namespace FrameReader

/-- What the reader has of the frame that comes next. -/
def held (r : FrameReader) : Bytes := r.prefixBytes.take r.prefixRead ++ r.body.take r.bodyRead

/-- A reader between two reads, before the end of the size or before the end of the body of the next frame. -/
structure Inside (r : FrameReader) (left : List Bytes) : Prop where
  four : r.prefixBytes.length = 4
  onward : r.held ++ r.input = left.flatMap framed
  place : r.prefixRead < 4 ∧ r.body = [] ∧ r.bodyRead = 0 ∨
    r.prefixRead = 4 ∧ r.bodyRead < r.body.length ∧ r.body.length = ofBe r.prefixBytes

/-- Where the stream is at its end, no frame is left. -/
theorem Inside.none_left (h : r.Inside left) (hfit : Fit maximum left) (hend : r.input = []) : left = [] := by
  have honward := h.onward
  rw [hend, List.append_nil, held] at honward
  rcases h.place with ⟨hlt, hbody, -⟩ | ⟨hfour, hlt, hsize⟩
  · cases left with
    | nil => rfl
    | cons f more =>
      have := congrArg List.length honward
      simp [hbody, framed, h.four] at this
      omega
  · rw [hfour, List.take_of_length_le h.four.le] at honward
    obtain ⟨f, more, -, hlength, hrest⟩ := next_frame hfit h.four honward
    have := congrArg List.length hrest
    rw [List.length_take, List.length_append] at this
    omega

/-- What a call gives with these frames left and so many bytes on the stream: the first of them, or an error that is not
    the reader's own, or nothing after it took a byte with each read. -/
def Answers (maximum length : Nat) (left : List Bytes) (reads : List Read) :
    Option (Except Error Bytes) × FrameReader → Prop
  | (some (.ok f), r) => r.maximum = maximum ∧ ∃ more, left = f :: more ∧ r.Inside more
  | (some (.error e), r) => r.maximum = maximum ∧ r.Inside left ∧
    (e = .unexpectedEof ∧ r.input = [] ∨ e = .io ∧ .fails ∈ reads)
  | (none, r) => r.maximum = maximum ∧ r.Inside left ∧ r.input.length + reads.length ≤ length

theorem readBody_answers (hfit : Fit r.maximum left) (hfour : r.prefixBytes.length = 4) (hread : r.prefixRead = 4)
    (hbody : r.bodyRead ≤ r.body.length ∧ r.body.length = ofBe r.prefixBytes) (honward : r.held ++ r.input = left.flatMap framed)
    (reads : List Read) : Answers r.maximum r.input.length left reads (r.readBody reads) := by
  have hheld : ∀ body : Bytes, r.prefixBytes.take r.prefixRead ++ body = r.prefixBytes ++ body := fun body => by
    rw [hread, List.take_of_length_le hfour.le]
  rw [held, hheld, List.append_assoc] at honward
  unfold readBody
  rcases hfill : fill reads r.input r.body r.bodyRead with ⟨_ | later, input, body, bodyRead⟩
  · have hfills := fill_fills hbody.1 hfill
    obtain ⟨hlt, hfewer, hwhy⟩ := hfills.stopped _ rfl
    have hinside : ({ r with input, body, bodyRead } : FrameReader).Inside left :=
      ⟨hfour, by rw [held, hheld, List.append_assoc, hfills.taken, honward], .inr ⟨hread, hfills.length ▸ hlt, hfills.length.trans hbody.2⟩⟩
    rename_i error
    cases error with
    | none => exact ⟨rfl, hinside, hfewer rfl⟩
    | some error => exact ⟨rfl, hinside, hwhy error rfl⟩
  · have hfills := fill_fills hbody.1 hfill
    obtain ⟨f, more, rfl, hsize, hrest⟩ := next_frame hfit hfour honward
    have hwhole := hfills.taken
    rw [List.take_of_length_le (by rw [hfills.length, (hfills.full later rfl).1]), hrest] at hwhole
    obtain ⟨rfl, rfl⟩ := List.append_inj hwhole (by rw [hfills.length, hbody.2, hsize])
    exact ⟨rfl, more, rfl, hfour, by simp [held], .inl ⟨Nat.zero_lt_succ 3, rfl, rfl⟩⟩

theorem Answers.later {length length' : Nat} {later : List Read} {x : Option (Except Error Bytes) × FrameReader}
    (h : Answers maximum length left later x) (hcount : length + reads.length ≤ length' + later.length)
    (hsub : ∀ x ∈ later, x ∈ reads) : Answers maximum length' left reads x := by
  match x, h with
  | (some (.ok f), r), h => exact h
  | (some (.error e), r), ⟨hmax, hinside, hwhy⟩ => exact ⟨hmax, hinside, hwhy.imp_right fun h => ⟨h.1, hsub _ h.2⟩⟩
  | (none, r), ⟨hmax, hinside, hfewer⟩ => exact ⟨hmax, hinside, by omega⟩

theorem readFrame_answers (h : r.Inside left) (hfit : Fit r.maximum left) (reads : List Read) :
    Answers r.maximum r.input.length left reads (r.readFrame reads) := by
  unfold readFrame
  have honward := h.onward
  rw [held, List.append_assoc] at honward
  have hread : r.prefixRead ≤ r.prefixBytes.length := by
    have := h.four
    rcases h.place with h | h <;> omega
  rcases hfill : fill reads r.input r.prefixBytes r.prefixRead with ⟨error | later, input, prefixBytes, prefixRead⟩
  · have hfills := fill_fills hread hfill
    obtain ⟨hlt, hfewer, hwhy⟩ := hfills.stopped _ rfl
    rcases h.place with ⟨-, hbody, hzero⟩ | ⟨hfour, -, -⟩
    · have hinside : ({ r with input, prefixBytes, prefixRead } : FrameReader).Inside left := by
        refine ⟨hfills.length.trans h.four, ?_, .inl ⟨h.four ▸ hlt, hbody, hzero⟩⟩
        rw [hbody, List.take_nil, List.nil_append] at honward
        rw [held, hbody, List.take_nil, List.append_nil, hfills.taken, honward]
      cases error with
      | none => exact ⟨rfl, hinside, hfewer rfl⟩
      | some error => exact ⟨rfl, hinside, hwhy error rfl⟩
    · have := hfills.onward
      have := h.four
      omega
  · have hfills := fill_fills hread hfill
    obtain ⟨hall, hcount, hsub⟩ := hfills.full later rfl
    obtain rfl : prefixRead = 4 := hall.trans h.four
    have hfour := hfills.length.trans h.four
    have htaken := hfills.taken
    rw [List.take_of_length_le hfour.le] at htaken
    suffices hsized : ∃ body, sized { r with input, prefixBytes, prefixRead := 4 } =
          .ok { r with input, prefixBytes, prefixRead := 4, body } ∧ r.bodyRead ≤ body.length ∧ body.length = ofBe prefixBytes ∧
          prefixBytes ++ (body.take r.bodyRead ++ input) = left.flatMap framed by
      obtain ⟨body, hsized, hin, hlength, hstream⟩ := hsized
      dsimp only
      rw [hsized]
      refine (readBody_answers (r := { r with input, prefixBytes, prefixRead := 4, body }) hfit hfour rfl ⟨hin, hlength⟩ ?_ later).later
        hcount hsub
      rw [held, List.append_assoc, List.take_of_length_le hfour.le, hstream]
    rcases h.place with ⟨-, hbody, hzero⟩ | ⟨hread, hlt, hlength⟩
    · rw [hbody, List.take_nil, List.nil_append, ← htaken] at honward
      obtain ⟨f, more, hleft, hsize, -⟩ := next_frame hfit hfour honward
      obtain ⟨hne, hle, -⟩ := hfit f (hleft ▸ List.mem_cons_self)
      have hpos := List.length_pos_iff.mpr hne
      refine ⟨List.replicate (ofBe prefixBytes) 0, ?_, by omega, List.length_replicate, by rw [hzero]; exact honward⟩
      rw [sized, if_pos hbody, if_neg (by simp only; omega)]
    · rw [hread, List.take_of_length_le h.four.le] at htaken honward
      obtain ⟨rfl, rfl⟩ := List.append_inj htaken hfills.length
      refine ⟨r.body, ?_, hlt.le, hlength, honward⟩
      rw [sized, if_neg (List.ne_nil_of_length_pos (by simp only; omega))]

/-- A call that is not given up and whose reads do not fail gives the next frame. -/
theorem readFrame_next (h : r.Inside (f :: more)) (hfit : Fit r.maximum (f :: more)) (hreads : .fails ∉ reads)
    (hlong : r.input.length < reads.length) : (r.readFrame reads).1 = some (.ok f) := by
  have hanswers := readFrame_answers h hfit reads
  rcases hread : r.readFrame reads with ⟨_ | e | f', r'⟩ <;> rw [hread] at hanswers
  · have := hanswers.2.2
    omega
  · obtain ⟨hmax, hinside, ⟨-, hend⟩ | ⟨-, hfails⟩⟩ := hanswers
    · cases hinside.none_left hfit hend
    · exact absurd hfails hreads
  · obtain ⟨-, _, hleft, -⟩ := hanswers
    rw [(List.cons.inj hleft).1]

/-- The frames among what calls gave. -/
def returned (answers : List (Option (Except Error Bytes))) : List Bytes :=
  answers.filterMap fun | some (.ok frame) => some frame | _ => none

/-- What calls gave with these frames left, and what the reader is in front of then. -/
def Reads (maximum : Nat) (left more : List Bytes) (calls : List (List Read)) (x : List (Option (Except Error Bytes)) × FrameReader) : Prop :=
  left = returned x.1 ++ more ∧ x.2.maximum = maximum ∧ x.2.Inside more ∧
    ∀ e, some (.error e) ∈ x.1 → e = .unexpectedEof ∧ more = [] ∨ e = .io ∧ ∃ reads ∈ calls, .fails ∈ reads

theorem readFrames_reads (h : r.Inside left) (hfit : Fit r.maximum left) (calls : List (List Read)) :
    ∃ more, Reads r.maximum left more calls (r.readFrames calls) := by
  induction calls generalizing r left with
  | nil => exact ⟨left, rfl, rfl, h, nofun⟩
  | cons reads calls ih =>
    have hanswers := readFrame_answers h hfit reads
    have hlater : ∀ {p : Prop} {e : Error}, (p ∨ e = .io ∧ ∃ x ∈ calls, .fails ∈ x) → p ∨ e = .io ∧ ∃ x ∈ reads :: calls, .fails ∈ x :=
      Or.imp_right fun ⟨hio, x, hx, hfails⟩ => ⟨hio, x, List.mem_cons_of_mem _ hx, hfails⟩
    rw [readFrames]
    rcases hread : r.readFrame reads with ⟨_ | e | f, r'⟩ <;> rw [hread] at hanswers
    · obtain ⟨hmax, hinside, -⟩ := hanswers
      obtain ⟨more, hleft, hmax', hin, herrors⟩ := ih hinside (hmax ▸ hfit)
      refine ⟨more, hleft, hmax'.trans hmax, hin, fun e he => ?_⟩
      exact hlater (herrors e (by simpa using he))
    · obtain ⟨hmax, hinside, hwhy⟩ := hanswers
      obtain ⟨more, hleft, hmax', hin, herrors⟩ := ih hinside (hmax ▸ hfit)
      refine ⟨more, hleft, hmax'.trans hmax, hin, fun e' he => ?_⟩
      rcases List.mem_cons.mp he with he | he
      · cases he
        refine hwhy.imp (fun ⟨heof, hend⟩ => ⟨heof, ?_⟩) fun ⟨hio, hfails⟩ => ⟨hio, reads, List.mem_cons_self, hfails⟩
        rw [hinside.none_left hfit hend] at hleft
        exact (List.append_eq_nil_iff.mp hleft.symm).2
      · exact hlater (herrors e' he)
    · obtain ⟨hmax, left', rfl, hinside⟩ := hanswers
      obtain ⟨more, hleft, hmax', hin, herrors⟩ := ih hinside fun x hx => hmax ▸ hfit x (List.mem_cons_of_mem _ hx)
      refine ⟨more, congrArg (f :: ·) hleft, hmax'.trans hmax, hin, fun e he => ?_⟩
      exact hlater (herrors e (by simpa using he))

end FrameReader

/-- What is written is the frames on the stream. -/
theorem framed_of_written {frames written : List Bytes} (h : frames.mapM writeFrame = .ok written) :
    written = frames.map framed ∧ ∀ f ∈ frames, f ≠ [] ∧ f.length < 2 ^ 32 := by
  induction frames generalizing written with
  | nil =>
    cases h
    exact ⟨rfl, nofun⟩
  | cons f frames ih =>
    rw [List.mapM_cons, writeFrame] at h
    split_ifs at h with hbound hlong
    · cases h
    · cases h
    · cases hrest : frames.mapM writeFrame with
      | error e =>
        rw [hrest] at h
        cases h
      | ok rest =>
        rw [hrest] at h
        cases h
        obtain ⟨rfl, hfit⟩ := ih hrest
        exact ⟨rfl, List.forall_mem_cons.mpr ⟨⟨fun hnil => hbound (.inl hnil), by omega⟩, hfit⟩⟩

/-- Whatever the reads give and wherever calls are given up, the calls return the frames that were written, in their order,
    and leave the reader in front of the others; the next call that has its reads returns the next one. -/
theorem frames_read {frames written : List Bytes} {maximum : Nat} (hwritten : frames.mapM writeFrame = .ok written)
    (hmax : ∀ f ∈ frames, f.length ≤ maximum) (calls : List (List Read)) :
    let x := { FrameReader.new written.flatten with maximum }.readFrames calls
    ∃ more, FrameReader.Reads maximum frames more calls x ∧ (x.2.input = [] → more = []) ∧
      ∀ f ∈ more.head?, ∀ reads : List Read, .fails ∉ reads → x.2.input.length < reads.length →
        (x.2.readFrame reads).1 = some (.ok f) := by
  obtain ⟨rfl, hsizes⟩ := framed_of_written hwritten
  have hfit : Fit maximum frames := fun f hf => ⟨(hsizes f hf).1, hmax f hf, (hsizes f hf).2⟩
  obtain ⟨more, hreads⟩ := FrameReader.readFrames_reads (r := { FrameReader.new (frames.map framed).flatten with maximum })
    ⟨rfl, List.flatMap_def.symm, .inl ⟨Nat.zero_lt_succ 3, rfl, rfl⟩⟩ hfit calls
  obtain ⟨hframes, hkept, hinside, herrors⟩ := hreads
  have hmore : Fit maximum more := fun f hf => hfit f (hframes ▸ List.mem_append_right _ hf)
  refine ⟨more, ⟨hframes, hkept, hinside, herrors⟩, hinside.none_left hmore, fun f hf reads hno hlong => ?_⟩
  obtain ⟨rest, rfl⟩ := List.head?_eq_some_iff.mp hf
  exact FrameReader.readFrame_next hinside (hkept ▸ hmore) hno hlong

/-- Calls given up inside a size and inside a body, a read that fails, and the end of the stream. -/
theorem frames_read_in_parts :
    let calls := [[Read.gives 2], [.gives 0, .gives 0], [.fails], [.gives 9], [.gives 6, .gives 0], [.gives 0]]
    let x := { FrameReader.new [0, 0, 0, 2, 104, 105, 0, 0, 0, 1, 7] with maximum := MAX_FRAME }.readFrames calls
    x.1 = [none, none, some (.error .io), some (.ok [104, 105]), some (.ok [7]), some (.error .unexpectedEof)] ∧
      ∃ more, FrameReader.Reads MAX_FRAME [[104, 105], [7]] more calls x := by
  have hwritten : [[104, 105], [7]].mapM writeFrame = .ok [[0, 0, 0, 2, 104, 105], [0, 0, 0, 1, 7]] := by decide
  have hmax : ∀ f ∈ [[104, 105], ([7] : Bytes)], f.length ≤ MAX_FRAME := by decide
  exact ⟨by decide, (frames_read hwritten hmax _).imp fun _ h => h.1⟩

end Kodosi.Wire.LocalHost
