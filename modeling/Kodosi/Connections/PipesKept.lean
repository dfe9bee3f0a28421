import Kodosi.Connections.PipeEnds

/-! Every run of the pipes of a terminal's connection: what each reader is given are the frames that were written for him
    and are not empty, whole and in their order. -/

namespace Kodosi.Connections.Pipes
open Kodosi.Lib

variable {p q : Uuid}

@[simp] theorem set_same {α : Type} (f : Uuid → α) (a : α) : set f p a p = a := if_pos rfl

theorem set_other {α : Type} (f : Uuid → α) (a : α) (h : p ≠ q) : set f q a p = f p := if_neg h

/-- The parts that a pipe's document has left to the connection. -/
def Leaving.parts (pipe : Uuid) : Leaving → List (Piece UInt8)
  | .frame q written => if q = pipe then Lib.parts PIPE_PART written else []
  | .closed _ => []

namespace Connection

variable {s s' : Connection} {good : Bytes → Prop}

/-- What is on its way from the view to the host. -/
def upward (s : Connection) : List Packet := s.toHost ++ s.commands

def up (s : Connection) (p : Uuid) : List (Piece UInt8) := datas p s.upward ++ (s.tasks p).rest

/-- What is on its way from the host to the view. -/
def down (s : Connection) (p : Uuid) : List (Piece UInt8) := datas p (s.toView ++ s.pipeParts) ++ s.leaving.flatMap (Leaving.parts p)

/-- What holds of a pipe between two steps, when every frame that was written is `good`. Until the host knows the pipe, its opening is on its way in front of its
    parts; from then on each end hands out what was written at the other one. -/
structure Fits (good : Bytes → Prop) (s : Connection) (p : Uuid) : Prop where
  unasked : s.tasks p = .none → opens p s.upward = 0 ∧ s.documents p = .none ∧ s.shown p = []
  asked : s.tasks p ≠ .none → s.documents p = .none → opens p s.upward = 1
  reached : s.documents p ≠ .none → opens p s.upward = 0
  behind : s.documents p = .none → Behind p s.upward
  early : s.documents p = .none → s.host.pipes.lookup p = none ∧ (s.host.ends p).all = [] ∧
    join [] (s.up p) = (full (s.shown p), []) ∧ s.told p = [] ∧ s.down p = []
  hosted : s.documents p ≠ .none → Carried s.host p (s.up p) (s.shown p)
  viewed : Carried s.view p (s.down p) (s.told p)
  bound : (∀ f ∈ s.shown p, good f) ∧ ∀ f ∈ s.told p, good f

/-- A step that is nothing to a pipe. -/
structure Same (s s' : Connection) (p : Uuid) : Prop where
  tasks : s'.tasks p = s.tasks p
  documents : s'.documents p = .none ↔ s.documents p = .none
  opens : opens p s'.upward = opens p s.upward
  behind : Behind p s.upward → Behind p s'.upward
  up : s'.up p = s.up p
  down : s'.down p = s.down p
  hostLookup : s'.host.pipes.lookup p = s.host.pipes.lookup p
  hostAll : (s'.host.ends p).all = (s.host.ends p).all
  viewLookup : s'.view.pipes.lookup p = s.view.pipes.lookup p
  viewAll : (s'.view.ends p).all = (s.view.ends p).all
  shown : s'.shown p = s.shown p
  told : s'.told p = s.told p

theorem Fits.same (h : s.Fits good p) (e : s.Same s' p) : s'.Fits good p := by
  refine ⟨fun htask => ?_, fun htask hdocument => ?_, fun hdocument => ?_, fun hdocument => ?_, fun hdocument => ?_,
    fun hdocument => ?_, ?_, ?_⟩
  · rw [e.tasks] at htask
    rw [e.opens, e.documents, e.shown]
    exact h.unasked htask
  · rw [e.tasks] at htask
    rw [e.opens]
    exact h.asked htask (e.documents.mp hdocument)
  · rw [e.opens]
    exact h.reached fun hnone => hdocument (e.documents.mpr hnone)
  · exact e.behind (h.behind (e.documents.mp hdocument))
  · rw [e.hostLookup, e.hostAll, e.up, e.shown, e.told, e.down]
    exact h.early (e.documents.mp hdocument)
  · rw [e.up, e.shown]
    exact (h.hosted fun hnone => hdocument (e.documents.mpr hnone)).congr e.hostLookup e.hostAll
  · rw [e.down, e.told]
    exact h.viewed.congr e.viewLookup e.viewAll
  · rw [e.shown, e.told]
    exact h.bound

theorem Fits.new (p : Uuid) : new.Fits good p where
  unasked := fun _ => ⟨rfl, rfl, rfl⟩
  asked := fun hne => absurd rfl hne
  reached := fun hne => absurd rfl hne
  behind := fun _ => trivial
  early := fun _ => ⟨Dictionary.lookup_empty p, rfl, rfl, rfl, rfl⟩
  hosted := fun hne => absurd rfl hne
  viewed := ⟨List.nil_prefix, fun filling h => by
    have hnone : Connection.new.view.pipes.lookup p = none := Dictionary.lookup_empty p
    rw [hnone] at h
    cases h⟩
  bound := ⟨fun _ hf => absurd hf List.not_mem_nil, fun _ hf => absurd hf List.not_mem_nil⟩

/-! ### The view's side -/

theorem Fits.opens (h : s.Fits good p) (q : Uuid) (key name : String) : ∃ s', s.step (.opens q key name) = .ok s' ∧ s'.Fits good p := by
  rw [step]
  cases htask : s.tasks q with
  | carrying rest => exact ⟨s, rfl, h⟩
  | done => exact ⟨s, rfl, h⟩
  | none =>
    refine ⟨_, rfl, ?_⟩
    by_cases hq : p = q
    · subst hq
      obtain ⟨hopens, hdocument, hshown⟩ := h.unasked htask
      have hup : up { s with tasks := set s.tasks p (.carrying []), commands := s.commands ++ [.pipeOpen p key name] } p = s.up p := by
        simp [up, upward, htask, Task.rest]
      refine ⟨fun hnone => ?_, fun _ _ => ?_, fun hne => absurd hdocument hne, fun _ => ?_, fun _ => ?_, fun hne => absurd hdocument hne,
        h.viewed, h.bound⟩
      · simp only [set_same, reduceCtorEq] at hnone
      · simp only [upward, opens_append] at hopens ⊢
        simp [opens_open]
        omega
      · simp only [upward, ← List.append_assoc]
        exact (h.behind hdocument).append (.inl (.inl rfl))
      · rw [hup]
        exact h.early hdocument
    · refine h.same ⟨set_other _ _ hq, Iff.rfl, ?_, fun hbehind => ?_, ?_, rfl, rfl, rfl, rfl, rfl, rfl, rfl⟩
      · simp [upward, opens_open, Ne.symm hq]
      · simp only [upward, ← List.append_assoc]
        exact hbehind.append (.inl (.inr trivial))
      · simp [up, upward, set_other _ _ hq]

theorem Fits.viewWrites (h : s.Fits good p) (q : Uuid) {frame : Bytes} (hframe : good frame) :
    ∃ s', s.step (.viewWrites q frame) = .ok s' ∧ s'.Fits good p := by
  rw [step]
  cases htask : s.tasks q with
  | none => exact ⟨s, rfl, h⟩
  | done => exact ⟨s, rfl, h⟩
  | carrying rest =>
    cases rest with
    | cons part rest => exact ⟨s, rfl, h⟩
    | nil =>
      refine ⟨_, rfl, ?_⟩
      by_cases hq : p = q
      · subst hq
        have hne : s.tasks p ≠ .none := by
          rw [htask]
          exact fun hnone => by cases hnone
        have hup : up { s with
            tasks := set s.tasks p (.carrying (parts PIPE_PART frame))
            shown := set s.shown p (s.shown p ++ [frame]) } p = s.up p ++ parts PIPE_PART frame := by
          simp [up, upward, htask, Task.rest]
        refine ⟨fun hnone => ?_, fun _ => h.asked hne, h.reached, h.behind, fun hdocument => ?_, fun hdocument => ?_, h.viewed,
          ⟨?_, h.bound.2⟩⟩
        · simp only [set_same] at hnone
          cases hnone
        · obtain ⟨hlookup, hall, hjoin, hrest⟩ := h.early hdocument
          refine ⟨hlookup, hall, ?_, hrest⟩
          simp only [hup, join_append, hjoin, set_same]
          rw [join_parts (by decide), full, full, List.filter_append]
        · simp only [hup, set_same]
          exact (h.hosted hdocument).write frame
        · simp only [set_same]
          intro f hf
          rcases List.mem_append.mp hf with hf | hf
          · exact h.bound.1 f hf
          · rw [List.mem_singleton.mp hf]
            exact hframe
      · refine h.same ⟨set_other _ _ hq, Iff.rfl, rfl, id, ?_, rfl, rfl, rfl, rfl, rfl, set_other _ _ hq, rfl⟩
        simp [up, upward, set_other _ _ hq]

/-- A packet that is not the opening of a pipe goes behind its opening. -/
theorem Fits.behindMore (h : s.Fits good p) (htask : s.tasks p ≠ .none) (hdocument : s.documents p = .none) (packet : Packet) :
    Behind p (s.upward ++ [packet]) :=
  (h.behind hdocument).append (.inr (by
    rw [h.asked htask hdocument]
    exact Nat.one_pos))

/-- A task of the view gives a packet that opens nothing, with what it carries still on its way. -/
theorem Fits.gives (h : s.Fits good p) {q : Uuid} {task : Task} {packet : Packet} (hask : s.tasks q ≠ .none) (htask : task ≠ .none)
    (hopens : Pipes.opens p [packet] = 0) (hother : p ≠ q → Behind p [packet])
    (hup : up { s with tasks := set s.tasks q task, commands := s.commands ++ [packet] } p = s.up p) :
    Fits good { s with tasks := set s.tasks q task, commands := s.commands ++ [packet] } p := by
  have hopened : Pipes.opens p (s.toHost ++ (s.commands ++ [packet])) = Pipes.opens p s.upward := by
    rw [← List.append_assoc, opens_append, hopens]
    rfl
  by_cases hq : p = q
  · subst hq
    refine ⟨fun hnone => ?_, fun _ hdocument => ?_, fun hdocument => ?_, fun hdocument => ?_, fun hdocument => ?_,
      fun hdocument => ?_, h.viewed, h.bound⟩
    · simp only [set_same] at hnone
      exact absurd hnone htask
    · exact hopened.trans (h.asked hask hdocument)
    · exact hopened.trans (h.reached hdocument)
    · have hbehind := h.behindMore hask hdocument packet
      simp only [upward, List.append_assoc] at hbehind
      exact hbehind
    · rw [hup]
      exact h.early hdocument
    · rw [hup]
      exact h.hosted hdocument
  · refine h.same ⟨set_other _ _ hq, Iff.rfl, hopened, fun hbehind => ?_, hup, rfl, rfl, rfl, rfl, rfl, rfl, rfl⟩
    simp only [upward, ← List.append_assoc]
    exact hbehind.append (.inl (hother hq))

theorem Fits.viewSends (h : s.Fits good p) (q : Uuid) : ∃ s', s.step (.viewSends q) = .ok s' ∧ s'.Fits good p := by
  rw [step]
  cases htask : s.tasks q with
  | none => exact ⟨s, rfl, h⟩
  | done => exact ⟨s, rfl, h⟩
  | carrying rest =>
    cases rest with
    | nil => exact ⟨s, rfl, h⟩
    | cons part rest =>
      refine ⟨_, rfl, h.gives (by rw [htask]; exact nofun) nofun (by simp) (fun hq => ⟨Ne.symm hq, trivial⟩) ?_⟩
      by_cases hq : p = q
      · subst hq
        simp [up, upward, htask, Task.rest]
      · simp [up, upward, set_other _ _ hq, Ne.symm hq]

theorem Fits.viewEnds (h : s.Fits good p) (q : Uuid) : ∃ s', s.step (.viewEnds q) = .ok s' ∧ s'.Fits good p := by
  rw [step]
  cases htask : s.tasks q with
  | none => exact ⟨s, rfl, h⟩
  | done => exact ⟨s, rfl, h⟩
  | carrying rest =>
    cases rest with
    | cons part rest => exact ⟨s, rfl, h⟩
    | nil =>
      refine ⟨_, rfl, h.gives (by rw [htask]; exact nofun) nofun (by simp) (fun _ => trivial) ?_⟩
      by_cases hq : p = q
      · subst hq
        simp [up, upward, htask, Task.rest]
      · simp [up, upward, set_other _ _ hq]

/-- The view takes in hand what its tasks gave it. -/
theorem Fits.command (h : s.Fits good p) : ∃ s', s.step .command = .ok s' ∧ s'.Fits good p := by
  rw [step]
  cases hcommands : s.commands with
  | nil => exact ⟨s, rfl, h⟩
  | cons packet rest =>
    have hupward : upward { s with commands := rest, toHost := s.toHost ++ [packet] } = s.upward := by
      rw [upward, upward, hcommands, List.append_assoc]
      rfl
    have hmoved : Fits good { s with commands := rest, toHost := s.toHost ++ [packet] } p := by
      refine h.same ⟨rfl, Iff.rfl, ?_, ?_, ?_, rfl, rfl, rfl, rfl, rfl, rfl, rfl⟩
      · rw [hupward]
      · rw [hupward]
        exact id
      · rw [up, hupward]
        rfl
    cases packet with
    | pipeData q part => exact ⟨_, rfl, hmoved⟩
    | other => exact ⟨_, rfl, hmoved⟩
    | pipeOpen q key name =>
      refine ⟨_, rfl, ?_⟩
      by_cases hq : p = q
      · subst hq
        have hopens : Pipes.opens p s.upward ≠ 0 := by
          simp [upward, hcommands, opens_open]
        have hdocument : s.documents p = .none := not_not.mp fun hne => hopens (h.reached hne)
        obtain ⟨-, -, -, htold, hdown⟩ := h.early hdocument
        refine ⟨hmoved.unasked, hmoved.asked, hmoved.reached, hmoved.behind, hmoved.early, hmoved.hosted, ?_, h.bound⟩
        have hends : ((s.view.insert p).ends p).all = [] := by
          simp [Inlet.insert, Inlet.update, Ends.all, Ends.new]
        refine ⟨?_, fun filling hfilling => ⟨[], ?_, ?_⟩⟩
        · simp only [hends]
          exact List.nil_prefix
        · simp only [Inlet.insert, Dictionary.lookup_insert, if_pos] at hfilling
          obtain rfl := Option.some.inj hfilling
          have hdown' : down { s with commands := rest, toHost := s.toHost ++ [.pipeOpen p key name], view := s.view.insert p } p = [] := hdown
          rw [hdown']
          rfl
        · simp only [hends, htold]
          rfl
      · refine hmoved.same ⟨rfl, Iff.rfl, rfl, id, rfl, rfl, rfl, rfl, ?_, ?_, rfl, rfl⟩
        · rw [Inlet.insert, Dictionary.lookup_insert, if_neg hq]
        · simp [Inlet.insert, Inlet.update, hq]
    | pipeClose q =>
      refine ⟨_, rfl, ?_⟩
      by_cases hq : p = q
      · subst hq
        exact ⟨hmoved.unasked, hmoved.asked, hmoved.reached, hmoved.behind, hmoved.early, hmoved.hosted, hmoved.viewed.remove, h.bound⟩
      · exact hmoved.same ⟨rfl, Iff.rfl, rfl, id, rfl, rfl, rfl, rfl, Inlet.lookup_remove hq, rfl, rfl, rfl⟩

/-! ### The host's side -/

/-- Something arrives at the host that is not a part and not an opening. -/
theorem Fits.arrived (h : s.Fits good p) {packet : Packet} {rest : List Packet} (htoHost : s.toHost = packet :: rest)
    (hdatas : datas p [packet] = []) (hopens : Pipes.opens p [packet] = 0)
    (hbehind : ∀ packets, Behind p (packet :: packets) → Behind p packets) : Fits good { s with toHost := rest } p := by
  have hupward : s.upward = [packet] ++ upward { s with toHost := rest } := by
    rw [upward, htoHost]
    rfl
  refine h.same ⟨rfl, Iff.rfl, ?_, ?_, ?_, rfl, rfl, rfl, rfl, rfl, rfl, rfl⟩
  · rw [hupward, opens_append, hopens, Nat.zero_add]
  · rw [hupward]
    exact hbehind _
  · rw [up, up, hupward, datas_append, hdatas]
    rfl

/-- A part arrives at the host, which knows its pipe then. -/
theorem Fits.part (hgood : ∀ f, good f → f.length ≤ MOST_PIPE_FRAME) (h : ∀ p, s.Fits good p) {part : Piece UInt8} {rest : List Packet} (htoHost : s.toHost = .pipeData q part :: rest) :
    ∃ host closed, s.host.pipePart q part = .ok (host, closed) ∧ ∀ p, Fits good { s with
      toHost := rest
      host
      pipeParts := if closed then s.pipeParts ++ [.pipeClose q] else s.pipeParts } p := by
  have hupward : s.upward = .pipeData q part :: upward { s with toHost := rest } := by
    rw [upward, htoHost]
    rfl
  have hdocument : s.documents q ≠ .none := by
    intro hnone
    have hbehind := (h q).behind hnone
    rw [hupward] at hbehind
    exact hbehind.1 rfl
  have hup : s.up q = part :: up { s with toHost := rest } q := by
    rw [up, up, hupward, datas_data, if_pos rfl]
    rfl
  have hhosted := (h q).hosted hdocument
  rw [hup] at hhosted
  obtain ⟨host, closed, hpart, hcarried, hbesides⟩ := hhosted.part fun f hf => hgood f ((h q).bound.1 f hf)
  have hdown : ∀ p, down { s with
      toHost := rest
      host
      pipeParts := if closed = true then s.pipeParts ++ [.pipeClose q] else s.pipeParts } p = s.down p := by
    intro p
    cases closed <;> simp [down]
  refine ⟨host, closed, hpart, fun p => ?_⟩
  by_cases hq : p = q
  · subst hq
    have hopens := (h p).reached hdocument
    rw [hupward, opens_data] at hopens
    refine ⟨fun htask => absurd ((h p).unasked htask).2.1 hdocument, fun _ hnone => absurd hnone hdocument, fun _ => hopens,
      fun hnone => absurd hnone hdocument, fun hnone => absurd hnone hdocument, fun _ => hcarried, ?_, (h p).bound⟩
    rw [hdown]
    exact (h p).viewed
  · have hleft := (h p).arrived htoHost (by simp [Ne.symm hq]) (by simp) fun _ hbehind => hbehind.2
    obtain ⟨hlookup, hends⟩ := hbesides p hq
    exact hleft.same ⟨rfl, Iff.rfl, rfl, id, rfl, hdown p, hlookup, by rw [hends], rfl, rfl, rfl, rfl⟩

/-- The host learns of a pipe, which it opens or refuses. -/
theorem Fits.openPipe (h : s.Fits good p) {key name : String} {rest : List Packet} (htoHost : s.toHost = .pipeOpen q key name :: rest) :
    (({ s with toHost := rest } : Connection).openPipe q).Fits good p := by
  have hupward : s.upward = .pipeOpen q key name :: upward { s with toHost := rest } := by
    rw [upward, htoHost]
    rfl
  by_cases hq : p = q
  · subst hq
    have hopens : Pipes.opens p s.upward = Pipes.opens p (upward { s with toHost := rest }) + 1 := by
      rw [hupward, opens_open, if_pos rfl]
    have hdocument : s.documents p = .none := not_not.mp fun hne => by
      have hreached := h.reached hne
      omega
    have htask : s.tasks p ≠ .none := fun hnone => by
      have hunasked := (h.unasked hnone).1
      omega
    have hasked := h.asked htask hdocument
    have hup : up { s with toHost := rest } p = s.up p := by
      rw [up, up, hupward, datas_open]
    obtain ⟨hlookup, hall, hjoin, htold, hdown⟩ := h.early hdocument
    rw [Connection.openPipe]
    split
    · have hgone : Carried s.host p (up { s with toHost := rest } p) (s.shown p) :=
        ⟨by rw [hall]; exact List.nil_prefix, fun filling hfilling => by
          rw [hlookup] at hfilling
          cases hfilling⟩
      refine ⟨fun hnone => absurd hnone htask, fun _ hnone => ?_, fun _ => ?_, fun hnone => ?_, fun hnone => ?_, fun _ => hgone, ?_, h.bound⟩
      · simp only [set_same, reduceCtorEq] at hnone
      · have hzero : Pipes.opens p (upward { s with toHost := rest }) = 0 := by omega
        exact hzero
      · simp only [set_same, reduceCtorEq] at hnone
      · simp only [set_same, reduceCtorEq] at hnone
      · have hsame : down { s with
            toHost := rest
            pipeParts := s.pipeParts ++ [.pipeClose p]
            documents := set s.documents p .done } p = s.down p := by simp [down]
        rw [hsame]
        exact h.viewed
    · have hnew : Carried (s.host.insert p) p (up { s with toHost := rest } p) (s.shown p) := by
        have hends : ((s.host.insert p).ends p).all = [] := by
          simp [Inlet.insert, Inlet.update, Ends.all, Ends.new]
        refine ⟨by rw [hends]; exact List.nil_prefix, fun filling hfilling => ⟨full (s.shown p), ?_, ?_⟩⟩
        · simp only [Inlet.insert, Dictionary.lookup_insert, if_pos] at hfilling
          obtain rfl := Option.some.inj hfilling
          rw [hup]
          exact hjoin
        · rw [hends]
          rfl
      refine ⟨fun hnone => absurd hnone htask, fun _ hnone => ?_, fun _ => ?_, fun hnone => ?_, fun hnone => ?_, fun _ => hnew, h.viewed,
        h.bound⟩
      · simp only [set_same, reduceCtorEq] at hnone
      · have hzero : Pipes.opens p (upward { s with toHost := rest }) = 0 := by omega
        exact hzero
      · simp only [set_same, reduceCtorEq] at hnone
      · simp only [set_same, reduceCtorEq] at hnone
  · have hleft := h.arrived htoHost (by simp) (by simp [opens_open, Ne.symm hq]) fun _ hbehind =>
      hbehind.resolve_left (Ne.symm hq)
    rw [Connection.openPipe]
    split
    · refine hleft.same ⟨rfl, ?_, rfl, id, rfl, ?_, rfl, rfl, rfl, rfl, rfl, rfl⟩
      · simp only [set_other _ _ hq]
      · simp [down]
    · refine hleft.same ⟨rfl, ?_, rfl, id, rfl, rfl, ?_, ?_, rfl, rfl, rfl, rfl⟩
      · simp only [set_other _ _ hq]
      · rw [Inlet.insert, Dictionary.lookup_insert, if_neg hq]
      · simp [Inlet.insert, Inlet.update, hq]

theorem Fits.hostReceives (hgood : ∀ f, good f → f.length ≤ MOST_PIPE_FRAME) (h : ∀ p, s.Fits good p) : ∃ s', s.step .hostReceives = .ok s' ∧ ∀ p, s'.Fits good p := by
  rw [step]
  cases htoHost : s.toHost with
  | nil => exact ⟨s, rfl, h⟩
  | cons packet rest =>
    cases packet with
    | other => exact ⟨_, rfl, fun p => (h p).arrived htoHost rfl rfl fun _ => id⟩
    | pipeOpen q key name => exact ⟨_, rfl, fun p => (h p).openPipe htoHost⟩
    | pipeData q part =>
      obtain ⟨host, closed, hpart, hfits⟩ := Fits.part hgood h htoHost
      exact ⟨_, by simp only [hpart]; rfl, hfits⟩
    | pipeClose q =>
      refine ⟨_, rfl, fun p => ?_⟩
      have hleft := (h p).arrived htoHost (by simp) (by simp) fun _ => id
      by_cases hq : p = q
      · subst hq
        refine ⟨hleft.unasked, hleft.asked, hleft.reached, hleft.behind, fun hdocument => ?_, fun hdocument => ?_, hleft.viewed, hleft.bound⟩
        · obtain ⟨-, hrest⟩ := hleft.early hdocument
          refine ⟨?_, hrest⟩
          simp only [Inlet.remove, Dictionary.lookup_erase, if_pos]
        · exact (hleft.hosted hdocument).remove
      · exact hleft.same ⟨rfl, Iff.rfl, rfl, id, rfl, rfl, Inlet.lookup_remove hq, rfl, rfl, rfl, rfl, rfl⟩

/-- A document that the host knows stays known. -/
theorem known {q : Uuid} {d d' : Document} (h : s.documents q = d) (hd : d ≠ .none) (hd' : d' ≠ .none) :
    set s.documents q d' p = .none ↔ s.documents p = .none := by
  by_cases hq : p = q
  · subst hq
    rw [set_same, h]
    exact ⟨fun hnone => absurd hnone hd', fun hnone => absurd hnone hd⟩
  · rw [set_other _ _ hq]

theorem Fits.documentOpens (h : s.Fits good p) (q : Uuid) : ∃ s', s.step (.documentOpens q) = .ok s' ∧ s'.Fits good p := by
  rw [step]
  split
  · rename_i hdocument
    refine ⟨_, rfl, h.same ⟨rfl, ?_, rfl, id, rfl, rfl, rfl, rfl, rfl, rfl, rfl, rfl⟩⟩
    exact known hdocument (by decide) (by decide)
  · exact ⟨s, rfl, h⟩

theorem Fits.documentFails (h : s.Fits good p) (q : Uuid) : ∃ s', s.step (.documentFails q) = .ok s' ∧ s'.Fits good p := by
  rw [step]
  split
  · rename_i hdocument
    refine ⟨_, rfl, h.same ⟨rfl, ?_, rfl, id, rfl, ?_, rfl, ?_, rfl, rfl, rfl, rfl⟩⟩
    · exact known hdocument.1 (by decide) (by decide)
    · simp [down, Leaving.parts]
    · simp only [Inlet.update]
      split <;> rfl
  · exact ⟨s, rfl, h⟩

theorem Fits.documentEnds (h : s.Fits good p) (q : Uuid) : ∃ s', s.step (.documentEnds q) = .ok s' ∧ s'.Fits good p := by
  rw [step]
  split
  · rename_i hdocument
    refine ⟨_, rfl, h.same ⟨rfl, ?_, rfl, id, rfl, ?_, rfl, rfl, rfl, rfl, rfl, rfl⟩⟩
    · exact known hdocument.1 (by decide) (by decide)
    · simp [down, Leaving.parts]
  · exact ⟨s, rfl, h⟩

theorem Fits.documentWrites (h : s.Fits good p) (q : Uuid) {frame : Bytes} (hframe : good frame) :
    ∃ s', s.step (.documentWrites q frame) = .ok s' ∧ s'.Fits good p := by
  rw [step]
  split
  · rename_i hdocument
    refine ⟨_, rfl, ?_⟩
    by_cases hq : p = q
    · subst hq
      have hknown : s.documents p ≠ .none := by
        rw [hdocument.1]
        decide
      have hdown : down { s with
          leaving := s.leaving ++ [.frame p frame]
          told := set s.told p (s.told p ++ [frame]) } p = s.down p ++ parts PIPE_PART frame := by
        simp [down, Leaving.parts]
      refine ⟨h.unasked, h.asked, h.reached, h.behind, fun hnone => absurd hnone hknown, h.hosted, ?_, h.bound.1, ?_⟩
      · simp only [hdown, set_same]
        exact h.viewed.write frame
      · simp only [set_same]
        intro f hf
        rcases List.mem_append.mp hf with hf | hf
        · exact h.bound.2 f hf
        · rw [List.mem_singleton.mp hf]
          exact hframe
    · refine h.same ⟨rfl, Iff.rfl, rfl, id, rfl, ?_, rfl, rfl, rfl, rfl, rfl, set_other _ _ hq⟩
      simp [down, Leaving.parts, Ne.symm hq]
  · exact ⟨s, rfl, h⟩

theorem Fits.left (h : s.Fits good p) : ∃ s', s.step .left = .ok s' ∧ s'.Fits good p := by
  rw [step]
  split
  · cases hleaving : s.leaving with
    | nil => exact ⟨s, rfl, h⟩
    | cons left rest =>
      cases left with
      | closed q =>
        refine ⟨_, rfl, ?_⟩
        have hdown : down { s with leaving := rest, host := s.host.remove q, pipeParts := s.pipeParts ++ [.pipeClose q] } p = s.down p := by
          simp [down, hleaving, Leaving.parts]
        by_cases hq : p = q
        · subst hq
          refine ⟨h.unasked, h.asked, h.reached, h.behind, fun hdocument => ?_, fun hdocument => (h.hosted hdocument).remove, ?_, h.bound⟩
          · obtain ⟨-, hall, hjoin, htold, hnothing⟩ := h.early hdocument
            refine ⟨?_, hall, hjoin, htold, hdown.trans hnothing⟩
            simp only [Inlet.remove, Dictionary.lookup_erase, if_pos]
          · rw [hdown]
            exact h.viewed
        · exact h.same ⟨rfl, Iff.rfl, rfl, id, rfl, hdown, Inlet.lookup_remove hq, rfl, rfl, rfl, rfl, rfl⟩
      | frame q frame =>
        refine ⟨_, rfl, h.same ⟨rfl, Iff.rfl, rfl, id, rfl, ?_, rfl, rfl, rfl, rfl, rfl, rfl⟩⟩
        simp [down, hleaving, Leaving.parts, datas_chunks]
  · exact ⟨s, rfl, h⟩

theorem Fits.sendPart (h : s.Fits good p) : ∃ s', s.step .sendPart = .ok s' ∧ s'.Fits good p := by
  rw [step]
  cases hparts : s.pipeParts with
  | nil => exact ⟨s, rfl, h⟩
  | cons packet rest =>
    refine ⟨_, rfl, h.same ⟨rfl, Iff.rfl, rfl, id, rfl, ?_, rfl, rfl, rfl, rfl, rfl, rfl⟩⟩
    rw [down, down, hparts, List.append_assoc]
    rfl

/-- A part arrives at the view. -/
theorem Fits.shownPart (hgood : ∀ f, good f → f.length ≤ MOST_PIPE_FRAME) (h : ∀ p, s.Fits good p) {part : Piece UInt8} {rest : List Packet} (htoView : s.toView = .pipeData q part :: rest) :
    ∃ view closed, s.view.pipePart q part = .ok (view, closed) ∧ ∀ p, Fits good { s with
      toView := rest
      view
      toHost := if closed then s.toHost ++ [.pipeClose q] else s.toHost } p := by
  have hdown : s.down q = part :: down { s with toView := rest } q := by
    rw [down, down, htoView, List.cons_append, datas_data, if_pos rfl]
    rfl
  have hviewed := (h q).viewed
  rw [hdown] at hviewed
  obtain ⟨view, closed, hpart, hcarried, hbesides⟩ := hviewed.part fun f hf => hgood f ((h q).bound.2 f hf)
  have hclosed : ∀ p, Fits good { s with toHost := if closed then s.toHost ++ [.pipeClose q] else s.toHost } p := by
    intro p
    cases closed with
    | false => exact h p
    | true =>
      refine (h p).same ⟨rfl, Iff.rfl, ?_, fun hbehind => ?_, ?_, rfl, rfl, rfl, rfl, rfl, rfl, rfl⟩
      · simp [upward]
      · simp only [upward, if_pos, List.append_assoc]
        have hclose : Behind p [.pipeClose q] := trivial
        exact hclose.between s.toHost hbehind
      · simp [up, upward]
  refine ⟨view, closed, hpart, fun p => ?_⟩
  have hrest := hclosed p
  by_cases hq : p = q
  · subst hq
    refine ⟨hrest.unasked, hrest.asked, hrest.reached, hrest.behind, fun hdocument => ?_, hrest.hosted, hcarried, hrest.bound⟩
    have hnothing := (h p).early hdocument
    rw [hdown] at hnothing
    cases hnothing.2.2.2.2
  · obtain ⟨hlookup, hends⟩ := hbesides p hq
    refine hrest.same ⟨rfl, Iff.rfl, rfl, id, rfl, ?_, rfl, rfl, hlookup, by rw [hends], rfl, rfl⟩
    simp [down, htoView, Ne.symm hq]

theorem Fits.viewReceives (hgood : ∀ f, good f → f.length ≤ MOST_PIPE_FRAME) (h : ∀ p, s.Fits good p) : ∃ s', s.step .viewReceives = .ok s' ∧ ∀ p, s'.Fits good p := by
  rw [step]
  cases htoView : s.toView with
  | nil => exact ⟨s, rfl, h⟩
  | cons packet rest =>
    have hleft : ∀ p, datas p [packet] = [] → Fits good { s with toView := rest } p := by
      intro p hdatas
      refine (h p).same ⟨rfl, Iff.rfl, rfl, id, rfl, ?_, rfl, rfl, rfl, rfl, rfl, rfl⟩
      have hcons : s.toView ++ s.pipeParts = [packet] ++ (rest ++ s.pipeParts) := by
        rw [htoView]
        rfl
      have hsame : datas p (s.toView ++ s.pipeParts) = datas p (rest ++ s.pipeParts) := by
        rw [hcons, datas_append, hdatas]
        rfl
      rw [down, down, hsame]
    cases packet with
    | other => exact ⟨_, rfl, fun p => hleft p rfl⟩
    | pipeOpen q key name => exact ⟨_, rfl, fun p => hleft p rfl⟩
    | pipeData q part =>
      obtain ⟨view, closed, hpart, hfits⟩ := Fits.shownPart hgood h htoView
      exact ⟨_, by simp only [hpart]; rfl, hfits⟩
    | pipeClose q =>
      refine ⟨_, rfl, fun p => ?_⟩
      have hrest := hleft p rfl
      by_cases hq : p = q
      · subst hq
        exact ⟨hrest.unasked, hrest.asked, hrest.reached, hrest.behind, hrest.early, hrest.hosted, hrest.viewed.remove, hrest.bound⟩
      · exact hrest.same ⟨rfl, Iff.rfl, rfl, id, rfl, rfl, rfl, rfl, Inlet.lookup_remove hq, rfl, rfl, rfl⟩

/-! ### Runs -/

/-- A reader takes a frame, or goes. -/
theorem Fits.read (h : s.Fits good p) (q : Uuid) (f : Ends → Ends) (hf : ∀ e, (f e).all = e.all) :
    Fits good { s with view := s.view.update q f } p ∧ Fits good { s with host := s.host.update q f } p := by
  have hall : ∀ i : Inlet, ((i.update q f).ends p).all = (i.ends p).all := by
    intro i
    simp only [Inlet.update]
    split
    · exact hf _
    · rfl
  exact ⟨h.same ⟨rfl, Iff.rfl, rfl, id, rfl, rfl, rfl, rfl, rfl, hall _, rfl, rfl⟩,
    h.same ⟨rfl, Iff.rfl, rfl, id, rfl, rfl, rfl, hall _, rfl, rfl, rfl, rfl⟩⟩

theorem Fits.step (hgood : ∀ f, good f → f.length ≤ MOST_PIPE_FRAME) (h : ∀ p, s.Fits good p) (event : Event) (hframe : ∀ frame ∈ event.frame, good frame) :
    ∃ s', s.step event = .ok s' ∧ ∀ p, s'.Fits good p := by
  have each : (∀ p, ∃ s', s.step event = .ok s' ∧ s'.Fits good p) → ∃ s', s.step event = .ok s' ∧ ∀ p, s'.Fits good p := by
    intro hstep
    obtain ⟨s', hs', -⟩ := hstep 0
    refine ⟨s', hs', fun p => ?_⟩
    obtain ⟨s'', hs'', hfits⟩ := hstep p
    obtain rfl := Except.ok.inj (hs'.symm.trans hs'')
    exact hfits
  cases event with
  | opens q key name => exact each fun p => (h p).opens q key name
  | viewWrites q frame => exact each fun p => (h p).viewWrites q (hframe frame rfl)
  | viewSends q => exact each fun p => (h p).viewSends q
  | viewEnds q => exact each fun p => (h p).viewEnds q
  | command => exact each fun p => (h p).command
  | hostReceives => exact Fits.hostReceives hgood h
  | documentOpens q => exact each fun p => (h p).documentOpens q
  | documentFails q => exact each fun p => (h p).documentFails q
  | documentWrites q frame => exact each fun p => (h p).documentWrites q (hframe frame rfl)
  | documentEnds q => exact each fun p => (h p).documentEnds q
  | left => exact each fun p => (h p).left
  | sendPart => exact each fun p => (h p).sendPart
  | viewReceives => exact Fits.viewReceives hgood h
  | viewTakes q => exact ⟨_, rfl, fun p => ((h p).read q Ends.take Ends.all_take).1⟩
  | documentTakes q => exact ⟨_, rfl, fun p => ((h p).read q Ends.take Ends.all_take).2⟩
  | viewLeaves q => exact ⟨_, rfl, fun p => ((h p).read q (fun e => { e with read := false }) fun _ => rfl).1⟩
  | documentLeaves q => exact ⟨_, rfl, fun p => ((h p).read q (fun e => { e with read := false }) fun _ => rfl).2⟩
  | viewOther =>
    refine ⟨_, rfl, fun p => (h p).same ⟨rfl, Iff.rfl, ?_, fun hbehind => ?_, ?_, rfl, rfl, rfl, rfl, rfl, rfl, rfl⟩⟩
    · simp [upward]
    · have hother : Behind p [.other] := trivial
      simp only [upward, List.append_assoc]
      exact hother.between s.toHost hbehind
    · simp [up, upward]
  | hostOther =>
    refine ⟨_, rfl, fun p => (h p).same ⟨rfl, Iff.rfl, rfl, id, rfl, ?_, rfl, rfl, rfl, rfl, rfl, rfl⟩⟩
    simp [down]

end Connection

end Kodosi.Connections.Pipes
