import Kodosi.TerminalConnections.Directory
import Kodosi.Lib.Run

/-! The indexes of the connection directory agree with each other in every run of calls: no lookup by index fails, and every
    pipe that ends is told of once to each of its ends. -/

namespace Kodosi.TerminalConnections
open Kodosi.Lib

namespace Directory

variable {d d' : Directory} {c connection : DeviceConnection} {r : EntryRef} {p : Pipe} {ended : List Ended} {s id : Guid}
  {live : Hosted} {after : AfterUnlock}

/-! ### The invariant -/

/-- How many of some pipes a connection views. -/
def viewed (d : Directory) (c : DeviceConnection) (ids : List Guid) : Nat :=
  ids.countP fun id => (d.pipes.lookup id).any fun pipe => pipe.viewer = c

/-- By how many of some pipes a connection is called. -/
def called (d : Directory) (c : DeviceConnection) (ids : List Guid) : Nat :=
  ids.countP fun id => (d.pipes.lookup id).any fun pipe => pipe.host = c && pipe.isCall

/-- The indexes agree: the accounts name the entries that are registered, the terminals and their hosts name each other, and a
    pipe is held by its ends, by its terminal, and by nothing else. -/
structure Linked (d : Directory) : Prop where
  entry : ∀ {c r}, d.entries.lookup c = some r → r < d.next ∧ (d.heap r).connection = c
  account : ∀ {user device r}, d.device user device = some r ↔
    ∃ c, d.entries.lookup c = some r ∧ c.userId = user ∧ c.deviceId = device
  host : ∀ {s live}, d.hosted.lookup s = some live → s ≠ Guid.Empty ∧ ∃ c, d.entries.lookup c = some live.host
  hosted : ∀ {c r s}, d.entries.lookup c = some r →
    (s ∈ (d.heap r).hosted ↔ ∃ live, d.hosted.lookup s = some live ∧ live.host = r)
  pipe : ∀ {id p}, d.pipes.lookup id = some p →
    p.id = id ∧ (∃ r, d.entries.lookup p.viewer = some r) ∧ ∃ r, d.entries.lookup p.host = some r
  held : ∀ {c r id}, d.entries.lookup c = some r →
    (id ∈ (d.heap r).pipes ↔ ∃ p, d.pipes.lookup id = some p ∧ (p.viewer = c ∨ p.host = c))
  session : ∀ {s live id}, d.hosted.lookup s = some live →
    (id ∈ live.pipes ↔ ∃ p, d.pipes.lookup id = some p ∧ p.sessionId = s)
  once : ∀ {c r}, d.entries.lookup c = some r → (d.heap r).hosted.Nodup ∧ (d.heap r).pipes.Nodup
  onceHeld : ∀ {s live}, d.hosted.lookup s = some live → live.pipes.Nodup
  counts : ∀ {c r}, d.entries.lookup c = some r →
    (d.heap r).views = d.viewed c (d.heap r).pipes ∧ (d.heap r).calls = d.called c (d.heap r).pipes

/-- A pipe to a terminal is to the computer that hosts it now. -/
def Housed (d : Directory) : Prop := ∀ {id p}, d.pipes.lookup id = some p → p.isCall = true ∨
  ∃ live, d.hosted.lookup p.sessionId = some live ∧ d.entries.lookup p.host = some live.host

structure Consistent (d : Directory) : Prop where
  linked : Linked d
  housed : Housed d

theorem isCall_iff : p.isCall = true ↔ p.sessionId = Guid.Empty := decide_eq_true_iff

/-- No two connections have the same entry. -/
theorem Linked.entry_inj (h : Linked d) {c' : DeviceConnection} (hc : d.entries.lookup c = some r)
    (hc' : d.entries.lookup c' = some r) : c = c' := (h.entry hc).2.symm.trans (h.entry hc').2

/-! ### One pipe ends -/

/-- What a directory is without one of its pipes. -/
structure Without (d d' : Directory) (p : Pipe) : Prop where
  entries : d'.entries = d.entries
  accounts : d'.accounts = d.accounts
  next : d'.next = d.next
  pipes : ∀ id, d'.pipes.lookup id = if id = p.id then none else d.pipes.lookup id
  hosted : ∀ s, d'.hosted.lookup s = (d.hosted.lookup s).map fun live =>
    if s = p.sessionId then { live with pipes := live.pipes.erase p.id } else live
  connection : ∀ r, (d'.heap r).connection = (d.heap r).connection
  ready : ∀ r, (d'.heap r).ready = (d.heap r).ready
  hosts : ∀ r, (d'.heap r).hosted = (d.heap r).hosted
  held : ∀ {c r}, d.entries.lookup c = some r → (d'.heap r).pipes = (d.heap r).pipes.erase p.id
  views : ∀ {c r}, d.entries.lookup c = some r → (d'.heap r).views = (d.heap r).views - if p.viewer = c then 1 else 0
  calls : ∀ {c r}, d.entries.lookup c = some r →
    (d'.heap r).calls = (d.heap r).calls - if p.host = c ∧ p.isCall = true then 1 else 0

theorem lookup_modify_if {hosted : Dictionary Guid Hosted} {f : Hosted → Hosted} (s s' : Guid) :
    (hosted.modify s f).lookup s' = (hosted.lookup s').map fun live => if s' = s then f live else live := by
  rw [Dictionary.lookup_modify]
  by_cases hs : s' = s
  · subst hs
    simp
  · simp [hs]

theorem heap_updateEntry (d : Directory) (r r' : EntryRef) (f : Entry → Entry) :
    (d.updateEntry r f).heap r' = if r' = r then f (d.heap r') else d.heap r' := by
  show Function.update d.heap r (f (d.heap r)) r' = _
  rw [Function.update_apply]
  split_ifs with h
  · rw [h]
  · rfl

theorem updateRegistered_eq {f : Entry → Entry} (h : d.entries.lookup c = some r) :
    d.updateRegistered c f = d.updateEntry r f := by
  rw [updateRegistered, h]
  rfl

/-- A pipe that is in the table ends everywhere. -/
theorem Linked.removePipe (h : Linked d) (hp : d.pipes.lookup p.id = some p) :
    ∃ d', d.removePipeLocked p = (d', true) ∧ Without d d' p := by
  obtain ⟨-, ⟨rv, hv⟩, rh, hh⟩ := h.pipe hp
  have hrv : ∀ {c r}, d.entries.lookup c = some r → (r = rv ↔ p.viewer = c) := fun hc =>
    ⟨fun hr => h.entry_inj hv (hr ▸ hc), fun hr => Option.some.inj (hc.symm.trans (hr ▸ hv))⟩
  have hrh : ∀ {c r}, d.entries.lookup c = some r → (r = rh ↔ p.host = c) := fun hc =>
    ⟨fun hr => h.entry_inj hh (hr ▸ hc), fun hr => Option.some.inj (hc.symm.trans (hr ▸ hh))⟩
  let viewer (entry : Entry) : Entry := { entry with pipes := entry.pipes.erase p.id, views := entry.views - 1 }
  let host (entry : Entry) : Entry :=
    { entry with pipes := entry.pipes.erase p.id, calls := if p.isCall then entry.calls - 1 else entry.calls }
  let base : Directory := { d with
    pipes := d.pipes.erase p.id
    hosted := d.hosted.modify p.sessionId fun live => { live with pipes := live.pipes.erase p.id } }
  have hviewer : base.updateRegistered p.viewer viewer = base.updateEntry rv viewer := updateRegistered_eq hv
  have hhost : (base.updateEntry rv viewer).updateRegistered p.host host = (base.updateEntry rv viewer).updateEntry rh host :=
    updateRegistered_eq hh
  have heap : ∀ r, ((base.updateEntry rv viewer).updateEntry rh host).heap r =
      if r = rh then host (if r = rv then viewer (d.heap r) else d.heap r) else if r = rv then viewer (d.heap r) else d.heap r := by
    intro r
    rw [heap_updateEntry, heap_updateEntry]
  have hgone : ∀ {c r}, d.entries.lookup c = some r → r ≠ rv → r ≠ rh → p.id ∉ (d.heap r).pipes := by
    intro c r hc hviewer hhost hmem
    obtain ⟨p', hp', hends⟩ := (h.held hc).mp hmem
    obtain rfl := Option.some.inj (hp.symm.trans hp')
    exact hends.elim (fun he => hviewer ((hrv hc).mpr he)) fun he => hhost ((hrh hc).mpr he)
  refine ⟨(base.updateEntry rv viewer).updateEntry rh host, ?_, ?_⟩
  · rw [removePipeLocked, if_pos hp]
    exact congrArg (·, true) (by rw [← hhost, ← hviewer])
  refine ⟨rfl, rfl, rfl, fun id => Dictionary.lookup_erase _ _ _, fun s => lookup_modify_if _ _, fun r => ?_, fun r => ?_,
    fun r => ?_, fun {c r} hc => ?_, fun {c r} hc => ?_, fun {c r} hc => ?_⟩
  · rw [heap]
    split_ifs <;> rfl
  · rw [heap]
    split_ifs <;> rfl
  · rw [heap]
    split_ifs <;> rfl
  · rw [heap]
    split_ifs with hr hr' hr'
    · -- the viewer is the host too
      exact List.erase_of_not_mem (h.once hc).2.not_mem_erase
    · rfl
    · rfl
    · exact (List.erase_of_not_mem (hgone hc hr' hr)).symm
  · rw [heap]
    simp only [← hrv hc]
    split_ifs <;> simp [viewer, host]
  · rw [heap]
    simp only [← hrh hc]
    split_ifs <;> simp_all [viewer, host]

theorem countP_without {f g : Guid → Bool} {ids : List Guid} (hfg : ∀ other, other ≠ id → f other = g other)
    (hnodup : ids.Nodup) : ((ids.erase id).countP g : Int) = ids.countP f - if id ∈ ids ∧ f id = true then 1 else 0 := by
  have hsame : (ids.erase id).countP g = (ids.erase id).countP f :=
    List.countP_congr fun other hother => by rw [hfg other (hnodup.mem_erase_iff.mp hother).1]
  rw [hsame, List.countP_erase]
  split_ifs with hmem
  · have := List.countP_pos_iff.mpr ⟨id, hmem.1, hmem.2⟩
    omega
  · simp

theorem Without.viewed {ids : List Guid} (hw : Without d d' p) (hp : d.pipes.lookup p.id = some p) (hnodup : ids.Nodup) :
    ((d'.viewed c (ids.erase p.id) : Nat) : Int) = d.viewed c ids - if p.id ∈ ids ∧ p.viewer = c then 1 else 0 := by
  have hcount := @countP_without p.id (fun id => (d.pipes.lookup id).any fun pipe => pipe.viewer = c)
    (fun id => (d'.pipes.lookup id).any fun pipe => pipe.viewer = c) ids
    (fun id hid => by simp only [hw.pipes, if_neg hid]) hnodup
  simpa [Directory.viewed, hp] using hcount

theorem Without.called {ids : List Guid} (hw : Without d d' p) (hp : d.pipes.lookup p.id = some p) (hnodup : ids.Nodup) :
    ((d'.called c (ids.erase p.id) : Nat) : Int) =
      d.called c ids - if p.id ∈ ids ∧ p.host = c ∧ p.isCall = true then 1 else 0 := by
  have hcount := @countP_without p.id (fun id => (d.pipes.lookup id).any fun pipe => pipe.host = c && pipe.isCall)
    (fun id => (d'.pipes.lookup id).any fun pipe => pipe.host = c && pipe.isCall) ids
    (fun id hid => by simp only [hw.pipes, if_neg hid]) hnodup
  simpa [Directory.called, hp] using hcount

/-- The indexes agree when one pipe has ended. -/
theorem Without.linked (hw : Without d d' p) (h : Linked d) (hp : d.pipes.lookup p.id = some p) : Linked d' := by
  have hlookup : ∀ {id p'}, d'.pipes.lookup id = some p' ↔ id ≠ p.id ∧ d.pipes.lookup id = some p' := by
    intro id p'
    rw [hw.pipes]
    split_ifs with hid <;> simp [hid]
  have hentry : ∀ {c r}, d'.entries.lookup c = some r ↔ d.entries.lookup c = some r := by simp [hw.entries]
  have hdevice : ∀ {user device}, d'.device user device = d.device user device := by
    intro user device
    rw [Directory.device, Directory.device, hw.accounts]
  have hlive : ∀ {s live'}, d'.hosted.lookup s = some live' → ∃ live, d.hosted.lookup s = some live ∧ live'.host = live.host ∧
      live'.pipes = live.pipes.erase p.id := by
    intro s live' hs
    rw [hw.hosted, Option.map_eq_some_iff] at hs
    obtain ⟨live, hs, rfl⟩ := hs
    refine ⟨live, hs, by split_ifs <;> rfl, ?_⟩
    split_ifs with hsession
    · rfl
    · refine (List.erase_of_not_mem fun hmem => hsession ?_).symm
      obtain ⟨p', hp', hs'⟩ := (h.session hs).mp hmem
      rw [← hs', Option.some.inj (hp'.symm.trans hp)]
  refine ⟨fun hc => ?_, ?_, fun hs => ?_, fun {c r s} hc => ?_, fun hid => ?_, fun {c r id} hc => ?_, fun {s live' id} hs => ?_,
    fun hc => ?_, fun hs => ?_, fun {c r} hc => ?_⟩
  · rw [hw.next, hw.connection]
    exact h.entry (hentry.mp hc)
  · intro user device r
    simp only [hdevice, hentry]
    exact h.account
  · obtain ⟨live, hs, hhost, -⟩ := hlive hs
    obtain ⟨hnamed, c, hc⟩ := h.host hs
    exact ⟨hnamed, c, hentry.mpr (hhost ▸ hc)⟩
  · rw [hw.hosts, h.hosted (hentry.mp hc), hw.hosted]
    simp only [Option.map_eq_some_iff]
    refine ⟨fun ⟨live, hs, hr⟩ => ⟨_, ⟨live, hs, rfl⟩, by split_ifs <;> exact hr⟩, ?_⟩
    rintro ⟨_, ⟨live, hs, rfl⟩, hr⟩
    refine ⟨live, hs, ?_⟩
    split_ifs at hr <;> exact hr
  · obtain ⟨hid, ⟨rv, hv⟩, rh, hh⟩ := h.pipe (hlookup.mp hid).2
    exact ⟨hid, ⟨rv, hentry.mpr hv⟩, rh, hentry.mpr hh⟩
  · have hc := hentry.mp hc
    rw [hw.held hc, (h.once hc).2.mem_erase_iff, h.held hc]
    simp only [hlookup]
    grind
  · obtain ⟨live, hs, -, hpipes⟩ := hlive hs
    rw [hpipes, (h.onceHeld hs).mem_erase_iff, h.session hs]
    simp only [hlookup]
    grind
  · have hc := hentry.mp hc
    rw [hw.hosts, hw.held hc]
    exact ⟨(h.once hc).1, (h.once hc).2.erase _⟩
  · obtain ⟨live, hs, -, hpipes⟩ := hlive hs
    rw [hpipes]
    exact (h.onceHeld hs).erase _
  · have hc := hentry.mp hc
    have hmem := @Linked.held d h c r p.id hc
    obtain ⟨hviews, hcalls⟩ := h.counts hc
    rw [hw.held hc, hw.views hc, hw.calls hc, hviews, hcalls, hw.viewed hp (h.once hc).2, hw.called hp (h.once hc).2]
    have hmem : p.viewer = c ∨ p.host = c → p.id ∈ (d.heap r).pipes := fun hend => hmem.mpr ⟨p, hp, hend⟩
    constructor
    · by_cases hend : p.viewer = c
      · rw [if_pos hend, if_pos ⟨hmem (.inl hend), hend⟩]
      · rw [if_neg hend, if_neg fun hboth => hend hboth.2]
    · by_cases hend : p.host = c ∧ p.isCall = true
      · rw [if_pos hend, if_pos ⟨hmem (.inr hend.1), hend⟩]
      · rw [if_neg hend, if_neg fun hboth => hend hboth.2]

/-! ### Several pipes end -/

/-- The pipes that ended are out of the table, each with one note of its end. -/
structure Ends (d d' : Directory) (ended : List Ended) : Prop where
  pipes : ∀ id, d'.pipes.lookup id = if id ∈ ended.map (·.pipe.id) then none else d.pipes.lookup id
  there : ∀ e ∈ ended, d.pipes.lookup e.pipe.id = some e.pipe
  once : (ended.map (·.pipe.id)).Nodup

theorem Ends.refl (d : Directory) : Ends d d [] := ⟨fun _ => by simp, nofun, .nil⟩

variable {d₁ : Directory}

theorem Ends.trans {before later : List Ended} (h : Ends d d₁ before) (h' : Ends d₁ d' later) :
    Ends d d' (before ++ later) := by
  have hlater : ∀ e ∈ later, e.pipe.id ∉ before.map (·.pipe.id) ∧ d.pipes.lookup e.pipe.id = some e.pipe := by
    intro e he
    have hthere := h'.there e he
    rw [h.pipes] at hthere
    split_ifs at hthere with hmem
    exact ⟨hmem, hthere⟩
  refine ⟨fun id => ?_, fun e he => ?_, ?_⟩
  · rw [h'.pipes, h.pipes, List.map_append]
    simp only [List.mem_append]
    by_cases h1 : id ∈ before.map (·.pipe.id) <;> by_cases h2 : id ∈ later.map (·.pipe.id) <;> simp [h1, h2]
  · rcases List.mem_append.mp he with he | he
    · exact h.there e he
    · exact (hlater e he).2
  · rw [List.map_append, List.nodup_append]
    refine ⟨h.once, h'.once, ?_⟩
    rintro id hid id' hid' rfl
    obtain ⟨e, he, rfl⟩ := List.mem_map.mp hid'
    exact (hlater e he).1 hid

/-- The entries and the accounts are the same, and so is who hosts which terminal. -/
structure Stays (d d' : Directory) : Prop where
  entries : d'.entries = d.entries
  accounts : d'.accounts = d.accounts
  next : d'.next = d.next
  connection : ∀ r, (d'.heap r).connection = (d.heap r).connection
  hosts : ∀ r, (d'.heap r).hosted = (d.heap r).hosted
  hosted : ∀ s, (d'.hosted.lookup s).map Hosted.host = (d.hosted.lookup s).map Hosted.host

theorem Stays.refl (d : Directory) : Stays d d := ⟨rfl, rfl, rfl, fun _ => rfl, fun _ => rfl, fun _ => rfl⟩

theorem Stays.trans (h : Stays d d₁) (h' : Stays d₁ d') : Stays d d' :=
  ⟨h'.entries.trans h.entries, h'.accounts.trans h.accounts, h'.next.trans h.next,
    fun r => (h'.connection r).trans (h.connection r), fun r => (h'.hosts r).trans (h.hosts r),
    fun s => (h'.hosted s).trans (h.hosted s)⟩

theorem Without.stays (hw : Without d d' p) : Stays d d' := by
  refine ⟨hw.entries, hw.accounts, hw.next, hw.connection, hw.hosts, fun s => ?_⟩
  rw [hw.hosted, Option.map_map]
  congr 1
  funext live
  simp only [Function.comp_apply]
  split_ifs <;> rfl

theorem Without.ends (hw : Without d d' p) (hp : d.pipes.lookup p.id = some p) {e : Ended} (he : e.pipe = p) :
    Ends d d' [e] := by
  subst he
  exact ⟨fun id => by simp [hw.pipes], by simpa using hp, by simp⟩

/-- A pipe to a terminal is to the computer that hosts it, also when other pipes have ended. -/
theorem Stays.housed (h : Stays d d') (hends : Ends d d' ended) (hhoused : Housed d) : Housed d' := by
  intro id p hp
  rw [hends.pipes] at hp
  split_ifs at hp
  refine (hhoused hp).imp_right ?_
  rintro ⟨live, hlive, hhost⟩
  have hsame := h.hosted p.sessionId
  rw [hlive, Option.map_some, Option.map_eq_some_iff] at hsame
  obtain ⟨live', hlive', hhost'⟩ := hsame
  exact ⟨live', hlive', by rw [h.entries, hhost', hhost]⟩

theorem Linked.endPipes {note : Pipe → Ended} (hnote : ∀ p, (note p).pipe = p) {pipes : List Pipe} (h : Linked d)
    (hthere : ∀ p ∈ pipes, d.pipes.lookup p.id = some p) (honce : (pipes.map (·.id)).Nodup) :
    ∃ d', pipes.foldl (endPipe note) (d, after) = (d', { after with pipes := after.pipes ++ pipes.map note }) ∧
      Linked d' ∧ Stays d d' ∧ Ends d d' (pipes.map note) := by
  induction pipes generalizing d after with
  | nil => exact ⟨d, by simp, h, .refl d, .refl d⟩
  | cons p pipes ih =>
    obtain ⟨hnot, honce⟩ := List.nodup_cons.mp honce
    have hp := hthere p (List.mem_cons_self ..)
    obtain ⟨d₁, hremoved, hw⟩ := h.removePipe hp
    have hthere₁ : ∀ q ∈ pipes, d₁.pipes.lookup q.id = some q := by
      intro q hq
      rw [hw.pipes, if_neg fun hid => hnot (List.mem_map.mpr ⟨q, hq, hid⟩)]
      exact hthere q (List.mem_cons_of_mem _ hq)
    obtain ⟨d', hfold, hlinked, hstays, hends⟩ := @ih d₁ (after.endPipe (note p)) (hw.linked h hp) hthere₁ honce
    refine ⟨d', ?_, hlinked, hw.stays.trans hstays, (hw.ends hp (hnote p)).trans hends⟩
    have hstep : endPipe note (d, after) p = (d₁, after.endPipe (note p)) := by
      rw [endPipe, hremoved]
      rfl
    rw [List.foldl_cons, hstep, hfold]
    simp [AfterUnlock.endPipe]

theorem Linked.pipesOf {ids : List Guid} (h : Linked d) (hids : ∀ id ∈ ids, ∃ p, d.pipes.lookup id = some p) :
    ∃ pipes, d.pipesOf ids = .ok pipes ∧ pipes.map (·.id) = ids ∧ ∀ p ∈ pipes, d.pipes.lookup p.id = some p := by
  induction ids with
  | nil => exact ⟨[], rfl, rfl, nofun⟩
  | cons id ids ih =>
    obtain ⟨p, hp⟩ := hids id (List.mem_cons_self ..)
    obtain ⟨pipes, hpipes, hmap, hthere⟩ := ih fun other hother => hids other (List.mem_cons_of_mem _ hother)
    have hid := (h.pipe hp).1
    refine ⟨p :: pipes, ?_, by rw [List.map_cons, hid, hmap], ?_⟩
    · rw [Directory.pipesOf] at hpipes ⊢
      rw [List.mapM_cons, ok_bind (require_ok.mpr hp), ok_bind hpipes]
      rfl
    · exact List.forall_mem_cons.mpr ⟨hid ▸ hp, hthere⟩

/-- All pipes under some ids of the table end. -/
theorem Linked.endPipesLocked {ids : List Guid} {status : Nat} {message : String} (h : Linked d)
    (hids : ∀ id ∈ ids, ∃ p, d.pipes.lookup id = some p) (honce : ids.Nodup) :
    ∃ d' ended, d.endPipesLocked ids status message after = .ok (d', { after with pipes := after.pipes ++ ended }) ∧
      Linked d' ∧ Stays d d' ∧ Ends d d' ended ∧ ended.map (·.pipe.id) = ids ∧ ∀ e ∈ ended, e.silent = none := by
  obtain ⟨pipes, hpipes, hmap, hthere⟩ := h.pipesOf hids
  obtain ⟨d', hfold, hlinked, hstays, hends⟩ :=
    @endPipes d after (fun p => ⟨p, status, message, none⟩) (fun _ => rfl) pipes h hthere (hmap ▸ honce)
  refine ⟨d', _, ?_, hlinked, hstays, hends, by rw [List.map_map]; exact hmap, by simp⟩
  rw [Directory.endPipesLocked, ok_bind hpipes, hfold]
  rfl

/-! ### A terminal is gone -/

/-- A directory without one of its terminals, whose pipes are still there. -/
def forget (d : Directory) (s : Guid) (host : EntryRef) : Directory :=
  { d with hosted := d.hosted.erase s }.updateEntry host fun entry => { entry with hosted := entry.hosted.erase s }

theorem heap_forget (d : Directory) (s : Guid) (host r : EntryRef) : (d.forget s host).heap r =
    if r = host then { d.heap r with hosted := (d.heap r).hosted.erase s } else d.heap r := heap_updateEntry ..

theorem forget_same (d : Directory) (s : Guid) (host r : EntryRef) :
    ((d.forget s host).heap r).connection = (d.heap r).connection ∧ ((d.forget s host).heap r).pipes = (d.heap r).pipes ∧
      ((d.forget s host).heap r).views = (d.heap r).views ∧ ((d.forget s host).heap r).calls = (d.heap r).calls := by
  rw [heap_forget]
  split_ifs <;> exact ⟨rfl, rfl, rfl, rfl⟩

theorem Linked.forget (h : Linked d) (hs : d.hosted.lookup s = some live) : Linked (d.forget s live.host) := by
  have hlookup : ∀ {s' live'}, (d.forget s live.host).hosted.lookup s' = some live' ↔
      s' ≠ s ∧ d.hosted.lookup s' = some live' := by
    intro s' live'
    show (d.hosted.erase s).lookup s' = _ ↔ _
    rw [Dictionary.lookup_erase]
    split_ifs with hs' <;> simp [hs']
  have hsame := forget_same d s live.host
  refine ⟨fun {c r} hc => ?_, h.account, fun hs' => ?_, fun {c r s'} hc => ?_, h.pipe, fun {c r id} hc => ?_, fun hs' => ?_,
    fun {c r} hc => ?_, fun hs' => ?_, fun {c r} hc => ?_⟩
  · rw [(hsame r).1]
    exact h.entry hc
  · exact h.host (hlookup.mp hs').2
  · simp only [hlookup]
    have hhosted := @Linked.hosted d h c r s' hc
    rw [heap_forget]
    split_ifs with hr
    · rw [(h.once hc).1.mem_erase_iff, hhosted]
      grind
    · rw [hhosted]
      grind
  · rw [(hsame r).2.1]
    exact h.held hc
  · exact h.session (hlookup.mp hs').2
  · rw [(hsame r).2.1, heap_forget]
    refine ⟨?_, (h.once hc).2⟩
    split_ifs
    · exact (h.once hc).1.erase _
    · exact (h.once hc).1
  · exact h.onceHeld (hlookup.mp hs').2
  · rw [(hsame r).2.1, (hsame r).2.2.1, (hsame r).2.2.2]
    exact h.counts hc

/-- What a call keeps, and the pipes that it ends, each with the end that is not told. -/
structure Kept (d d' : Directory) (silent : Pipe → Option DeviceConnection) (ended : List Ended) : Prop where
  consistent : Consistent d'
  ends : Ends d d' ended
  silent : ∀ e ∈ ended, e.silent = silent e.pipe

/-- Every end is told. -/
def allTold (_ : Pipe) : Option DeviceConnection := none

/-- A terminal goes with its pipes. -/
theorem Consistent.removeHosted (h : Consistent d) (hs : d.hosted.lookup s = some live) (status : Nat) (message : String) :
    ∃ d' ended, d.removeHostedLocked s live status message after =
        .ok (d', { after with pipes := after.pipes ++ ended, changed := after.changed ++ [s] }) ∧
      Kept d d' allTold ended ∧ Stays (d.forget s live.host) d' ∧ ended.map (·.pipe.id) = live.pipes := by
  have hids : ∀ id ∈ live.pipes, ∃ p, d.pipes.lookup id = some p := by
    intro id hid
    obtain ⟨p, hp, -⟩ := (h.linked.session hs).mp hid
    exact ⟨p, hp⟩
  obtain ⟨d', ended, hended, hlinked, hstays, hends, hmap, hsilent⟩ :=
    @Linked.endPipesLocked (d.forget s live.host) after live.pipes status message (h.linked.forget hs) hids
      (h.linked.onceHeld hs)
  have hends' : Ends d d' ended := ⟨hends.pipes, hends.there, hends.once⟩
  refine ⟨d', ended, ?_, ⟨⟨hlinked, ?_⟩, hends', hsilent⟩, hstays, hmap⟩
  · rw [removeHostedLocked]
    show (d.forget s live.host).endPipesLocked live.pipes status message after >>= _ = _
    rw [ok_bind hended]
    rfl
  · -- the pipes to this terminal are the ones that ended
    intro id p hp
    have hp' := hp
    rw [hends'.pipes, hmap] at hp'
    split_ifs at hp' with hmem
    refine (h.housed hp').imp_right ?_
    rintro ⟨live', hlive', hhost⟩
    have hother : p.sessionId ≠ s := fun hsession =>
      hmem ((h.linked.session hs).mpr ⟨p, hp', hsession⟩)
    have hsame := hstays.hosted p.sessionId
    have hkept : (d.forget s live.host).hosted.lookup p.sessionId = some live' := by
      show (d.hosted.erase s).lookup p.sessionId = _
      rw [Dictionary.lookup_erase, if_neg hother, hlive']
    rw [hkept, Option.map_some, Option.map_eq_some_iff] at hsame
    obtain ⟨live'', hlive'', hhost''⟩ := hsame
    refine ⟨live'', hlive'', ?_⟩
    rw [hhost'', hstays.entries]
    exact hhost

/-! ### A connection is detached -/

/-- The same connections are registered. -/
structure SameEntries (d d' : Directory) : Prop where
  entries : d'.entries = d.entries
  accounts : d'.accounts = d.accounts
  next : d'.next = d.next

theorem SameEntries.trans (h : SameEntries d d₁) (h' : SameEntries d₁ d') : SameEntries d d' :=
  ⟨h'.entries.trans h.entries, h'.accounts.trans h.accounts, h'.next.trans h.next⟩

/-- All terminals of an entry go, with the pipes to them. -/
theorem Consistent.removeAll {sessions : List Guid} (h : Consistent d) (hc : d.entries.lookup c = some r)
    (hsessions : (d.heap r).hosted = sessions) :
    ∃ d' after' ended, sessions.foldlM (fun (state : Directory × AfterUnlock) sessionId => do
        let live ← require Thrown.keyNotFound (state.1.hosted.lookup sessionId)
        state.1.removeHostedLocked sessionId live 409 "The host is offline." state.2) (d, after) = .ok (d', after') ∧
      after'.pipes = after.pipes ++ ended ∧ after'.sent = after.sent ∧ Kept d d' allTold ended ∧ SameEntries d d' ∧
      (d'.heap r).hosted = [] ∧ ∀ e ∈ ended, e.pipe.host = c ∧ e.pipe.isCall = false := by
  induction sessions generalizing d after with
  | nil => exact ⟨d, after, [], rfl, by simp, rfl, ⟨h, .refl d, nofun⟩, ⟨rfl, rfl, rfl⟩, hsessions, nofun⟩
  | cons s sessions ih =>
    obtain ⟨live, hlive, hhost⟩ := (h.linked.hosted hc).mp (hsessions ▸ List.mem_cons_self ..)
    obtain ⟨d₁, ended, hremoved, hkept, hstays, hmap⟩ :=
      @Consistent.removeHosted d s live after h hlive 409 "The host is offline."
    have hsame : SameEntries d d₁ := ⟨hstays.entries, hstays.accounts, hstays.next⟩
    have hrest : (d₁.heap r).hosted = sessions := by
      rw [hstays.hosts, heap_forget, if_pos hhost.symm, hsessions, List.erase_cons_head]
    obtain ⟨d', after', later, hfold, hpipes, hsent, hkept', hsame', hnone, hlater⟩ :=
      @ih d₁ { after with pipes := after.pipes ++ ended, changed := after.changed ++ [s] } hkept.consistent
        (by rw [hsame.entries, hc]) hrest
    refine ⟨d', after', ended ++ later, ?_, by rw [hpipes, List.append_assoc], hsent,
      ⟨hkept'.consistent, hkept.ends.trans hkept'.ends, fun e he => ?_⟩, hsame.trans hsame', hnone, fun e he => ?_⟩
    · rw [List.foldlM_cons, ok_bind (require_ok.mpr hlive), ok_bind hremoved, hfold]
    · exact (List.mem_append.mp he).elim (hkept.silent e) (hkept'.silent e)
    rcases List.mem_append.mp he with he | he
    · -- a pipe to this terminal is to its host
      have hp := hkept.ends.there e he
      have hsession : e.pipe.sessionId = s := by
        obtain ⟨p, hp', hs⟩ := (h.linked.session hlive).mp (hmap ▸ List.mem_map_of_mem he)
        rw [← hs, Option.some.inj (hp.symm.trans hp')]
      have hnotCall : e.pipe.isCall = false := decide_eq_false (hsession ▸ (h.linked.host hlive).1)
      rcases h.housed hp with hcall | ⟨live', hlive', hentry⟩
      · exact absurd hcall (by rw [hnotCall]; exact Bool.false_ne_true)
      · obtain rfl := Option.some.inj (hlive.symm.trans (hsession ▸ hlive'))
        exact ⟨h.linked.entry_inj hentry (hhost ▸ hc), hnotCall⟩
    · exact hlater e he

theorem leaveAccount_eq (h : d.device c.userId c.deviceId = some r) :
    ∃ accounts, d.leaveAccount c r = { d with accounts } ∧ ∀ user device, { d with accounts }.device user device =
      if user = c.userId ∧ device = c.deviceId then none else d.device user device := by
  obtain ⟨devices, hdevices, hr⟩ := Option.bind_eq_some_iff.mp h
  refine ⟨_, by rw [leaveAccount, hdevices, Option.elim_some, if_pos hr], fun user device => ?_⟩
  have hother : ∀ device, (devices.erase c.deviceId).lookup device = if device = c.deviceId then none else devices.lookup device :=
    fun device => Dictionary.lookup_erase devices c.deviceId device
  by_cases huser : user = c.userId
  · subst huser
    have hold : d.device c.userId device = devices.lookup device := by rw [Directory.device, hdevices, Option.bind_some]
    rw [hold]
    simp only [true_and, ← hother]
    rw [Directory.device]
    dsimp only
    split_ifs with hempty
    · rw [Dictionary.lookup_erase, if_pos rfl, Option.bind_none]
      have hnone : devices.erase c.deviceId = ∅ := AList.ext (List.eq_nil_of_length_eq_zero hempty)
      rw [hnone, Dictionary.lookup_empty]
    · rw [Dictionary.lookup_insert, if_pos rfl, Option.bind_some]
  · have hnot : (if user = c.userId ∧ device = c.deviceId then none else d.device user device) = d.device user device :=
      if_neg fun hboth => huser hboth.1
    rw [hnot, Directory.device, Directory.device]
    dsimp only
    split_ifs
    · rw [Dictionary.lookup_erase, if_neg huser]
    · rw [Dictionary.lookup_insert, if_neg huser]

/-- An entry that has no terminals and no pipes is taken out of the indexes. -/
theorem Linked.leave (h : Linked d) (hc : d.entries.lookup c = some r) (hhosted : (d.heap r).hosted = [])
    (hpipes : (d.heap r).pipes = []) : Linked ({ d with entries := d.entries.erase c }.leaveAccount c r) := by
  have hdevice : d.device c.userId c.deviceId = some r := h.account.mpr ⟨c, hc, rfl, rfl⟩
  obtain ⟨accounts, heq, haccount⟩ := @leaveAccount_eq { d with entries := d.entries.erase c } c r hdevice
  have hlookup : ∀ {c' r'}, (d.entries.erase c).lookup c' = some r' ↔ c' ≠ c ∧ d.entries.lookup c' = some r' := by
    intro c' r'
    rw [Dictionary.lookup_erase]
    split_ifs with hc' <;> simp [hc']
  have hnohost : ∀ {s live}, d.hosted.lookup s = some live → live.host ≠ r := by
    intro s live hs hhost
    have := (h.hosted hc).mpr ⟨live, hs, hhost⟩
    rw [hhosted] at this
    exact List.not_mem_nil this
  have hnopipe : ∀ {id p}, d.pipes.lookup id = some p → p.viewer ≠ c ∧ p.host ≠ c := by
    intro id p hp
    have hnot : ¬(p.viewer = c ∨ p.host = c) := fun hend => by
      have := (h.held hc).mpr ⟨p, hp, hend⟩
      rw [hpipes] at this
      exact List.not_mem_nil this
    exact not_or.mp hnot
  rw [heq]
  refine ⟨fun hc' => h.entry (hlookup.mp hc').2, ?_, fun hs => ?_, fun hc' => h.hosted (hlookup.mp hc').2, fun hid => ?_,
    fun hc' => h.held (hlookup.mp hc').2, h.session, fun hc' => h.once (hlookup.mp hc').2, h.onceHeld,
    fun hc' => h.counts (hlookup.mp hc').2⟩
  · intro user device r'
    have hold : { d with entries := d.entries.erase c }.device user device = d.device user device := rfl
    rw [haccount user device, hold]
    simp only [hlookup]
    split_ifs with hthis
    · obtain ⟨rfl, rfl⟩ := hthis
      refine ⟨nofun, ?_⟩
      rintro ⟨c', ⟨hne, hc'⟩, huser, hdev⟩
      have hr' := h.account.mpr ⟨c', hc', huser, hdev⟩
      obtain rfl := Option.some.inj (hdevice.symm.trans hr')
      exact absurd (h.entry_inj hc' hc) hne
    · rw [h.account]
      refine ⟨?_, fun ⟨c', ⟨_, hc'⟩, hends⟩ => ⟨c', hc', hends⟩⟩
      rintro ⟨c', hc', huser, hdev⟩
      refine ⟨c', ⟨?_, hc'⟩, huser, hdev⟩
      rintro rfl
      exact hthis ⟨huser.symm, hdev.symm⟩
  · obtain ⟨hnamed, c', hc'⟩ := h.host hs
    refine ⟨hnamed, c', hlookup.mpr ⟨?_, hc'⟩⟩
    rintro rfl
    exact hnohost hs (Option.some.inj (hc'.symm.trans hc))
  · obtain ⟨hpid, ⟨rv, hv⟩, rh, hh⟩ := h.pipe hid
    exact ⟨hpid, ⟨rv, hlookup.mpr ⟨(hnopipe hid).1, hv⟩⟩, rh, hlookup.mpr ⟨(hnopipe hid).2, hh⟩⟩

/-- An entry that has no terminals and no pipes leaves, and its device is free. -/
theorem Consistent.leave (h : Consistent d) (hc : d.entries.lookup c = some r) (hhosted : (d.heap r).hosted = [])
    (hpipes : (d.heap r).pipes = []) : ∃ d', { d with entries := d.entries.erase c }.leaveAccount c r = d' ∧ Consistent d' ∧
      d'.pipes = d.pipes ∧ d'.device c.userId c.deviceId = none := by
  have hdevice : d.device c.userId c.deviceId = some r := h.linked.account.mpr ⟨c, hc, rfl, rfl⟩
  obtain ⟨accounts, heq, haccount⟩ := @leaveAccount_eq { d with entries := d.entries.erase c } c r hdevice
  have hlinked := h.linked.leave hc hhosted hpipes
  rw [heq] at hlinked
  refine ⟨{ d with entries := d.entries.erase c, accounts }, heq, ⟨hlinked, fun {id p} hp => ?_⟩, rfl, ?_⟩
  · obtain ⟨rh, hh⟩ := (hlinked.pipe hp).2.2
    refine (h.housed hp).imp_right ?_
    rintro ⟨live, hlive, hentry⟩
    refine ⟨live, hlive, ?_⟩
    have herase := Dictionary.lookup_erase d.entries c p.host
    dsimp only at hh ⊢
    rw [herase] at hh ⊢
    split_ifs at hh ⊢
    exact hentry
  · rw [haccount, if_pos ⟨rfl, rfl⟩]

/-- Who is not told of a pipe when a connection is detached: that connection, but for the terminals that it hosted. -/
def detachedSilent (c : DeviceConnection) (pipe : Pipe) : Option DeviceConnection :=
  if pipe.host = c ∧ pipe.isCall = false then none else some c

theorem lostWith_pipe (c : DeviceConnection) (pipe : Pipe) :
    (lostWith c pipe).pipe = pipe ∧ (lostWith c pipe).silent = some c := by
  rw [lostWith]
  split_ifs <;> exact ⟨rfl, rfl⟩

/-- What is sent under the lock is no notice of a pipe that ended. -/
def Quiet (sent : Sent) : Prop := ∀ m ∈ sent, ∀ pipe status message, m.2 ≠ .closed pipe status message

theorem Quiet.append {sent more : Sent} (h : Quiet sent) (h' : Quiet more) : Quiet (sent ++ more) :=
  fun m hm => (List.mem_append.mp hm).elim (h m) (h' m)

theorem quiet_tellHosts (isOpen : DeviceConnection → Bool) (d : Directory) (user : Guid) (only : Option DeviceConnection) :
    Quiet (d.tellHostsLocked isOpen user only) := by
  intro m hm
  rw [tellHostsLocked] at hm
  cases hdevices : d.accounts.lookup user with
  | none => simp [hdevices] at hm
  | some devices =>
    rw [hdevices, Option.elim_some] at hm
    obtain ⟨entry, -, rfl⟩ := List.mem_map.mp hm
    exact nofun

/-- A connection is detached: its terminals and its pipes go with it. -/
theorem Consistent.detach (h : Consistent d) (hc : d.entries.lookup c = some r) (isOpen : DeviceConnection → Bool) :
    ∃ d' after' ended, d.detachLocked isOpen r after = .ok (d', after') ∧ after'.pipes = after.pipes ++ ended ∧
      (Quiet after.sent → Quiet after'.sent) ∧ Kept d d' (detachedSilent c) ended ∧ d'.device c.userId c.deviceId = none := by
  have hconnection := (h.linked.entry hc).2
  obtain ⟨d₁, after₁, ended₁, hfold₁, hpipes₁, hsent₁, hkept₁, hsame₁, hnone₁, hhosted₁⟩ := @removeAll d c r after _ h hc rfl
  have hlinked₁ := hkept₁.consistent.linked
  have hc₁ : d₁.entries.lookup c = some r := by rw [hsame₁.entries, hc]
  obtain ⟨pipes, hpipes, hmap, hthere⟩ := @Linked.pipesOf d₁ (d₁.heap r).pipes hlinked₁ fun id hid => by
    obtain ⟨p, hp, -⟩ := (hlinked₁.held hc₁).mp hid
    exact ⟨p, hp⟩
  obtain ⟨d₂, hfold₂, hlinked₂, hstays, hends⟩ := @Linked.endPipes d₁ after₁ (lostWith c) (fun p => (lostWith_pipe c p).1) pipes
    hlinked₁ hthere (hmap ▸ (hlinked₁.once hc₁).2)
  have hc₂ : d₂.entries.lookup c = some r := by rw [hstays.entries, hc₁]
  have hended : (pipes.map (lostWith c)).map (·.pipe.id) = (d₁.heap r).pipes := by
    rw [← hmap, List.map_map]
    exact List.map_congr_left fun p _ => by rw [Function.comp_apply, (lostWith_pipe c p).1]
  have hnone₂ : (d₂.heap r).hosted = [] := (hstays.hosts r).trans hnone₁
  have hempty₂ : (d₂.heap r).pipes = [] := by
    refine List.eq_nil_iff_forall_not_mem.mpr fun id hid => ?_
    obtain ⟨p, hp, hend⟩ := (hlinked₂.held hc₂).mp hid
    rw [hends.pipes, hended] at hp
    split_ifs at hp with hmem
    exact hmem ((hlinked₁.held hc₁).mpr ⟨p, hp, hend⟩)
  have hsilent : ∀ p ∈ pipes, detachedSilent c p = some c := by
    intro p hp
    refine if_neg fun hhost => ?_
    rcases hkept₁.consistent.housed (hthere p hp) with hcall | ⟨live, hlive, hentry⟩
    · rw [hhost.2] at hcall
      exact Bool.false_ne_true hcall
    · have hmem := (hlinked₁.hosted hc₁).mpr ⟨live, hlive, Option.some.inj (hentry.symm.trans (hhost.1 ▸ hc₁))⟩
      rw [hnone₁] at hmem
      exact List.not_mem_nil hmem
  obtain ⟨d', hleave, hconsistent, hsame, hfree⟩ :=
    Consistent.leave ⟨hlinked₂, hstays.housed hends hkept₁.consistent.housed⟩ hc₂ hnone₂ hempty₂
  have hends' : Ends d₁ d' (pipes.map (lostWith c)) := ⟨fun id => by rw [hsame, hends.pipes], hends.there, hends.once⟩
  let after₂ : AfterUnlock := { after₁ with pipes := after₁.pipes ++ pipes.map (lostWith c) }
  let after₃ : AfterUnlock :=
    if (d'.heap r).ready && c.hosts then after₂.send (d'.tellHostsLocked isOpen c.userId none) else after₂
  have hafter : after₃.pipes = after₂.pipes ∧ (Quiet after.sent → Quiet after₃.sent) := by
    have hsent : after₂.sent = after.sent := hsent₁
    by_cases hready : ((d'.heap r).ready && c.hosts) = true
    · rw [show after₃ = after₂.send (d'.tellHostsLocked isOpen c.userId none) from if_pos hready]
      exact ⟨rfl, fun hquiet => Quiet.append (hsent ▸ hquiet) (quiet_tellHosts isOpen d' c.userId none)⟩
    · rw [show after₃ = after₂ from if_neg hready, hsent]
      exact ⟨rfl, id⟩
  refine ⟨d', after₃.abort c, ended₁ ++ pipes.map (lostWith c), ?_, ?_, hafter.2,
    ⟨hconsistent, hkept₁.ends.trans hends', fun e he => ?_⟩, hfree⟩
  · rw [detachLocked, hconnection, ok_bind hfold₁]
    dsimp only
    rw [ok_bind hpipes, hfold₂]
    dsimp only
    rw [hleave]
    rfl
  · rw [← List.append_assoc, ← hpipes₁]
    exact hafter.1
  rcases List.mem_append.mp he with he | he
  · rw [hkept₁.silent e he, detachedSilent, if_pos (hhosted₁ e he), allTold]
  · obtain ⟨p, hp, rfl⟩ := List.mem_map.mp he
    rw [(lostWith_pipe c p).1, (lostWith_pipe c p).2, hsilent p hp]

end Directory

end Kodosi.TerminalConnections
