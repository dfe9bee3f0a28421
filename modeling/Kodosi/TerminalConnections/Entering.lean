import Kodosi.TerminalConnections.Consistent

/-! The indexes still agree when a connection enters the directory, when a terminal gets a host, and when a pipe opens. -/

namespace Kodosi.TerminalConnections
open Kodosi.Lib

namespace Directory

variable {d d' : Directory} {c connection : DeviceConnection} {r : EntryRef} {p : Pipe} {s : Guid} {live : Hosted}

/-! ### A connection enters -/

theorem device_enter (d : Directory) (c : DeviceConnection) (user : Guid) (device : String) :
    (d.enter c).device user device = if user = c.userId ∧ device = c.deviceId then some d.next else d.device user device := by
  show ((d.accounts.insert c.userId _).lookup user).bind _ = _
  rw [Dictionary.lookup_insert]
  by_cases huser : user = c.userId
  · subst huser
    rw [if_pos rfl, Option.bind_some, Dictionary.lookup_insert, Directory.device]
    cases d.accounts.lookup c.userId <;> simp
  · rw [if_neg huser, if_neg fun hboth => huser hboth.1, Directory.device]

theorem heap_enter (d : Directory) (c : DeviceConnection) (r : EntryRef) :
    (d.enter c).heap r = if r = d.next then .new c else d.heap r := Function.update_apply ..

/-- A connection enters when its device has no other. -/
theorem Consistent.enter (h : Consistent d) (hfree : d.device c.userId c.deviceId = none) : Consistent (d.enter c) := by
  obtain ⟨h, hhoused⟩ := h
  have hnew : d.entries.lookup c = none := by
    cases hc : d.entries.lookup c with
    | none => rfl
    | some r => exact absurd (hfree.symm.trans (h.account.mpr ⟨c, hc, rfl, rfl⟩)) nofun
  have hentries : ∀ c', (d.enter c).entries.lookup c' = if c' = c then some d.next else d.entries.lookup c' :=
    fun c' => Dictionary.lookup_insert d.entries c c' d.next
  have hold : ∀ {c' r'}, d.entries.lookup c' = some r' → c' ≠ c ∧ (d.enter c).entries.lookup c' = some r' := by
    intro c' r' hc'
    have hne : c' ≠ c := by
      rintro rfl
      exact absurd (hnew.symm.trans hc') nofun
    exact ⟨hne, by rw [hentries, if_neg hne, hc']⟩
  -- the entry is new, or it is one of the old ones and is what it was
  have hcases : ∀ {c' r'}, (d.enter c).entries.lookup c' = some r' → (c' = c ∧ r' = d.next ∧ (d.enter c).heap r' = .new c) ∨
      (d.entries.lookup c' = some r' ∧ (d.enter c).heap r' = d.heap r') := by
    intro c' r' hc'
    rw [hentries] at hc'
    split_ifs at hc' with hcc
    · obtain rfl := Option.some.inj hc'
      exact .inl ⟨hcc, rfl, by rw [heap_enter, if_pos rfl]⟩
    · exact .inr ⟨hc', by rw [heap_enter, if_neg (h.entry hc').1.ne]⟩
  refine ⟨⟨fun hc' => ?_, ?_, fun hs => ?_, fun {c' r' s} hc' => ?_, fun hid => ?_, fun {c' r' id} hc' => ?_, h.session,
    fun hc' => ?_, h.onceHeld, fun {c' r'} hc' => ?_⟩, fun {id p} hp => ?_⟩
  · rcases hcases hc' with ⟨rfl, rfl, hheap⟩ | ⟨hc', hheap⟩
    · exact ⟨Nat.lt_succ_self _, by rw [hheap]; rfl⟩
    · rw [hheap]
      exact ⟨Nat.lt_succ_of_lt (h.entry hc').1, (h.entry hc').2⟩
  · intro user device r'
    rw [device_enter]
    split_ifs with hthis
    · obtain ⟨rfl, rfl⟩ := hthis
      refine ⟨fun hr => ⟨c, by rw [hentries, if_pos rfl, hr], rfl, rfl⟩, ?_⟩
      rintro ⟨c', hc', huser, hdev⟩
      rcases hcases hc' with ⟨-, rfl, -⟩ | ⟨hc', -⟩
      · rfl
      · exact absurd (hfree.symm.trans (h.account.mpr ⟨c', hc', huser, hdev⟩)) nofun
    · rw [h.account]
      refine ⟨fun ⟨c', hc', hends⟩ => ⟨c', (hold hc').2, hends⟩, ?_⟩
      rintro ⟨c', hc', rfl, rfl⟩
      rcases hcases hc' with ⟨rfl, -, -⟩ | ⟨hc', -⟩
      · exact absurd ⟨rfl, rfl⟩ hthis
      · exact ⟨c', hc', rfl, rfl⟩
  · obtain ⟨hnamed, c', hc'⟩ := h.host hs
    exact ⟨hnamed, c', (hold hc').2⟩
  · rcases hcases hc' with ⟨rfl, rfl, hheap⟩ | ⟨hc', hheap⟩
    · rw [hheap]
      refine ⟨fun hmem => absurd hmem List.not_mem_nil, ?_⟩
      rintro ⟨live, hs, hhost⟩
      obtain ⟨-, c'', hc''⟩ := h.host hs
      exact absurd (hhost ▸ (h.entry hc'').1) (Nat.lt_irrefl _)
    · rw [hheap]
      exact h.hosted hc'
  · obtain ⟨hpid, ⟨rv, hv⟩, rh, hh⟩ := h.pipe hid
    exact ⟨hpid, ⟨rv, (hold hv).2⟩, rh, (hold hh).2⟩
  · rcases hcases hc' with ⟨rfl, rfl, hheap⟩ | ⟨hc', hheap⟩
    · rw [hheap]
      refine ⟨fun hmem => absurd hmem List.not_mem_nil, ?_⟩
      rintro ⟨p, hp, hend⟩
      obtain ⟨-, ⟨rv, hv⟩, rh, hh⟩ := h.pipe hp
      exact hend.elim (fun he => absurd he (hold hv).1) fun he => absurd he (hold hh).1
    · rw [hheap]
      exact h.held hc'
  · rcases hcases hc' with ⟨-, -, hheap⟩ | ⟨hc', hheap⟩
    · rw [hheap]
      exact ⟨.nil, .nil⟩
    · rw [hheap]
      exact h.once hc'
  · rcases hcases hc' with ⟨-, -, hheap⟩ | ⟨hc', hheap⟩
    · rw [hheap]
      exact ⟨rfl, rfl⟩
    · rw [hheap]
      exact h.counts hc'
  · refine (hhoused hp).imp_right ?_
    rintro ⟨live, hlive, hentry⟩
    exact ⟨live, hlive, (hold hentry).2⟩

/-! ### A terminal gets a host -/

/-- A directory where an entry hosts one more terminal. -/
def settle (d : Directory) (s incarnation : Guid) (host : EntryRef) : Directory :=
  { d with hosted := d.hosted.insert s ⟨incarnation, host, none, []⟩ }.updateEntry host fun entry =>
    { entry with hosted := entry.hosted.insert s }

theorem heap_settle (d : Directory) (s incarnation : Guid) (host r : EntryRef) : (d.settle s incarnation host).heap r =
    if r = host then { d.heap r with hosted := (d.heap r).hosted.insert s } else d.heap r := heap_updateEntry ..

/-- The indexes agree when a terminal that had no host, and no pipes, has one. -/
theorem Consistent.settle (h : Consistent d) (hc : d.entries.lookup c = some r) (hs : d.hosted.lookup s = none)
    (hnamed : s ≠ Guid.Empty) (hpipes : ∀ {id p}, d.pipes.lookup id = some p → p.sessionId ≠ s) (incarnation : Guid) :
    Consistent (d.settle s incarnation r) := by
  obtain ⟨h, hhoused⟩ := h
  have hhosted : ∀ s', (d.settle s incarnation r).hosted.lookup s' =
      if s' = s then some ⟨incarnation, r, none, []⟩ else d.hosted.lookup s' := fun s' => Dictionary.lookup_insert ..
  have hsame : ∀ r', ((d.settle s incarnation r).heap r').connection = (d.heap r').connection ∧
      ((d.settle s incarnation r).heap r').pipes = (d.heap r').pipes ∧
      ((d.settle s incarnation r).heap r').views = (d.heap r').views ∧
      ((d.settle s incarnation r).heap r').calls = (d.heap r').calls := by
    intro r'
    rw [heap_settle]
    split_ifs <;> exact ⟨rfl, rfl, rfl, rfl⟩
  refine ⟨⟨fun {c r} hc => ?_, h.account, fun {s' live} hs' => ?_, fun {c' r' s'} hc' => ?_, h.pipe, fun {c r id} hc => ?_,
    fun {s' live id} hs' => ?_, fun {c' r'} hc' => ?_, fun {s' live} hs' => ?_, fun {c r} hc => ?_⟩, fun {id p} hp => ?_⟩
  · rw [(hsame r).1]
    exact h.entry hc
  · rw [hhosted] at hs'
    split_ifs at hs' with hthis
    · obtain rfl := Option.some.inj hs'
      exact ⟨hthis ▸ hnamed, c, hc⟩
    · exact h.host hs'
  · have hmem := @Linked.hosted d h c' r' s' hc'
    rw [heap_settle, hhosted]
    by_cases hthis : s' = s
    · subst hthis
      have hnot : s' ∉ (d.heap r').hosted := by simp [hmem, hs]
      by_cases hr : r' = r <;> simp [hr, hnot, eq_comm]
    · rw [if_neg hthis, ← hmem]
      by_cases hr : r' = r
      · rw [if_pos hr, List.mem_insert_iff]
        exact or_iff_right hthis
      · rw [if_neg hr]
  · rw [(hsame r).2.1]
    exact h.held hc
  · rw [hhosted] at hs'
    split_ifs at hs' with hthis
    · obtain rfl := Option.some.inj hs'
      refine ⟨fun hmem => absurd hmem List.not_mem_nil, ?_⟩
      rintro ⟨p, hp, hsession⟩
      exact absurd (hsession.trans hthis) (hpipes hp)
    · exact h.session hs'
  · rw [(hsame r').2.1, heap_settle]
    refine ⟨?_, (h.once hc').2⟩
    split_ifs
    · exact (h.once hc').1.insert
    · exact (h.once hc').1
  · rw [hhosted] at hs'
    split_ifs at hs' with hthis
    · obtain rfl := Option.some.inj hs'
      exact .nil
    · exact h.onceHeld hs'
  · rw [(hsame r).2.1, (hsame r).2.2.1, (hsame r).2.2.2]
    exact h.counts hc
  · refine (hhoused hp).imp_right ?_
    rintro ⟨live, hlive, hentry⟩
    exact ⟨live, by rw [hhosted, if_neg (hpipes hp), hlive], hentry⟩

/-! ### A pipe opens -/

/-- What a directory is with one more pipe. -/
structure With (d d' : Directory) (p : Pipe) : Prop where
  entries : d'.entries = d.entries
  accounts : d'.accounts = d.accounts
  next : d'.next = d.next
  pipes : ∀ id, d'.pipes.lookup id = if id = p.id then some p else d.pipes.lookup id
  hosted : ∀ s, d'.hosted.lookup s = (d.hosted.lookup s).map fun live =>
    if s = p.sessionId then { live with pipes := live.pipes.insert p.id } else live
  connection : ∀ r, (d'.heap r).connection = (d.heap r).connection
  hosts : ∀ r, (d'.heap r).hosted = (d.heap r).hosted
  held : ∀ {c r}, d.entries.lookup c = some r →
    (d'.heap r).pipes = if p.viewer = c ∨ p.host = c then (d.heap r).pipes.insert p.id else (d.heap r).pipes
  views : ∀ {c r}, d.entries.lookup c = some r → (d'.heap r).views = (d.heap r).views + if p.viewer = c then 1 else 0
  calls : ∀ {c r}, d.entries.lookup c = some r →
    (d'.heap r).calls = (d.heap r).calls + if p.host = c ∧ p.isCall = true then 1 else 0

/-- The entries of both ends take a new pipe. -/
theorem Linked.addPipe (h : Linked d) {rv rh : EntryRef} (hv : d.entries.lookup p.viewer = some rv)
    (hh : d.entries.lookup p.host = some rh) {hosted : Dictionary Guid Hosted} {viewer host : Entry → Entry}
    (hhosted : ∀ s, hosted.lookup s = (d.hosted.lookup s).map fun live =>
      if s = p.sessionId then { live with pipes := live.pipes.insert p.id } else live)
    (hviewer : ∀ entry, viewer entry = { entry with pipes := entry.pipes.insert p.id, views := entry.views + 1 })
    (hhost : ∀ entry, host entry =
      { entry with pipes := entry.pipes.insert p.id, calls := if p.isCall then entry.calls + 1 else entry.calls }) :
    With d (({ d with pipes := d.pipes.insert p.id p, hosted }.updateEntry rv viewer).updateEntry rh host) p := by
  have hrv : ∀ {c r}, d.entries.lookup c = some r → (r = rv ↔ p.viewer = c) := fun hc =>
    ⟨fun hr => h.entry_inj hv (hr ▸ hc), fun hr => Option.some.inj (hc.symm.trans (hr ▸ hv))⟩
  have hrh : ∀ {c r}, d.entries.lookup c = some r → (r = rh ↔ p.host = c) := fun hc =>
    ⟨fun hr => h.entry_inj hh (hr ▸ hc), fun hr => Option.some.inj (hc.symm.trans (hr ▸ hh))⟩
  have heap : ∀ r, (({ d with pipes := d.pipes.insert p.id p, hosted }.updateEntry rv viewer).updateEntry rh host).heap r =
      if r = rh then host (if r = rv then viewer (d.heap r) else d.heap r) else if r = rv then viewer (d.heap r) else d.heap r := by
    intro r
    rw [heap_updateEntry, heap_updateEntry]
  refine ⟨rfl, rfl, rfl, fun id => Dictionary.lookup_insert _ _ _ _, hhosted, fun r => ?_, fun r => ?_, fun {c r} hc => ?_,
    fun {c r} hc => ?_, fun {c r} hc => ?_⟩
  · rw [heap]
    split_ifs <;> simp [hviewer, hhost]
  · rw [heap]
    split_ifs <;> simp [hviewer, hhost]
  · rw [heap]
    simp only [← hrv hc, ← hrh hc]
    by_cases h1 : r = rv <;> by_cases h2 : r = rh <;> simp_all
  · rw [heap]
    simp only [← hrv hc]
    split_ifs <;> simp [hviewer, hhost]
  · rw [heap]
    simp only [← hrh hc]
    split_ifs <;> simp_all

theorem countP_with {f g : Guid → Bool} {ids : List Guid} {id : Guid} (hfg : ∀ other, other ≠ id → f other = g other)
    (hid : id ∉ ids) : (ids.insert id).countP g = ids.countP f + if g id = true then 1 else 0 := by
  rw [List.insert_of_not_mem hid, List.countP_cons]
  congr 1
  exact List.countP_congr fun other hother => by rw [hfg other fun he => hid (he ▸ hother)]

/-- The count over other ids is what it was. -/
theorem countP_other {f g : Guid → Bool} {ids : List Guid} {id : Guid} (hfg : ∀ other, other ≠ id → f other = g other)
    (hid : id ∉ ids) : ids.countP g = ids.countP f :=
  List.countP_congr fun other hother => by rw [hfg other fun he => hid (he ▸ hother)]

/-- The indexes agree with one more pipe between connections that are registered. -/
theorem With.linked (hw : With d d' p) (h : Linked d) (hnew : d.pipes.lookup p.id = none)
    (hv : ∃ r, d.entries.lookup p.viewer = some r) (hh : ∃ r, d.entries.lookup p.host = some r) : Linked d' := by
  have hlookup : ∀ {id p'}, d'.pipes.lookup id = some p' ↔ (id = p.id ∧ p = p') ∨ d.pipes.lookup id = some p' := by
    intro id p'
    rw [hw.pipes]
    split_ifs with hid
    · subst hid
      simp [hnew]
    · simp [hid]
  have hentry : ∀ {c r}, d'.entries.lookup c = some r ↔ d.entries.lookup c = some r := by simp [hw.entries]
  have hdevice : ∀ {user device}, d'.device user device = d.device user device := by
    intro user device
    rw [Directory.device, Directory.device, hw.accounts]
  have hnot : ∀ {c r}, d.entries.lookup c = some r → p.id ∉ (d.heap r).pipes := by
    intro c r hc hmem
    obtain ⟨p', hp', -⟩ := (h.held hc).mp hmem
    cases hnew.symm.trans hp'
  have hother : ∀ id, id ≠ p.id → d.pipes.lookup id = d'.pipes.lookup id := by
    intro id hid
    rw [hw.pipes, if_neg hid]
  refine ⟨fun hc => ?_, ?_, fun {s live'} hs => ?_, fun {c r s} hc => ?_, fun hid => ?_, fun {c r id} hc => ?_,
    fun {s live' id} hs => ?_, fun {c r} hc => ?_, fun {s live'} hs => ?_, fun {c r} hc => ?_⟩
  · rw [hw.next, hw.connection]
    exact h.entry (hentry.mp hc)
  · intro user device r
    simp only [hdevice, hentry]
    exact h.account
  · rw [hw.hosted, Option.map_eq_some_iff] at hs
    obtain ⟨live, hs, rfl⟩ := hs
    obtain ⟨hnamed, c, hc⟩ := h.host hs
    refine ⟨hnamed, c, hentry.mpr ?_⟩
    split_ifs <;> exact hc
  · rw [hw.hosts, h.hosted (hentry.mp hc), hw.hosted]
    simp only [Option.map_eq_some_iff]
    constructor
    · rintro ⟨live, hs, hr⟩
      exact ⟨_, ⟨live, hs, rfl⟩, by split_ifs <;> exact hr⟩
    · rintro ⟨_, ⟨live, hs, rfl⟩, hr⟩
      refine ⟨live, hs, ?_⟩
      split_ifs at hr <;> exact hr
  · rcases hlookup.mp hid with ⟨rfl, rfl⟩ | hid
    · exact ⟨rfl, hv.imp fun _ => hentry.mpr, hh.imp fun _ => hentry.mpr⟩
    · obtain ⟨hid, ⟨rv, hv⟩, rh, hh⟩ := h.pipe hid
      exact ⟨hid, ⟨rv, hentry.mpr hv⟩, rh, hentry.mpr hh⟩
  · have hc := hentry.mp hc
    have hmem := @Linked.held d h c r id hc
    rw [hw.held hc]
    simp only [hlookup]
    split_ifs with hend
    · rw [List.mem_insert_iff, hmem]
      grind
    · rw [hmem]
      grind
  · rw [hw.hosted, Option.map_eq_some_iff] at hs
    obtain ⟨live, hs, rfl⟩ := hs
    have hmem := @Linked.session d h s live id hs
    simp only [hlookup]
    split_ifs with hsession
    · rw [List.mem_insert_iff, hmem]
      grind
    · rw [hmem]
      grind
  · have hc := hentry.mp hc
    rw [hw.hosts, hw.held hc]
    refine ⟨(h.once hc).1, ?_⟩
    split_ifs
    · exact (h.once hc).2.insert
    · exact (h.once hc).2
  · rw [hw.hosted, Option.map_eq_some_iff] at hs
    obtain ⟨live, hs, rfl⟩ := hs
    split_ifs
    · exact (h.onceHeld hs).insert
    · exact h.onceHeld hs
  · have hc := hentry.mp hc
    have hid : d'.pipes.lookup p.id = some p := by rw [hw.pipes, if_pos rfl]
    obtain ⟨hviews, hcalls⟩ := h.counts hc
    rw [hw.views hc, hw.calls hc, hw.held hc, hviews, hcalls]
    by_cases hend : p.viewer = c ∨ p.host = c
    · rw [if_pos hend]
      have hviewed := @countP_with (fun id => (d.pipes.lookup id).any fun pipe => pipe.viewer = c)
        (fun id => (d'.pipes.lookup id).any fun pipe => pipe.viewer = c) (d.heap r).pipes p.id
        (fun id hid => by simp only [hother id hid]) (hnot hc)
      have hcalled := @countP_with (fun id => (d.pipes.lookup id).any fun pipe => pipe.host = c && pipe.isCall)
        (fun id => (d'.pipes.lookup id).any fun pipe => pipe.host = c && pipe.isCall) (d.heap r).pipes p.id
        (fun id hid => by simp only [hother id hid]) (hnot hc)
      simp only [hid, Option.any_some, decide_eq_true_eq, Bool.and_eq_true] at hviewed hcalled
      rw [viewed, viewed, called, called, hviewed, hcalled]
      push_cast
      exact ⟨rfl, rfl⟩
    · obtain ⟨hviewer, hhost⟩ := not_or.mp hend
      rw [if_neg hend, if_neg hviewer, if_neg fun hboth => hhost hboth.1, add_zero, add_zero]
      refine ⟨congrArg Nat.cast (countP_other (fun id hid => ?_) (hnot hc)).symm,
        congrArg Nat.cast (countP_other (fun id hid => ?_) (hnot hc)).symm⟩
      · simp only [hother id hid]
      · simp only [hother id hid]

/-- A pipe that opens to the host of a terminal, or as a call. -/
theorem With.consistent (hw : With d d' p) (h : Consistent d) (hnew : d.pipes.lookup p.id = none)
    (hv : ∃ r, d.entries.lookup p.viewer = some r) (hh : ∃ r, d.entries.lookup p.host = some r)
    (hhost : p.isCall = true ∨ ∃ live, d.hosted.lookup p.sessionId = some live ∧ d.entries.lookup p.host = some live.host) :
    Consistent d' := by
  refine ⟨hw.linked h.linked hnew hv hh, fun {id p'} hp => ?_⟩
  have hhoused : p'.isCall = true ∨
      ∃ live, d.hosted.lookup p'.sessionId = some live ∧ d.entries.lookup p'.host = some live.host := by
    rw [hw.pipes] at hp
    split_ifs at hp
    · exact Option.some.inj hp ▸ hhost
    · exact h.housed hp
  refine hhoused.imp_right ?_
  rintro ⟨live, hlive, hentry⟩
  refine ⟨_, by rw [hw.hosted, hlive, Option.map_some], ?_⟩
  rw [hw.entries, hentry]
  split_ifs <;> rfl

end Directory

end Kodosi.TerminalConnections
