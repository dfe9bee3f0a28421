import Kodosi.TerminalConnections.Entering

/-! Every call of the connection directory keeps its indexes in agreement, in every run of calls. -/

namespace Kodosi.TerminalConnections
open Kodosi.Lib

namespace Directory

variable {d d' : Directory} {c : DeviceConnection} {r : EntryRef} {p : Pipe} {ended : List Ended} {s id : Guid}
  {live : Hosted} {after : AfterUnlock} {silent : Pipe → Option DeviceConnection}

/-! ### What a call has done -/

/-- The pipes that a call took out of the table, each with one note and with the end that is not told. -/
structure Told (d d' : Directory) (silent : Pipe → Option DeviceConnection) (ended : List Ended) : Prop where
  gone : ∀ {id p}, d.pipes.lookup id = some p → (d'.pipes.lookup id = none ↔ id ∈ ended.map (·.pipe.id))
  there : ∀ e ∈ ended, d.pipes.lookup e.pipe.id = some e.pipe
  once : (ended.map (·.pipe.id)).Nodup
  silent : ∀ e ∈ ended, e.silent = silent e.pipe

/-- A call throws what it means to throw, or it ends with indexes that agree. -/
def Done (d : Directory) (silent : Pipe → Option DeviceConnection) : Except Thrown (Directory × AfterUnlock) → Prop
  | .error thrown => thrown ≠ .keyNotFound
  | .ok (d', after) => Consistent d' ∧ Told d d' silent after.pipes ∧ Quiet after.sent

theorem Done.reject {bad : Prop} [Decidable bad] {status : Nat} {message : String}
    {f : Unit → Except Thrown (Directory × AfterUnlock)} (h : ¬bad → Done d silent (f ())) :
    Done d silent (reject bad (.api status message) >>= f) := by
  by_cases hbad : bad
  · rw [Lib.reject, if_pos hbad]
    exact Thrown.noConfusion
  · rw [ok_bind (reject_ok.mpr hbad)]
    exact h hbad

theorem Done.require {α : Type} {x : Option α} {status : Nat} {message : String}
    {f : α → Except Thrown (Directory × AfterUnlock)} (h : ∀ a, x = some a → Done d silent (f a)) :
    Done d silent (require (.api status message) x >>= f) := by
  cases x with
  | none => exact nofun
  | some a =>
    rw [ok_bind (require_ok.mpr rfl)]
    exact h a rfl

theorem quiet_nil : Quiet [] := nofun

theorem Told.of_ends (h : Ends d d' ended) (hsilent : ∀ e ∈ ended, e.silent = silent e.pipe) : Told d d' silent ended := by
  refine ⟨fun {id p} hp => ?_, h.there, h.once, hsilent⟩
  rw [h.pipes, hp]
  split_ifs with hmem <;> simp [hmem]

theorem Kept.told (h : Kept d d' silent ended) : Told d d' silent ended := .of_ends h.ends h.silent

/-- A call that takes no pipe out. -/
theorem Told.of_pipes (h : ∀ {id p}, d.pipes.lookup id = some p → d'.pipes.lookup id ≠ none) : Told d d' silent [] :=
  ⟨fun hp => by simp [h hp], nofun, .nil, nofun⟩

theorem Done.same (h : Consistent d) : Done d silent (.ok (d, .none)) :=
  ⟨h, .of_pipes fun hp => by simp [hp], quiet_nil⟩

/-- What does not look at the fields that a call changed. -/
structure Alike (d d' : Directory) : Prop where
  entries : d'.entries = d.entries
  accounts : d'.accounts = d.accounts
  pipes : d'.pipes = d.pipes
  next : d'.next = d.next
  hosted : ∀ s, (d'.hosted.lookup s).map (fun live => (live.host, live.pipes)) =
    (d.hosted.lookup s).map fun live => (live.host, live.pipes)
  heap : ∀ r, (d'.heap r).connection = (d.heap r).connection ∧ (d'.heap r).hosted = (d.heap r).hosted ∧
    (d'.heap r).pipes = (d.heap r).pipes ∧ (d'.heap r).views = (d.heap r).views ∧ (d'.heap r).calls = (d.heap r).calls

theorem Alike.symm (h : Alike d d') : Alike d' d :=
  ⟨h.entries.symm, h.accounts.symm, h.pipes.symm, h.next.symm, fun s => (h.hosted s).symm, fun r =>
    ⟨(h.heap r).1.symm, (h.heap r).2.1.symm, (h.heap r).2.2.1.symm, (h.heap r).2.2.2.1.symm, (h.heap r).2.2.2.2.symm⟩⟩

theorem Alike.lookup (h : Alike d d') (hs : d.hosted.lookup s = some live) :
    ∃ live', d'.hosted.lookup s = some live' ∧ live'.host = live.host ∧ live'.pipes = live.pipes := by
  have hsame := h.hosted s
  rw [hs, Option.map_some, Option.map_eq_some_iff] at hsame
  obtain ⟨live', hs', heq⟩ := hsame
  exact ⟨live', hs', congrArg Prod.fst heq, congrArg Prod.snd heq⟩

theorem Alike.consistent (h : Alike d d') (hd : Consistent d) : Consistent d' := by
  obtain ⟨hd, hhoused⟩ := hd
  have hdevice : ∀ {user device}, d'.device user device = d.device user device := by
    intro user device
    rw [Directory.device, Directory.device, h.accounts]
  refine ⟨⟨fun hc => ?_, ?_, fun hs => ?_, fun {c r s} hc => ?_, ?_, fun {c r id} hc => ?_, fun {s live id} hs => ?_,
    fun {c r} hc => ?_, fun hs => ?_, fun {c r} hc => ?_⟩, fun {id p} hp => ?_⟩
  · rw [(h.heap _).1, h.next]
    exact hd.entry (h.entries ▸ hc)
  · intro user device r
    rw [hdevice, h.entries]
    exact hd.account
  · obtain ⟨live, hs, hhost, -⟩ := h.symm.lookup hs
    rw [h.entries, ← hhost]
    exact hd.host hs
  · rw [(h.heap r).2.1, hd.hosted (h.entries ▸ hc)]
    constructor
    · rintro ⟨live, hs, hhost⟩
      obtain ⟨live', hs', hhost', -⟩ := h.lookup hs
      exact ⟨live', hs', hhost'.trans hhost⟩
    · rintro ⟨live, hs, hhost⟩
      obtain ⟨live', hs', hhost', -⟩ := h.symm.lookup hs
      exact ⟨live', hs', hhost'.trans hhost⟩
  · intro id p hp
    rw [h.entries]
    exact hd.pipe (h.pipes ▸ hp)
  · rw [(h.heap r).2.2.1, h.pipes]
    exact hd.held (h.entries ▸ hc)
  · obtain ⟨live, hs, -, hpipes⟩ := h.symm.lookup hs
    rw [← hpipes, h.pipes]
    exact hd.session hs
  · rw [(h.heap r).2.1, (h.heap r).2.2.1]
    exact hd.once (h.entries ▸ hc)
  · obtain ⟨live, hs, -, hpipes⟩ := h.symm.lookup hs
    rw [← hpipes]
    exact hd.onceHeld hs
  · rw [(h.heap r).2.2.1, (h.heap r).2.2.2.1, (h.heap r).2.2.2.2, viewed, called, h.pipes]
    exact hd.counts (h.entries ▸ hc)
  · refine (hhoused (h.pipes ▸ hp)).imp_right ?_
    rintro ⟨live, hlive, hentry⟩
    obtain ⟨live', hlive', hhost, -⟩ := h.lookup hlive
    exact ⟨live', hlive', by rw [h.entries, hhost, hentry]⟩

/-! ### Connections -/

/-- Who is not told when the connection of a device is detached. -/
def deviceSilent (d : Directory) (user : Guid) (device : String) (pipe : Pipe) : Option DeviceConnection :=
  (d.device user device).bind fun r => detachedSilent (d.heap r).connection pipe

theorem device_eq (d : Directory) (user : Guid) (device : String) :
    ((d.accounts.lookup user).getD ∅).lookup device = d.device user device := by
  rw [Directory.device]
  cases d.accounts.lookup user <;> simp

theorem Told.enter (h : Told d d' silent ended) : Told d (d'.enter c) silent ended := ⟨h.gone, h.there, h.once, h.silent⟩

theorem Consistent.register (h : Consistent d) (isOpen : DeviceConnection → Bool) (c : DeviceConnection) :
    Done d (d.deviceSilent c.userId c.deviceId) (d.register isOpen c) := by
  refine Done.reject fun _ => ?_
  rw [device_eq]
  cases hdevice : d.device c.userId c.deviceId with
  | none => exact ⟨h.enter hdevice, Told.enter (.of_pipes fun hp => by simp [hp]), quiet_nil⟩
  | some r =>
    obtain ⟨c', hc, huser, hid⟩ := h.linked.account.mp hdevice
    obtain ⟨d', after', ended, hdetach, hpipes, hquiet, hkept, hfree⟩ := @Consistent.detach d c' r .none h hc isOpen
    have hsilent : d.deviceSilent c.userId c.deviceId = detachedSilent c' := by
      funext pipe
      rw [deviceSilent, hdevice, Option.bind_some, (h.linked.entry hc).2]
    rw [Option.elim_some, ok_bind hdetach, hsilent]
    refine ⟨hkept.consistent.enter (huser ▸ hid ▸ hfree), ?_, hquiet quiet_nil⟩
    rw [hpipes]
    exact hkept.told.enter

theorem Consistent.ready (h : Consistent d) (isOpen : DeviceConnection → Bool) (c : DeviceConnection) :
    Done d allTold (.ok (d.ready isOpen c)) := by
  rw [Directory.ready]
  cases hc : d.entries.lookup c with
  | none => exact Done.same h
  | some r =>
    rw [Option.elim_some]
    refine ⟨@Alike.consistent d _ ⟨rfl, rfl, rfl, rfl, fun _ => rfl, fun r' => ?_⟩ h, .of_pipes fun hp => ?_,
      Quiet.append quiet_nil (quiet_tellHosts isOpen _ _ _)⟩
    · rw [heap_updateEntry]
      split_ifs <;> exact ⟨rfl, rfl, rfl, rfl, rfl⟩
    · exact fun hnone => absurd (hp.symm.trans hnone) nofun

theorem Consistent.remove (h : Consistent d) (isOpen : DeviceConnection → Bool) (c : DeviceConnection) :
    Done d (detachedSilent c) (d.remove isOpen c) := by
  rw [Directory.remove]
  cases hc : d.entries.lookup c with
  | none => exact Done.same h
  | some r =>
    obtain ⟨d', after', ended, hdetach, hpipes, hquiet, hkept, -⟩ := @Consistent.detach d c r .none h hc isOpen
    rw [Option.elim_some, ok_bind hdetach]
    refine ⟨hkept.consistent, ?_, hquiet quiet_nil⟩
    rw [show (after'.abort c).pipes = ended from hpipes]
    exact hkept.told

theorem Consistent.removeDevice (h : Consistent d) (isOpen : DeviceConnection → Bool) (user : Guid) (device : String) :
    Done d (d.deviceSilent user device) (d.removeDevice isOpen user device) := by
  rw [Directory.removeDevice]
  cases hdevice : d.device user device with
  | none => exact Done.same h
  | some r =>
    obtain ⟨c, hc, -, -⟩ := h.linked.account.mp hdevice
    obtain ⟨d', after', ended, hdetach, hpipes, hquiet, hkept, -⟩ := @Consistent.detach d c r .none h hc isOpen
    have hsilent : d.deviceSilent user device = detachedSilent c := by
      funext pipe
      rw [deviceSilent, hdevice, Option.bind_some, (h.linked.entry hc).2]
    rw [Option.elim_some, hdetach, hsilent]
    refine ⟨hkept.consistent, ?_, hquiet quiet_nil⟩
    rw [show after'.pipes = ended from hpipes]
    exact hkept.told

/-! ### Terminals -/

theorem Consistent.removeLive (h : Consistent d) (hs : d.hosted.lookup s = some live) :
    Done d allTold (d.removeSessionLocked s live .none) := by
  obtain ⟨d', ended, hremoved, hkept, -, -⟩ :=
    @Consistent.removeHosted d s live .none h hs 404 "This terminal is no longer available."
  rw [removeSessionLocked, hremoved]
  exact ⟨hkept.consistent, hkept.told, quiet_nil⟩

theorem Consistent.removeSession (h : Consistent d) (s : Guid) : Done d allTold (d.removeSession s) := by
  rw [Directory.removeSession]
  cases hs : d.hosted.lookup s with
  | none => exact Done.same h
  | some live => exact h.removeLive hs

theorem Consistent.unhost (h : Consistent d) (c : DeviceConnection) (s : Guid) : Done d allTold (d.unhost c s) := by
  rw [Directory.unhost]
  cases hs : d.hosted.lookup s with
  | none => exact Done.same h
  | some live =>
    rw [Option.elim_some]
    split_ifs
    · exact h.removeLive hs
    · exact Done.same h

theorem Consistent.share (h : Consistent d) (c : DeviceConnection) (s incarnation : Guid) (status : Option TerminalStatus) :
    Done d allTold (.ok (d.share c s incarnation status)) := by
  rw [Directory.share]
  cases hs : d.hosted.lookup s with
  | none => exact Done.same h
  | some live =>
    rw [Option.elim_some]
    split_ifs
    · exact Done.same h
    · refine ⟨@Alike.consistent d _ ⟨rfl, rfl, rfl, rfl, fun s' => ?_, fun _ => ⟨rfl, rfl, rfl, rfl, rfl⟩⟩ h, .of_pipes ?_,
        quiet_nil⟩
      · rw [lookup_modify_if, Option.map_map]
        congr 1
        funext live
        simp only [Function.comp_apply]
        split_ifs <;> rfl
      · intro id p hp hnone
        exact absurd (hp.symm.trans hnone) nofun

/-- The host of a terminal is another entry, or another incarnation: the pipes to the old one are gone. -/
theorem Consistent.replaceHost {session : Session} (h : Consistent d) (hc : d.entries.lookup c = some r)
    (hs : d.hosted.lookup session.id = some live) : ∃ d' ended, d.replaceHost r session live =
      .ok (d', { AfterUnlock.none with pipes := ended }) ∧ ∃ d₁, Consistent (d₁.settle session.id session.incarnationId r) ∧
      d'.updateEntry r (fun entry => { entry with hosted := entry.hosted.insert session.id }) =
        d₁.settle session.id session.incarnationId r ∧ Ends d d₁ ended ∧ ∀ e ∈ ended, e.silent = none := by
  have hids : ∀ id ∈ live.pipes, ∃ p, d.pipes.lookup id = some p := by
    intro id hid
    obtain ⟨p, hp, -⟩ := (h.linked.session hs).mp hid
    exact ⟨p, hp⟩
  obtain ⟨d₁, ended, hended, hlinked, hstays, hends, hmap, hsilent⟩ :=
    @Linked.endPipesLocked d .none live.pipes 409 "This terminal was replaced." h.linked hids (h.linked.onceHeld hs)
  have hsession : ∀ {id p}, d₁.pipes.lookup id = some p → p.sessionId ≠ session.id := by
    intro id p hp hsession
    rw [hends.pipes, hmap] at hp
    split_ifs at hp with hmem
    exact hmem ((h.linked.session hs).mpr ⟨p, hp, hsession⟩)
  have hsame := hstays.hosted session.id
  rw [hs, Option.map_some, Option.map_eq_some_iff] at hsame
  obtain ⟨live₁, hlive₁, hhost₁⟩ := hsame
  have hempty : live₁.pipes = [] := by
    refine List.eq_nil_iff_forall_not_mem.mpr fun id hid => ?_
    obtain ⟨p, hp, hs'⟩ := (hlinked.session hlive₁).mp hid
    exact hsession hp hs'
  have hhosted : (d₁.hosted.modify session.id fun live =>
      { live with host := r, incarnationId := session.incarnationId, status := none }) =
      (d₁.hosted.erase session.id).insert session.id ⟨session.incarnationId, r, none, []⟩ := by
    rw [Dictionary.modify, hlive₁, Option.elim_some, Dictionary.insert_erase, hempty]
  have hforget : Consistent (d₁.forget session.id live.host) := by
    refine ⟨hhost₁ ▸ hlinked.forget hlive₁, fun {id p} hp => ?_⟩
    refine ((hstays.housed hends h.housed) hp).imp_right ?_
    rintro ⟨live', hlive', hentry⟩
    refine ⟨live', ?_, hentry⟩
    exact (Dictionary.lookup_erase d₁.hosted session.id p.sessionId).trans (by rw [if_neg (hsession hp), hlive'])
  have hnone : (d₁.forget session.id live.host).hosted.lookup session.id = none :=
    (Dictionary.lookup_erase d₁.hosted session.id session.id).trans (if_pos rfl)
  refine ⟨_, ended, by rw [Directory.replaceHost, ok_bind hended]; rfl, d₁.forget session.id live.host,
    hforget.settle (hstays.entries ▸ hc) hnone session.named hsession session.incarnationId, ?_,
    ⟨hends.pipes, hends.there, hends.once⟩, hsilent⟩
  let without := d₁.updateEntry live.host fun host => { host with hosted := host.hosted.erase session.id }
  exact congrArg (fun hosted => { without with hosted }.updateEntry r fun entry =>
    { entry with hosted := entry.hosted.insert session.id }) hhosted

theorem Consistent.host (h : Consistent d) (isOpen : DeviceConnection → Bool) (c : DeviceConnection) (session : Session) :
    Done d allTold (d.host isOpen c session) := by
  refine Done.require fun r hc => Done.reject fun _ => ?_
  dsimp only
  split_ifs with hsame
  · exact Done.same h
  cases hs : d.hosted.lookup session.id with
  | none =>
    have hnopipe : ∀ {id p}, d.pipes.lookup id = some p → p.sessionId ≠ session.id := by
      intro id p hp hsession
      rcases h.housed hp with hcall | ⟨live, hlive, -⟩
      · exact session.named (hsession ▸ isCall_iff.mp hcall)
      · rw [hsession, hs] at hlive
        cases hlive
    by_cases hfull : MaximumHostedTerminals ≤ d.hosted.entries.length
    · rw [Option.elim_none, addHost, Lib.reject, if_pos hfull]
      exact Thrown.noConfusion
    · rw [Option.elim_none, addHost, ok_bind (reject_ok.mpr hfull)]
      exact ⟨h.settle hc hs session.named hnopipe session.incarnationId, .of_pipes fun hp hnone =>
        (by cases hp.symm.trans hnone), quiet_nil⟩
  | some live =>
    obtain ⟨d', ended, hreplaced, d₁, hsettled, heq, hends, hsilent⟩ := h.replaceHost hc hs
    rw [Option.elim_some, ok_bind hreplaced]
    dsimp only
    rw [heq]
    exact ⟨hsettled, .of_ends ⟨hends.pipes, hends.there, hends.once⟩ hsilent, quiet_nil⟩

/-! ### Pipes -/

/-- The ends of one pipe, and of nothing else. -/
theorem Consistent.endOne {note : Pipe → Ended} (hnote : ∀ p, (note p).pipe = p) (h : Consistent d)
    (hp : d.pipes.lookup id = some p) : ∃ d', endPipe note (d, .none) p = (d', { AfterUnlock.none with pipes := [note p] }) ∧
      Consistent d' ∧ Ends d d' [note p] := by
  have hid := (h.linked.pipe hp).1
  obtain ⟨d', hfold, hlinked, hstays, hends⟩ :=
    @Linked.endPipes d .none note hnote [p] h.linked (List.forall_mem_singleton.mpr (hid ▸ hp)) (List.nodup_singleton _)
  exact ⟨d', hfold, ⟨hlinked, hstays.housed hends h.housed⟩, hends⟩

theorem Consistent.close (h : Consistent d) (c : DeviceConnection) (id : Guid) :
    Done d (fun _ => some c) (.ok (d.close c id)) := by
  rw [Directory.close]
  cases hp : d.pipes.lookup id with
  | none => exact Done.same h
  | some p =>
    rw [Option.elim_some]
    split_ifs
    · exact Done.same h
    · obtain ⟨d', hended, hconsistent, hends⟩ :=
        @Consistent.endOne d p id (fun pipe => ⟨pipe, 0, "", some c⟩) (fun _ => rfl) h hp
      rw [hended]
      exact ⟨hconsistent, .of_ends hends (by simp), quiet_nil⟩

theorem relayFailed_pipe (relayed : Relayed) (pipe : Pipe) :
    (relayFailed relayed pipe).pipe = pipe ∧ (relayFailed relayed pipe).silent = none := by
  cases relayed <;> exact ⟨rfl, rfl⟩

theorem Consistent.relay (h : Consistent d) (c : DeviceConnection) (id : Guid) (relayed : Relayed) :
    Done d allTold (.ok ((d.relay c id relayed).1, (d.relay c id relayed).2.1)) := by
  rw [Directory.relay]
  cases hp : d.pipes.lookup id with
  | none => exact Done.same h
  | some p =>
    rw [Option.elim_some]
    cases otherEnd p c with
    | none => exact Done.same h
    | some other =>
      rw [Option.elim_some]
      split_ifs
      · exact Done.same h
      · obtain ⟨d', hended, hconsistent, hends⟩ :=
          @Consistent.endOne d p id (relayFailed relayed) (fun pipe => (relayFailed_pipe relayed pipe).1) h hp
        rw [hended]
        exact ⟨hconsistent, .of_ends hends (by simp [relayFailed_pipe, allTold]), quiet_nil⟩

theorem Consistent.revoke (h : Consistent d) (s : Guid) (keep : Guid → String → Bool) :
    Done d allTold (d.revoke s keep) := by
  rw [Directory.revoke]
  cases hs : d.hosted.lookup s with
  | none => exact Done.same h
  | some live =>
    have hids : ∀ id ∈ live.pipes, ∃ p, d.pipes.lookup id = some p := by
      intro id hid
      obtain ⟨p, hp, -⟩ := (h.linked.session hs).mp hid
      exact ⟨p, hp⟩
    obtain ⟨pipes, hpipes, hmap, hthere⟩ := h.linked.pipesOf hids
    have hsub : (pipes.filter fun pipe => !keep pipe.viewer.userId pipe.viewer.deviceId).Sublist pipes := List.filter_sublist
    obtain ⟨d', hfold, hlinked, hstays, hends⟩ :=
      @Linked.endPipes d .none (fun pipe => ⟨pipe, 403, "This terminal is not shared with you.", none⟩) (fun _ => rfl) _ h.linked
        (fun p hp => hthere p (hsub.subset hp)) ((hmap ▸ h.linked.onceHeld hs).sublist (hsub.map _))
    rw [Option.elim_some]
    dsimp only
    rw [ok_bind hpipes, hfold]
    refine ⟨⟨hlinked, hstays.housed hends h.housed⟩, .of_ends hends fun e he => ?_, fun m hm => ?_⟩
    · obtain ⟨p, -, rfl⟩ := List.mem_map.mp he
      rfl
    · obtain rfl := List.mem_singleton.mp hm
      exact nofun

theorem With.told (hw : With d d' p) : Told d d' silent [] := by
  refine .of_pipes fun {id p'} hp => ?_
  rw [hw.pipes]
  split_ifs <;> simp [hp]

theorem Consistent.openPipe (h : Consistent d) (isOpen : DeviceConnection → Bool) (viewer : DeviceConnection) (id : Guid)
    (session : Session) : Done d allTold (d.openPipe isOpen viewer id session) := by
  refine Done.require fun watcher hv => Done.require fun live hs => Done.reject fun _ => Done.reject fun _ =>
    Done.reject fun _ => Done.reject fun _ => Done.reject fun hnot => ?_
  obtain ⟨-, c, hh⟩ := h.linked.host hs
  have hc := (h.linked.entry hh).2
  have hw := @Linked.addPipe d ⟨id, session.id, viewer, c⟩ h.linked watcher live.host hv hh
    (d.hosted.modify session.id fun live => { live with pipes := live.pipes.insert id })
    (fun watcher => { watcher with pipes := watcher.pipes.insert id, views := watcher.views + 1 })
    (fun host => { host with pipes := host.pipes.insert id }) (fun s => lookup_modify_if _ _) (fun _ => rfl)
    (fun host => by rw [if_neg (isCall_iff.not.mpr session.named)])
  rw [hc]
  refine ⟨hw.consistent h (AList.lookup_eq_none.mpr hnot) ⟨watcher, hv⟩ ⟨live.host, hh⟩ (.inr ⟨live, hs, hh⟩), hw.told,
    fun m hm => ?_⟩
  obtain rfl := List.mem_singleton.mp hm
  exact nofun

theorem Consistent.call (h : Consistent d) (isOpen : DeviceConnection → Bool) (caller : DeviceConnection) (id : Guid)
    (device : String) : Done d allTold (d.call isOpen caller id device) := by
  refine Done.require fun calling hv => Done.require fun called hdevice => Done.reject fun _ => Done.reject fun _ =>
    Done.reject fun _ => Done.reject fun hnot => ?_
  obtain ⟨c, hh, -, -⟩ := h.linked.account.mp hdevice
  have hc := (h.linked.entry hh).2
  have hw := @Linked.addPipe d ⟨id, Guid.Empty, caller, c⟩ h.linked calling called hv hh d.hosted
    (fun calling => { calling with pipes := calling.pipes.insert id, views := calling.views + 1 })
    (fun called => { called with pipes := called.pipes.insert id, calls := called.calls + 1 }) (fun s => ?_) (fun _ => rfl)
    (fun called => by rw [if_pos (isCall_iff.mpr rfl)])
  · rw [hc]
    refine ⟨hw.consistent h (AList.lookup_eq_none.mpr hnot) ⟨calling, hv⟩ ⟨called, hh⟩ (.inl (isCall_iff.mpr rfl)), hw.told,
      fun m hm => ?_⟩
    obtain rfl := List.mem_singleton.mp hm
    exact nofun
  · -- no terminal has the empty id
    cases hs : d.hosted.lookup s with
    | none => rfl
    | some live => rw [Option.map_some, if_neg (h.linked.host hs).1]

/-! ### Runs -/

/-- Who is not told of a pipe that a call ends. -/
def silentFor (d : Directory) : Call → Pipe → Option DeviceConnection
  | .register connection => d.deviceSilent connection.userId connection.deviceId
  | .remove connection => detachedSilent connection
  | .removeDevice userId deviceId => d.deviceSilent userId deviceId
  | .close connection _ => fun _ => some connection
  | _ => allTold

theorem Consistent.empty : Consistent .empty := by
  refine ⟨⟨nofun, ?_, nofun, nofun, nofun, nofun, nofun, nofun, nofun, nofun⟩, nofun⟩
  intro user device r
  exact ⟨nofun, fun ⟨_, hc, _⟩ => absurd hc nofun⟩

theorem Consistent.stopAll (d : Directory) : Consistent d.stopAll.1 := by
  refine ⟨⟨nofun, ?_, nofun, nofun, nofun, nofun, nofun, nofun, nofun, nofun⟩, nofun⟩
  intro user device r
  exact ⟨nofun, fun ⟨_, hc, _⟩ => absurd hc nofun⟩

/-- Each call but `stopAll` keeps the agreement and tells of the pipes that it ends. -/
theorem Consistent.done (h : Consistent d) (isOpen : DeviceConnection → Bool) {call : Call} (hcall : call ≠ .stopAll) :
    Done d (d.silentFor call) (d.step isOpen call) := by
  cases call with
  | register connection => exact h.register isOpen connection
  | ready connection => exact h.ready isOpen connection
  | remove connection => exact h.remove isOpen connection
  | removeDevice userId deviceId => exact h.removeDevice isOpen userId deviceId
  | host connection session => exact h.host isOpen connection session
  | share connection sessionId incarnationId status => exact h.share connection sessionId incarnationId status
  | unhost connection sessionId => exact h.unhost connection sessionId
  | removeSession sessionId => exact h.removeSession sessionId
  | openPipe viewer pipeId session => exact h.openPipe isOpen viewer pipeId session
  | call caller pipeId deviceId => exact h.call isOpen caller pipeId deviceId
  | close connection pipeId => exact h.close connection pipeId
  | relay fro pipeId relayed => exact h.relay fro pipeId relayed
  | revoke sessionId keep => exact h.revoke sessionId keep
  | stopAll => exact absurd rfl hcall

theorem Consistent.afterCall (h : Consistent d) (isOpen : DeviceConnection → Bool) (call : Call) :
    Consistent (d.afterCall isOpen call) := by
  by_cases hcall : call = .stopAll
  · subst hcall
    exact Consistent.stopAll d
  have hdone := h.done isOpen hcall
  rw [Directory.afterCall]
  cases hstep : d.step isOpen call with
  | error thrown => exact h
  | ok result =>
    rw [hstep] at hdone
    exact hdone.1

/-- How many notices of the end of a pipe a connection is sent. -/
def closedTo (sent : Sent) (c : DeviceConnection) (id : Guid) : Nat :=
  sent.countP fun message => message.1 = c && match message.2 with
    | .closed pipe _ _ => pipe = id
    | _ => false

theorem closedTo_append (sent more : Sent) (c : DeviceConnection) (id : Guid) :
    closedTo (sent ++ more) c id = closedTo sent c id + closedTo more c id := List.countP_append

theorem closedTo_quiet {sent : Sent} (h : Quiet sent) (c : DeviceConnection) (id : Guid) : closedTo sent c id = 0 := by
  refine List.countP_eq_zero.mpr fun m hm => ?_
  have hnot := h m hm
  cases hm2 : m.2 <;> simp_all

theorem closedTo_notices (e : Ended) (c : DeviceConnection) (id : Guid) : closedTo e.notices c id =
    if e.pipe.id = id ∧ (e.pipe.viewer = c ∨ e.pipe.host = c) ∧ e.silent ≠ some c then 1 else 0 := by
  rw [Ended.notices, closedTo_append]
  have hone : ∀ (b : Prop) [Decidable b] (to_ : DeviceConnection),
      closedTo (if b then [(to_, .closed e.pipe.id e.status e.message)] else []) c id =
        if b ∧ to_ = c ∧ e.pipe.id = id then 1 else 0 := by
    intro b _ to_
    by_cases hb : b <;> simp [hb, closedTo, List.countP_cons]
  rw [hone, hone]
  split_ifs <;> grind

/-- What is sent of a list of pipes that ended: once to each end of each, and nothing of other pipes. -/
theorem closedTo_apply (c : DeviceConnection) (id : Guid) : ∀ {ended : List Ended}, (ended.map (·.pipe.id)).Nodup →
    (id ∉ ended.map (·.pipe.id) → closedTo (ended.flatMap Ended.notices) c id = 0) ∧
    ∀ e ∈ ended, e.pipe.id = id → closedTo (ended.flatMap Ended.notices) c id = closedTo e.notices c id
  | [], _ => ⟨fun _ => rfl, nofun⟩
  | e :: ended, honce => by
    obtain ⟨hnot, honce⟩ := List.nodup_cons.mp honce
    obtain ⟨hzero, hsame⟩ := closedTo_apply c id honce
    rw [List.flatMap_cons, closedTo_append]
    refine ⟨fun hid => ?_, fun e' he' hid => ?_⟩
    · obtain ⟨hne, hid⟩ := not_or.mp (List.mem_cons.not.mp hid)
      rw [hzero hid, closedTo_notices, if_neg fun hall => hne hall.1.symm]
    · rcases List.mem_cons.mp he' with rfl | he'
      · rw [hzero (hid ▸ hnot), add_zero]
      · have hne : e.pipe.id ≠ id := fun heq => hnot (List.mem_map.mpr ⟨e', he', hid.trans heq.symm⟩)
        rw [hsame e' he' hid, closedTo_notices e, if_neg fun hall => hne hall.1, zero_add]

/-- In every state that calls lead to, the indexes agree; no call fails at a lookup by index; a pipe that a call takes out of
    the table is told of once to each end but the silent one, and to nobody else; and a frame is passed only from one end of a
    pipe to the other. -/
theorem indexes_agree {calls : List ((DeviceConnection → Bool) × Call)}
    (hrun : Run (fun d (call : (DeviceConnection → Bool) × Call) d' => d' = d.afterCall call.1 call.2) .empty calls d)
    (isOpen : DeviceConnection → Bool) :
    Consistent d ∧ (∀ call, d.step isOpen call ≠ .error .keyNotFound) ∧
    (∀ call d' after, call ≠ .stopAll → d.step isOpen call = .ok (d', after) → ∀ c id,
      (∀ pipe, d.pipes.lookup id = some pipe → d'.pipes.lookup id = none →
        closedTo (after.sent ++ after.apply) c id =
          if (pipe.viewer = c ∨ pipe.host = c) ∧ d.silentFor call pipe ≠ some c then 1 else 0) ∧
      (d.pipes.lookup id = none ∨ d'.pipes.lookup id ≠ none → closedTo (after.sent ++ after.apply) c id = 0)) ∧
    ∀ fro id relayed other, (d.relay fro id relayed).2.2 = some other → ∃ pipe, d.pipes.lookup id = some pipe ∧
      ((pipe.viewer = fro ∧ pipe.host = other) ∨ (pipe.host = fro ∧ pipe.viewer = other)) := by
  have hstep : ∀ {d : Directory} {call : (DeviceConnection → Bool) × Call} {d'}, Consistent d →
      d' = d.afterCall call.1 call.2 → Consistent d' := fun h hnext => hnext ▸ h.afterCall _ _
  have hd : Consistent d := hrun.invariant (I := Consistent) hstep .empty
  refine ⟨hd, fun call herror => ?_, fun call d' after hcall hstep c id => ?_, fun fro id relayed other hpassed => ?_⟩
  · by_cases hcall : call = .stopAll
    · subst hcall
      exact absurd herror nofun
    · have hdone := hd.done isOpen hcall
      rw [herror] at hdone
      exact hdone rfl
  · have hdone := hd.done isOpen hcall
    rw [hstep] at hdone
    obtain ⟨-, htold, hquiet⟩ := hdone
    obtain ⟨hzero, hsame⟩ := closedTo_apply c id htold.once
    rw [closedTo_append, closedTo_quiet hquiet, zero_add]
    refine ⟨fun pipe hp hgone => ?_, fun hkept => hzero fun hid => ?_⟩
    · obtain ⟨e, he, hid⟩ := List.mem_map.mp ((htold.gone hp).mp hgone)
      obtain rfl : pipe = e.pipe := Option.some.inj (hp.symm.trans (hid ▸ htold.there e he))
      rw [AfterUnlock.apply, hsame e he hid, closedTo_notices, ← htold.silent e he]
      exact if_congr (and_iff_right hid) rfl rfl
    · obtain ⟨e, he, rfl⟩ := List.mem_map.mp hid
      have hp := htold.there e he
      rw [hp] at hkept
      exact hkept.elim nofun fun hne => hne ((htold.gone hp).mpr hid)
  · rw [Directory.relay] at hpassed
    cases hp : d.pipes.lookup id with
    | none =>
      rw [hp] at hpassed
      exact absurd hpassed nofun
    | some pipe =>
      refine ⟨pipe, rfl, ?_⟩
      rw [hp, Option.elim_some] at hpassed
      cases hother : otherEnd pipe fro with
      | none =>
        rw [hother] at hpassed
        exact absurd hpassed nofun
      | some to_ =>
        rw [hother, Option.elim_some] at hpassed
        split_ifs at hpassed
        · obtain rfl := Option.some.inj hpassed
          rw [otherEnd] at hother
          split_ifs at hother with hviewer hhost
          · exact .inl ⟨hviewer, Option.some.inj hother⟩
          · exact .inr ⟨hhost, Option.some.inj hother⟩

/-- A computer, another one that views a terminal of it, and the terminal. -/
def ada : DeviceConnection := ⟨1, 1, "ada", true⟩

def bob : DeviceConnection := ⟨2, 2, "bob", false⟩

def shell : Session := ⟨5, 6, by decide⟩

def viewing : List ((DeviceConnection → Bool) × Call) :=
  [.register ada, .register bob, .host ada shell, .openPipe bob 9 shell].map fun call => (fun _ => true, call)

def afterViewing : Directory := viewing.foldl (fun d (call : (DeviceConnection → Bool) × Call) => d.afterCall call.1 call.2) .empty

theorem indexes_agree_viewing : afterViewing.pipes.lookup 9 = some ⟨9, 5, bob, ada⟩ ∧ Consistent afterViewing :=
  ⟨by decide, (indexes_agree (Run.foldl _ _ viewing) fun _ => true).1⟩

end Directory

end Kodosi.TerminalConnections
