import Kodosi.Identity.FirstDevice
import Kodosi.Lib.Run

/-! A client over any time: identities that come in, saves that fail, identities that it forgets, and
    restarts from its file. Between two approvals of a person, the pin of the person moves forward. -/

namespace Kodosi.Identity
open Kodosi.Lib

variable {C : Crypto} {length : StoredPins → Nat}

inductive PinEvent where
  | verify (bundle : IdentityBundle) (anchor : Anchor) (nowMs : Nat) (save : Save)
  | verifyForRenewal (bundle : IdentityBundle) (nowMs : Nat) (save : Save)
  | forget (userId : String) (save : Save)
  | restart

/-- What a client does with its pins. It starts again only when it can read its file. -/
inductive Pins.Step (C : Crypto) (length : StoredPins → Nat) (s : Pins) : PinEvent → Pins → Prop
  | verify (bundle : IdentityBundle) (anchor : Anchor) (nowMs : Nat) (save : Save) :
      Step C length s (.verify bundle anchor nowMs save) (s.verify C bundle anchor nowMs save).2
  | verifyForRenewal (bundle : IdentityBundle) (nowMs : Nat) (save : Save) :
      Step C length s (.verifyForRenewal bundle nowMs save)
        (s.verifyForRenewal C bundle nowMs save).2
  | forget (userId : String) (save : Save) :
      Step C length s (.forget userId save) (s.forget userId save).2
  | restart {t : Pins} (hload : Pins.load length s.file = .ok t) : Step C length s .restart t

/-- The first start, without a file. -/
def Pins.start : Pins := ⟨none, ∅⟩

/-- The pin of a person in the file. -/
def Pins.saved (s : Pins) (userId : String) : Option Pin := s.file.bind (·.pins[userId]?)

/-- Nobody approves another root for the person here, or forgets the person. -/
def Keeps (userId : String) (s : Pins) : PinEvent → Prop
  | .verify bundle anchor _ _ =>
    bundle.userId = userId → ∀ pin, s.pins[userId]? = some pin → anchor.admits pin
  | .verifyForRenewal _ _ _ => True
  | .forget id _ => id ≠ userId
  | .restart => True

/-! ### One step, as one person's pin sees it -/

/-- How the pin of a person in memory and in the file may change. `kept` says that the step approves no
    other root and forgets nobody. -/
inductive Moves (C : Crypto) (kept : Prop) (memory file : Option Pin) :
    Option Pin → Option Pin → Prop
  | still : Moves C kept memory file memory file
  | saved : Moves C kept memory file memory memory
  | pinned (new : Pin) (hsound : new.Sound) (hnew : kept → ∀ old ∈ memory, old.Advances C new) :
      Moves C kept memory file (some new) (some new)
  | written (new : Pin) (hsound : new.Sound) (hnew : kept → ∀ old ∈ memory, old.Advances C new) :
      Moves C kept memory file memory (some new)
  | restarted : Moves C kept memory file file file
  | forgotten (hkept : ¬kept) : Moves C kept memory file none none
  | erased (hkept : ¬kept) : Moves C kept memory file memory none

/-- The ways in which a call to check a bundle ends. -/
theorem verifyCurrent_cases (C : Crypto) (s : Pins) (bundle : IdentityBundle) (anchor : Anchor)
    (nowMs : Nat) (allowExpired : Bool) (save : Save) :
    (∃ e, s.verifyCurrent C bundle anchor nowMs allowExpired (some save) = (.error e, s)) ∨
    ∃ p : Parts, p.Checked C bundle anchor (Pins.existing s.pins bundle.userId anchor) nowMs
        allowExpired ∧
      let pin := p.pin bundle (Pins.existing s.pins bundle.userId anchor)
      (∃ old, s.pins[bundle.userId]? = some old ∧ old.same pin ∧
        s.verifyCurrent C bundle anchor nowMs allowExpired (some save) = (.ok p.identity, s)) ∨
      (s.verifyCurrent C bundle anchor nowMs allowExpired (some save)).2
          = (s.store (s.pins.insert bundle.userId pin) save).2 ∧
        (s.verifyCurrent C bundle anchor nowMs allowExpired (some save)).1
          = (s.store (s.pins.insert bundle.userId pin) save).1.map fun _ => p.identity := by
  cases hcheck : check C bundle anchor (Pins.existing s.pins bundle.userId anchor) nowMs
    allowExpired with
  | error e => exact .inl ⟨e, by rw [Pins.verifyCurrent, hcheck]⟩
  | ok p =>
    refine .inr ⟨p, check_ok hcheck, ?_⟩
    dsimp only
    by_cases hsame : s.pins[bundle.userId]?.any
        (·.same (p.pin bundle (Pins.existing s.pins bundle.userId anchor)))
    · obtain ⟨old, hold, hsame'⟩ := Option.any_eq_true _ _ |>.mp hsame
      exact .inl ⟨old, hold, hsame', by rw [Pins.verifyCurrent, hcheck]; exact if_pos hsame⟩
    · refine .inr ⟨?_, ?_⟩
      all_goals
        rw [Pins.verifyCurrent, hcheck]
        dsimp only
        rw [if_neg hsame]

/-- Pins that were accepted, in memory and in the file. -/
structure Pins.Sound (s : Pins) : Prop where
  memory : ∀ (userId : String) (pin : Pin), s.pins[userId]? = some pin → pin.Sound
  file : ∀ (userId : String) (pin : Pin), s.saved userId = some pin → pin.Sound

variable {s : Pins}

theorem store_moves {next : Map Pin} {save : Save} {kept : Prop} {userId : String}
    (h : Moves C kept s.pins[userId]? (s.saved userId) next[userId]? next[userId]?)
    (hwritten : Moves C kept s.pins[userId]? (s.saved userId) s.pins[userId]? next[userId]?) :
    Moves C kept s.pins[userId]? (s.saved userId) (s.store next save).2.pins[userId]?
      ((s.store next save).2.saved userId) := by
  rcases save with _ | (_ | _)
  · exact h
  · exact .still
  · exact hwritten

theorem verifyCurrent_moves (hs : s.Sound) (bundle : IdentityBundle) (anchor : Anchor) (nowMs : Nat)
    (allowExpired : Bool) (save : Save) (userId : String) {kept : Prop}
    (hkept : kept → bundle.userId = userId → ∀ pin, s.pins[userId]? = some pin → anchor.admits pin) :
    let t := (s.verifyCurrent C bundle anchor nowMs allowExpired (some save)).2
    Moves C kept s.pins[userId]? (s.saved userId) t.pins[userId]? (t.saved userId) := by
  dsimp only
  obtain ⟨e, he⟩ | ⟨p, hp, ⟨old, -, -, he⟩ | ⟨he, -⟩⟩ :=
    verifyCurrent_cases C s bundle anchor nowMs allowExpired save
  · rw [he]
    exact .still
  · rw [he]
    exact .still
  rw [he]
  by_cases huser : bundle.userId = userId
  · have hnew : kept → ∀ old ∈ s.pins[userId]?, old.Advances C
        (p.pin bundle (Pins.existing s.pins bundle.userId anchor)) := fun hk old hold => by
      have hexisting : Pins.existing s.pins bundle.userId anchor = some old := by
        rw [Pins.existing, huser, hold]
        exact Option.filter_some_pos (hkept hk huser old hold)
      rw [hexisting] at hp ⊢
      exact hp.advances (hs.memory userId old hold)
    refine store_moves ?_ ?_
    all_goals rw [getElem?_insert, if_pos huser]
    · exact .pinned _ hp.sound hnew
    · exact .written _ hp.sound hnew
  · refine store_moves ?_ ?_
    all_goals rw [getElem?_insert, if_neg huser]
    all_goals exact .saved

variable {t : Pins}

theorem step_moves {e : PinEvent} (hs : s.Sound) (hstep : s.Step C length e t) (userId : String) :
    Moves C (Keeps userId s e) s.pins[userId]? (s.saved userId) t.pins[userId]? (t.saved userId) := by
  cases hstep with
  | verify bundle anchor nowMs save =>
    exact verifyCurrent_moves hs bundle anchor nowMs false save userId id
  | verifyForRenewal bundle nowMs save =>
    exact verifyCurrent_moves hs bundle .pinned nowMs true save userId fun _ _ _ _ => rfl
  | forget id save =>
    rw [Pins.forget]
    split
    · by_cases hid : id = userId
      · refine store_moves ?_ ?_
        all_goals rw [Std.TreeMap.getElem?_erase, if_pos (by simp [hid])]
        · exact .forgotten (fun hkept => hkept hid)
        · exact .erased (fun hkept => hkept hid)
      · refine store_moves ?_ ?_
        all_goals rw [Std.TreeMap.getElem?_erase, if_neg (by simp [hid])]
        all_goals exact .saved
    · exact .still
  | restart hload =>
    cases hfile : s.file with
    | none =>
      rw [hfile] at hload
      obtain rfl := Except.ok.inj hload
      simp only [Pins.saved, hfile]
      exact .restarted
    | some stored =>
      rw [hfile] at hload
      obtain ⟨⟨⟩, -, hload⟩ := bind_ok hload
      obtain ⟨⟨⟩, -, hload⟩ := bind_ok hload
      obtain rfl := Except.ok.inj hload
      simp only [Pins.saved, hfile]
      exact .restarted

/-- The pin in the file is not behind the one in memory. -/
def Ahead (C : Crypto) (memory file : Option Pin) : Prop :=
  ∀ old ∈ memory, ∃ new ∈ file, new = old ∨ old.Advances C new

theorem Ahead.refl (C : Crypto) (memory : Option Pin) : Ahead C memory memory :=
  fun old hold => ⟨old, hold, .inl rfl⟩

namespace Moves

variable {kept : Prop} {memory file memory' file' : Option Pin}

theorem sound (h : Moves C kept memory file memory' file') (hmemory : ∀ pin ∈ memory, pin.Sound)
    (hfile : ∀ pin ∈ file, pin.Sound) :
    (∀ pin ∈ memory', pin.Sound) ∧ ∀ pin ∈ file', pin.Sound := by
  cases h with
  | still => exact ⟨hmemory, hfile⟩
  | saved => exact ⟨hmemory, hmemory⟩
  | pinned new hsound => simp [hsound]
  | written new hsound => exact ⟨hmemory, by simp [hsound]⟩
  | restarted => exact ⟨hfile, hfile⟩
  | forgotten => simp
  | erased => exact ⟨hmemory, by simp⟩

/-- A step that keeps the person moves the pin forward at most, and the file stays ahead of it. -/
theorem ahead (h : Moves C kept memory file memory' file') (hkept : kept)
    (hahead : Ahead C memory file) : Ahead C memory memory' ∧ Ahead C memory' file' := by
  cases h with
  | still => exact ⟨.refl C _, hahead⟩
  | saved => exact ⟨.refl C _, .refl C _⟩
  | pinned new hsound hnew =>
    exact ⟨fun old hold => ⟨new, rfl, .inr (hnew hkept old hold)⟩, .refl C _⟩
  | written new hsound hnew =>
    exact ⟨.refl C _, fun old hold => ⟨new, rfl, .inr (hnew hkept old hold)⟩⟩
  | restarted => exact ⟨hahead, .refl C _⟩
  | forgotten hno => exact absurd hkept hno
  | erased hno => exact absurd hkept hno

end Moves

/-! ### Runs -/

theorem sound_step {e : PinEvent} (hs : s.Sound) (hstep : s.Step C length e t) : t.Sound :=
  ⟨fun userId => ((step_moves hs hstep userId).sound (hs.memory userId) (hs.file userId)).1,
    fun userId => ((step_moves hs hstep userId).sound (hs.memory userId) (hs.file userId)).2⟩

theorem sound_start : Pins.start.Sound :=
  ⟨fun userId pin h => by simp [Pins.start] at h, fun userId pin h => by
    simp [Pins.start, Pins.saved] at h⟩

variable {es : List PinEvent}

theorem sound_run (hs : s.Sound) (hrun : Run (Pins.Step C length) s es t) : t.Sound :=
  hrun.invariant (fun hs hstep => sound_step hs hstep) hs

/-- A pin of a later time has kept what the earlier one had. -/
theorem forward_run {userId : String} (hs : s.Sound) (hahead : Ahead C s.pins[userId]? (s.saved userId))
    (hrun : Run (Guarded (Keeps userId) (Pins.Step C length)) s es t) :
    Ahead C t.pins[userId]? (t.saved userId) ∧ t.Sound ∧
      ∀ old ∈ s.pins[userId]?, ∃ new ∈ t.pins[userId]?, old.Forward new := by
  induction hrun with
  | nil => exact ⟨hahead, hs, fun old hold => ⟨old, hold, .refl old⟩⟩
  | snoc _ hnext ih =>
    obtain ⟨hkeeps, hstep⟩ := hnext
    obtain ⟨hmid, hsound, hforward⟩ := ih
    obtain ⟨hmemory, hfile⟩ := (step_moves hsound hstep userId).ahead hkeeps hmid
    refine ⟨hfile, sound_step hsound hstep, fun old hold => ?_⟩
    obtain ⟨mid, hmid, hold⟩ := hforward old hold
    obtain ⟨new, hnew, rfl | hadvances⟩ := hmemory mid hmid
    · exact ⟨new, hnew, hold⟩
    · exact ⟨new, hnew, hold.trans hadvances.forward⟩

/-- What a verified identity has to do with the pin that stands after it. -/
structure VerifiedIdentity.Pinned (v : VerifiedIdentity) (pin : Pin) : Prop where
  root : pin.root = v.root
  generation : pin.generation = v.generation
  list : pin.list = .ok v.list
  devices : ∀ id ∈ v.devices, id ∈ v.list.deviceIds ∧ id ∉ pin.revoked

theorem Parts.Checked.identity_pinned {p : Parts} {bundle : IdentityBundle} {anchor : Anchor}
    {existing : Option Pin} {nowMs : Nat} {allowExpired : Bool}
    (h : p.Checked C bundle anchor existing nowMs allowExpired) :
    p.identity.Pinned (p.pin bundle existing) where
  root := rfl
  generation := rfl
  list := h.list_eq
  devices _ hid := ⟨p.mem_list hid, h.unrevoked hid⟩

/-- A check that ends well leaves the pin of what it verified; one that fails leaves all pins. -/
theorem verifyCurrent_pinned (C : Crypto) (s : Pins) (bundle : IdentityBundle) (anchor : Anchor)
    (nowMs : Nat) (allowExpired : Bool) (save : Save) :
    (∀ v, (s.verifyCurrent C bundle anchor nowMs allowExpired (some save)).1 = .ok v →
      ∃ pin, (s.verifyCurrent C bundle anchor nowMs allowExpired (some save)).2.pins[bundle.userId]?
        = some pin ∧ v.Pinned pin) ∧
    (∀ e, (s.verifyCurrent C bundle anchor nowMs allowExpired (some save)).1 = .error e →
      (s.verifyCurrent C bundle anchor nowMs allowExpired (some save)).2.pins = s.pins) := by
  obtain ⟨e, he⟩ | ⟨p, hp, ⟨old, hold, hsame, he⟩ | ⟨he, hresult⟩⟩ :=
    verifyCurrent_cases C s bundle anchor nowMs allowExpired save
  · rw [he]
    exact ⟨fun v hv => by simp at hv, fun _ _ => rfl⟩
  · rw [he]
    refine ⟨fun v hv => ⟨old, hold, ?_⟩, fun _ _ => rfl⟩
    obtain rfl := Except.ok.inj hv
    obtain ⟨-, hgeneration, hbody, -, hrevoked, hroot⟩ := Pin.same_iff hsame
    have hpinned := hp.identity_pinned
    refine ⟨hroot.trans hpinned.root, hgeneration.trans hpinned.generation, ?_, ?_⟩
    · rw [Pin.list, hbody]
      exact hpinned.list
    · rw [hrevoked]
      exact hpinned.devices
  · rw [he, hresult]
    cases save with
    | done =>
      refine ⟨fun v hv => ⟨_, Std.TreeMap.getElem?_insert_self, ?_⟩, fun e he => ?_⟩
      · obtain rfl := Except.ok.inj hv
        exact hp.identity_pinned
      · simp [Pins.store, Except.map] at he
    | failed renamed =>
      exact ⟨fun v hv => by simp [Pins.store, Except.map] at hv, fun _ _ => rfl⟩

/-! ### A person with two identities -/

namespace Plain

def first₁ : Pin := first.pin crypto (ownList userId "first" 1 1000 none) (listOf first 1 1000)
def first₂ : Pin := first.pin crypto (ownList userId "first" 2 2000 none) (listOf first 2 2000)
def second₁ : Pin := second.pin crypto (ownList userId "second" 1 1000 none) (listOf second 1 1000)

def approve (a : Alone) (list : SignedBody) (save : Save) : PinEvent :=
  .verify (a.bundle list) (.root (a.root crypto)) 3000 save

/-- Pins that a step saved. -/
def holding (next : Map Pin) : Pins := ⟨some ⟨1, next⟩, next⟩

theorem root_ne : first.root crypto ≠ second.root crypto := by decide +kernel

variable {s : Pins}

/-- Under no pin of its root, an identity follows nothing. -/
theorem follows {a : Alone} {l : SignedDeviceList} (hnone : ∀ pin ∈ s.pins[a.userId]?, pin.root ≠ a.root crypto) :
    a.Follows crypto l (Pins.existing s.pins a.userId (.root (a.root crypto))) := by
  have hexisting : Pins.existing s.pins a.userId (.root (a.root crypto)) = none := by
    rw [Pins.existing, Option.filter_eq_none_iff]
    exact fun pin hpin h => hnone pin hpin (beq_iff_eq.mp h)
  rw [hexisting]
  exact fun _ h => by simp at h

/-- Approving the one or the other, from no pin or the other's, takes its pin. -/
theorem approves {a : Alone} {generation issuedAtMs : Nat} (hk : a.key.Works crypto)
    (hmade : (signList (ownList a.userId a.deviceId generation issuedAtMs none) a.key).toOption.isSome)
    (hincarnation : a.identityIncarnationId ≠ 0)
    (htime : a.InTime (ownList a.userId a.deviceId generation issuedAtMs none) 3000 false)
    (hnone : ∀ pin ∈ s.pins[a.userId]?, pin.root ≠ a.root crypto) (save : Save) :
    s.Step crypto length (approve a (listOf a generation issuedAtMs) save)
      (s.store (s.pins.insert a.userId (a.pin crypto (ownList a.userId a.deviceId generation
        issuedAtMs none) (listOf a generation issuedAtMs))) save).2 := by
  obtain ⟨hstep, -⟩ := verify_alone hk (signed_of hmade) hincarnation htime (follows hnone) save
  rw [← hstep]
  exact .verify _ _ _ _

theorem first_in_time {generation issuedAtMs : Nat} (h : issuedAtMs ≤ 3000) :
    first.InTime (ownList userId "first" generation issuedAtMs none) 3000 false where
  issued := by decide
  valid := rfl
  current := by
    have hsoon : issuedAtMs ≤ soon 3000 := by
      simp only [soon]
      omega
    rw [isCurrent, Bool.and_eq_true]
    exact ⟨decide_eq_true hsoon, rfl⟩

theorem second_in_time : second.InTime (ownList userId "second" 1 1000 none) 3000 false where
  issued := by decide
  valid := rfl
  current := by decide

/-- The first identity is approved when it has renewed its list. -/
theorem approves_first₂ (hnone : ∀ pin ∈ s.pins[userId]?, pin.root ≠ first.root crypto) :
    s.Step crypto length (approve first (listOf first 2 2000) .done) (holding (s.pins.insert userId first₂)) :=
  approves (key_works 1) (by decide) (by decide) (first_in_time (by omega)) hnone .done

theorem approves_first₁ (hnone : ∀ pin ∈ s.pins[userId]?, pin.root ≠ first.root crypto) :
    s.Step crypto length (approve first (listOf first 1 1000) .done) (holding (s.pins.insert userId first₁)) :=
  approves (key_works 1) (by decide) (by decide) (first_in_time (by omega)) hnone .done

theorem approves_second (hnone : ∀ pin ∈ s.pins[userId]?, pin.root ≠ second.root crypto) (save : Save) :
    s.Step crypto length (approve second (listOf second 1 1000) save) (s.store (s.pins.insert userId second₁) save).2 :=
  approves (key_works 2) (by decide) (by decide) second_in_time hnone save

/-- From the pin of the first list, the renewed list takes its pin. -/
theorem renews_first : (holding ((∅ : Map Pin).insert userId first₁)).Step crypto length
    (approve first (listOf first 2 2000) .done)
    (holding (((∅ : Map Pin).insert userId first₁).insert userId first₂)) := by
  have hexisting : Pins.existing (holding ((∅ : Map Pin).insert userId first₁)).pins userId
      (.root (first.root crypto)) = some first₁ := by
    rw [Pins.existing, show (holding ((∅ : Map Pin).insert userId first₁)).pins[userId]? = some first₁
      from Std.TreeMap.getElem?_insert_self]
    exact Option.filter_some_pos (beq_iff_eq.mpr rfl)
  have hfollows : first.Follows crypto (ownList userId "first" 2 2000 none)
      (Pins.existing (holding ((∅ : Map Pin).insert userId first₁)).pins userId
        (.root (first.root crypto))) := by
    rw [hexisting]
    rintro pin ⟨⟩
    exact ⟨ownList userId "first" 1 1000 none, listOf first 1 1000,
      signed_of (a := first) (by decide), rfl, by decide, by decide⟩
  obtain ⟨hstep, -⟩ := verify_alone (key_works 1) (signed_of (a := first) (by decide))
    (by decide) (first_in_time (by omega)) hfollows .done
  rw [show holding (((∅ : Map Pin).insert userId first₁).insert userId first₂) = _ from hstep.symm]
  exact .verify _ _ _ _

end Plain

/-! ### The rule -/

/-- Pins move forward. From a state whose file holds the person's pin, as long as nobody approves another
    root for the person or forgets it, the pin keeps its root and incarnation, its generation, its list
    and what it revoked; a newer list comes from a device that was pinned; what a check returns is what
    is pinned then, without revoked devices; and a check that fails leaves all pins. -/
theorem pins_forward {userId : String} {s t : Pins} {es es' : List PinEvent}
    (hstart : Run (Pins.Step C length) Pins.start es s)
    (hsaved : s.saved userId = s.pins[userId]?)
    (hrun : Run (Guarded (Keeps userId) (Pins.Step C length)) s es' t) :
    (∀ old, s.pins[userId]? = some old → ∃ new, t.pins[userId]? = some new ∧ old.Forward new) ∧
    (∀ e r, Keeps userId t e → t.Step C length e r → ∀ old, t.pins[userId]? = some old →
      ∃ new, r.pins[userId]? = some new ∧ (new = old ∨ old.Advances C new)) ∧
    ∀ bundle anchor nowMs allowExpired save,
      (∀ v, (t.verifyCurrent C bundle anchor nowMs allowExpired (some save)).1 = .ok v →
        ∃ pin, (t.verifyCurrent C bundle anchor nowMs allowExpired
          (some save)).2.pins[bundle.userId]? = some pin ∧ v.Pinned pin) ∧
      ∀ e, (t.verifyCurrent C bundle anchor nowMs allowExpired (some save)).1 = .error e →
        (t.verifyCurrent C bundle anchor nowMs allowExpired (some save)).2.pins = t.pins := by
  have hs : s.Sound := sound_run sound_start hstart
  have hahead : Ahead C s.pins[userId]? (s.saved userId) := by
    rw [hsaved]
    exact .refl C _
  obtain ⟨hmid, ht, hforward⟩ := forward_run hs hahead hrun
  refine ⟨hforward, fun e r hkeeps hstep => ?_, verifyCurrent_pinned C t⟩
  exact ((step_moves ht hstep userId).ahead hkeeps hmid).1

open Plain in
/-- The rule at a renewed list. -/
theorem pins_forward_renewed : first₁.Forward first₂ := by
  have hstart : Run (Pins.Step crypto fun _ => 0) Pins.start
      [approve first (listOf first 1 1000) .done] (holding ((∅ : Map Pin).insert userId first₁)) :=
    Run.single_iff.mpr (approves_first₁ (by simp [Pins.start]))
  have hkeeps : Keeps userId (holding ((∅ : Map Pin).insert userId first₁))
      (approve first (listOf first 2 2000) .done) := by
    intro _ pin hpin
    obtain rfl : first₁ = pin :=
      Option.some.inj ((Std.TreeMap.getElem?_insert_self (t := (∅ : Map Pin))).symm.trans hpin)
    exact beq_iff_eq.mpr rfl
  obtain ⟨hforward, -, -⟩ := pins_forward hstart rfl
    (Run.single_iff.mpr ⟨hkeeps, renews_first⟩)
  obtain ⟨new, hnew, h⟩ := hforward first₁ Std.TreeMap.getElem?_insert_self
  obtain rfl : first₂ = new := Option.some.inj (Std.TreeMap.getElem?_insert_self.symm.trans hnew)
  exact h

open Plain in
/-- The pin of a person as one identity is approved, then another, and the first one again with an
    older list; and as a save that fails has put the new file in place before a restart. -/
theorem pins_not_forward : ∃ s : Pins,
    Run (Pins.Step crypto fun _ => 0) Pins.start [approve first (listOf first 2 2000) .done] s ∧
    s.pins[userId]? = some first₂ ∧
    (∃ t, Run (Pins.Step crypto fun _ => 0) s [approve second (listOf second 1 1000) .done,
        approve first (listOf first 1 1000) .done] t ∧
      t.pins[userId]? = some first₁ ∧ first₁.root = first₂.root ∧
      first₁.generation < first₂.generation) ∧
    ∃ t, (s.verify crypto (second.bundle (listOf second 1 1000)) (.root (second.root crypto)) 3000
        (.failed true)).1 = .error .io ∧
      Run (Pins.Step crypto fun _ => 0) s [approve second (listOf second 1 1000) (.failed true),
        .restart] t ∧
      t.pins[userId]? = some second₁ ∧ second₁.root ≠ first₂.root := by
  have hfirst : (holding ((∅ : Map Pin).insert userId first₂)).pins[userId]? = some first₂ :=
    Std.TreeMap.getElem?_insert_self
  have hsecond : ∀ pin ∈ (holding ((∅ : Map Pin).insert userId first₂)).pins[userId]?,
      pin.root ≠ second.root crypto := by
    rw [hfirst]
    rintro pin ⟨⟩
    exact root_ne
  have hback : ∀ pin ∈ (holding (((∅ : Map Pin).insert userId first₂).insert userId
      second₁)).pins[userId]?, pin.root ≠ first.root crypto := by
    rw [show (holding (((∅ : Map Pin).insert userId first₂).insert userId second₁)).pins[userId]?
      = some second₁ from Std.TreeMap.getElem?_insert_self]
    rintro pin ⟨⟩
    exact root_ne.symm
  refine ⟨holding ((∅ : Map Pin).insert userId first₂),
    Run.single_iff.mpr (approves_first₂ (by simp [Pins.start])), hfirst,
    ⟨_, .snoc (Run.single_iff.mpr (approves_second hsecond .done)) (approves_first₁ hback),
      Std.TreeMap.getElem?_insert_self, rfl, by decide⟩, ?_⟩
  refine ⟨_, ?_, .snoc (Run.single_iff.mpr (approves_second hsecond (.failed true)))
    (.restart rfl), Std.TreeMap.getElem?_insert_self, root_ne.symm⟩
  exact (verify_alone (key_works 2) (signed_of (by decide)) (by decide) second_in_time
    (follows hsecond) (.failed true)).2

end Kodosi.Identity
