import Kodosi.TerminalConnections.Directory

/-! The announcements of terminals that changed. A call of `Change` writes a terminal to a channel unless it waits already, a
    loop reads the channel, and writes a terminal that it announced less than a second ago again later. The threads go on in
    any order. -/

namespace Kodosi.TerminalConnections
open Kodosi.Lib

/-- In ticks of 100 nanoseconds. -/
def Spacing : Nat := 10000000

def RememberedTerminals : Nat := 65536

/-- What the loop does. -/
inductive Reader where
  | waits
  | took (sessionId : Guid) (now : Nat)
  | announces (sessionId : Guid)

def Reader.held : Reader → List Guid
  | .took sessionId _ => [sessionId]
  | _ => []

/-- `later` is what a call of `Change` or an end of a delay has still to write. For the proofs, `stale` has the terminals with a
    change, or a failure of the database, since their last announcement began, and `begun` has all announcements. -/
structure Presence where
  changed : List Guid
  waiting : Finset Guid
  announced : Dictionary Guid Nat
  later : List Guid
  reader : Reader
  now : Nat
  stale : Finset Guid
  begun : List (Guid × Nat)

namespace Presence

def start (now : Nat) : Presence := ⟨[], ∅, ∅, [], .waits, now, ∅, []⟩

/-- Forgets what was announced a second ago or more. -/
def forget (announced : Dictionary Guid Nat) (now : Nat) : Dictionary Guid Nat :=
  ⟨announced.entries.filter fun e => now - e.2 < Spacing, announced.nodupKeys.sublist List.filter_sublist⟩

def remember (announced : Dictionary Guid Nat) (sessionId : Guid) (now : Nat) : Dictionary Guid Nat :=
  let announced := announced.insert sessionId now
  if RememberedTerminals < announced.entries.length then forget announced now else announced

/-- Marks a terminal, which has to be written unless it waits already. -/
def wait (p : Presence) (sessionId : Guid) : Presence :=
  if sessionId ∈ p.waiting then { p with stale := insert sessionId p.stale }
  else { p with
    stale := insert sessionId p.stale
    waiting := insert sessionId p.waiting
    later := sessionId :: p.later }

/-- Time that passes, or one access of a thread to what the threads share. -/
inductive Happens where
  | passes (ticks : Nat)
  | change (sessionId : Guid)
  | writes (sessionId : Guid)
  | takes
  | begins
  /-- An announcement ends: with the database, it went out or failed for good. -/
  | ends (databaseUnavailable : Bool)

def step (p : Presence) : Happens → Presence
  | .passes ticks => { p with now := p.now + ticks }
  | .change sessionId => p.wait sessionId
  | .writes sessionId =>
    if sessionId ∈ p.later then { p with later := p.later.erase sessionId, changed := p.changed ++ [sessionId] } else p
  | .takes =>
    match p.reader, p.changed with
    | .waits, sessionId :: changed =>
      if (p.announced.lookup sessionId).any (p.now - · < Spacing) then { p with changed, later := sessionId :: p.later }
      else { p with changed, reader := .took sessionId p.now }
    | _, _ => p
  | .begins =>
    match p.reader with
    | .took sessionId now => { p with
        waiting := p.waiting.erase sessionId
        announced := remember p.announced sessionId now
        reader := .announces sessionId
        stale := p.stale.erase sessionId
        begun := p.begun ++ [(sessionId, now)] }
    | _ => p
  | .ends databaseUnavailable =>
    match p.reader with
    | .announces sessionId =>
      let p := { p with reader := .waits }
      if databaseUnavailable then p.wait sessionId else p
    | _ => p

/-! ### What every run keeps -/

/-- Where a terminal that waits may be until it is announced. -/
def tokens (p : Presence) : List Guid := p.later ++ p.changed ++ p.reader.held

/-- Each terminal that waits is in one place, and a stale one waits. The announcements of a terminal are a second apart,
    and the last one is known or a second ago. -/
structure Sound (p : Presence) : Prop where
  once : (p.tokens : Multiset Guid) = p.waiting.val
  kept : p.stale ⊆ p.waiting
  apart : p.begun.Pairwise fun a b => a.1 = b.1 → a.2 + Spacing ≤ b.2
  known : ∀ b ∈ p.begun, b.2 + Spacing ≤ p.now ∨ ∃ at' ∈ p.announced.lookup b.1, b.2 ≤ at'
  took : ∀ {id now}, p.reader = .took id now → now ≤ p.now ∧ ∀ b ∈ p.begun, b.1 = id → b.2 + Spacing ≤ now

variable {p : Presence}

/-- A time is forgotten only when it is a second ago. -/
theorem mem_remember {d : Dictionary Guid Nat} {id x : Guid} {now at' : Nat} (h : at' ∈ (d.insert id now).lookup x) :
    at' + Spacing ≤ now ∨ at' ∈ (remember d id now).lookup x := by
  rw [remember]
  split_ifs
  · by_cases hnow : now - at' < Spacing
    · refine .inr (AList.mem_lookup_iff.mpr (List.mem_filter.mpr ⟨AList.mem_lookup_iff.mp h, ?_⟩))
      exact decide_eq_true hnow
    · exact .inl (by unfold Spacing at *; omega)
  · exact .inr h

theorem Sound.moved (h : p.Sound) {later changed : List Guid} {reader : Reader}
    (htokens : (later ++ changed ++ reader.held).Perm p.tokens) (hreader : reader = p.reader ∨ reader = .waits) :
    Sound { p with later, changed, reader } where
  once := (Multiset.coe_eq_coe.mpr htokens).trans h.once
  kept := h.kept
  apart := h.apart
  known := h.known
  took {id now} htook := by
    rcases hreader with rfl | rfl
    · exact h.took htook
    · cases htook

theorem Sound.wait (h : p.Sound) (id : Guid) : (p.wait id).Sound := by
  unfold Presence.wait
  split_ifs with hid
  · exact { h with kept := Finset.insert_subset hid h.kept }
  · refine { h with once := ?_, kept := Finset.insert_subset_insert id h.kept }
    rw [Finset.insert_val_of_notMem hid, ← h.once]
    rfl

theorem Sound.begins (h : p.Sound) {id : Guid} {now : Nat} (hreader : p.reader = .took id now) :
    (p.step .begins).Sound := by
  obtain ⟨hnow, hspaced⟩ := h.took hreader
  have hheld : (p.tokens : Multiset Guid) = id ::ₘ ↑(p.later ++ p.changed) := by
    rw [tokens, hreader, ← Multiset.coe_add, add_comm]
    rfl
  rw [step, hreader]
  refine ⟨?_, Finset.erase_subset_erase id h.kept, ?_, fun b hb => ?_, fun htook => by cases htook⟩
  · rw [Finset.erase_val, ← h.once, hheld, Multiset.erase_cons_head]
    simp [tokens, Reader.held]
  · refine List.pairwise_append.mpr ⟨h.apart, List.pairwise_singleton _ _, fun a ha b hb hab => ?_⟩
    obtain rfl := List.mem_singleton.mp hb
    exact hspaced a ha hab
  · have hknown : b.2 + Spacing ≤ p.now ∨ ∃ at' ∈ (p.announced.insert id now).lookup b.1, b.2 ≤ at' := by
      rcases List.mem_append.mp hb with hb | hb
      · by_cases hid : b.1 = id
        · exact .inl ((hspaced b hb hid).trans hnow)
        · simpa only [Dictionary.lookup_insert, if_neg hid] using h.known b hb
      · obtain rfl := List.mem_singleton.mp hb
        exact .inr ⟨now, by simp, le_rfl⟩
    rcases hknown with hpast | ⟨at', hat, hle⟩
    · exact .inl hpast
    · rcases mem_remember hat with hpast | hkept
      · exact .inl (by dsimp only; omega)
      · exact .inr ⟨at', hkept, hle⟩

theorem Sound.step (h : p.Sound) (e : Happens) : (p.step e).Sound := by
  cases e with
  | passes ticks =>
    exact { h with
      known := fun b hb => (h.known b hb).imp_left Nat.le_add_right_of_le
      took := fun htook => (h.took htook).imp_left Nat.le_add_right_of_le }
  | change id => exact h.wait id
  | writes id =>
    rw [Presence.step]
    split_ifs with hid
    · refine h.moved (List.perm_iff_count.mpr fun x => ?_) (.inl rfl)
      have := List.perm_iff_count.mp (List.perm_cons_erase hid) x
      simp only [tokens, List.count_append, List.count_cons, List.count_nil] at this ⊢
      omega
    · exact h
  | takes =>
    rw [Presence.step]
    split
    · rename_i id changed hreader hchanged
      have htokens : p.tokens = p.later ++ id :: changed := by simp [tokens, hreader, hchanged, Reader.held]
      split_ifs with hearly
      · exact h.moved (by simp [htokens, hreader, Reader.held, List.perm_middle.symm]) (.inl rfl)
      · refine { h with once := ?_, took := fun htook => ?_ }
        · rw [← h.once, htokens, tokens, List.append_assoc]
          exact Multiset.coe_eq_coe.mpr ((List.perm_append_singleton id changed).append_left _)
        · cases htook
          refine ⟨le_rfl, fun b hb hid => ?_⟩
          rcases h.known b hb with hpast | ⟨at', hat, hle⟩
          · exact hpast
          · rw [hid, Option.mem_def] at hat
            simp only [hat, Option.any_some, decide_eq_true_eq] at hearly
            unfold Spacing at *
            omega
    · exact h
  | begins =>
    cases hreader : p.reader with
    | took => exact h.begins hreader
    | _ => rwa [Presence.step, hreader]
  | ends databaseUnavailable =>
    rw [Presence.step]
    split
    · rename_i id hreader
      have hwaits : Sound { p with reader := .waits } :=
        h.moved (by rw [tokens, hreader]; exact .refl _) (.inr rfl)
      dsimp only
      split_ifs
      · exact hwaits.wait id
      · exact hwaits
    · exact h

/-- In whatever order the threads go on, no change is lost and the announcements of a terminal are a second apart. -/
theorem presence_sound (now : Nat) (es : List Happens) : (es.foldl step (start now)).Sound := by
  have hstart : (start now).Sound :=
    ⟨rfl, Finset.empty_subset _, .nil, fun b hb => absurd hb List.not_mem_nil, fun htook => by cases htook⟩
  exact List.foldlRecOn es step hstart fun _ h e _ => h.step e

end Presence

end Kodosi.TerminalConnections
