import Kodosi.Documents.Client

/-! What one step of a document means for one pipe: who sits there, whom it refuses, and what a client's
    own frame does to the order. -/

namespace Kodosi.Documents
open Kodosi.Lib

/-- The message of a frame that answers a client's join or change, or tells it a change. -/
def Frame.word : Frame ToClient → Option ToClient
  | .message (.joined id name canEdit epoch rev seq peers catchup) =>
    some (.joined id name canEdit epoch rev seq peers catchup)
  | .message (.changed changed) => some (.changed changed)
  | .message (.refused seq reason detail) => some (.refused seq reason detail)
  | _ => none

def words (frames : List (Frame ToClient)) : List ToClient := frames.filterMap Frame.word

theorem words_append (fs gs : List (Frame ToClient)) : words (fs ++ gs) = words fs ++ words gs := by
  simp [words]

theorem words_cons {f : Frame ToClient} {m : ToClient} (h : f.word = some m)
    (rest : List (Frame ToClient)) : words (f :: rest) = m :: words rest :=
  List.filterMap_cons_some h

/-- An effect that refuses a change. -/
def Effect.isRefusal : Effect → Bool
  | .send _ (.message (.refused ..)) _ => true
  | _ => false

/-- Where nobody is refused, the words are the states and the changes. -/
theorem words_heard {es : List Effect} (h : ∀ e ∈ es, e.isRefusal = false) (p : Nat) :
    words (heard p es) = news p es := by
  rw [words, news]
  refine List.filterMap_congr fun f hf => ?_
  obtain ⟨e, he, hef⟩ := List.mem_filterMap.mp hf
  have hno := h e he
  cases e with
  | send pipes frame catchup =>
    simp only [Option.ite_none_right_eq_some, Option.some.injEq] at hef
    obtain ⟨-, rfl⟩ := hef
    cases frame with
    | asset => rfl
    | message m => cases m <;> simp_all [Effect.isRefusal, Frame.word, Frame.news]
  | _ => simp at hef

namespace Document

variable {M C Q : Type} {F : Format M C Q} {W : Wire}

/-! ### Who sits at a pipe -/

/-- Each seat of `d'` was there before, with the same viewer and the same client. -/
def SeatsKeep (d d' : Document M C) : Prop :=
  ∀ (p : Nat) (seat' : Seat), d'.seats[p]? = some seat' →
    ∃ seat, d.seats[p]? = some seat ∧ seat.viewer = seat'.viewer ∧ seat.client = seat'.client

theorem SeatsKeep.refl (d : Document M C) : SeatsKeep d d := fun _ seat h => ⟨seat, h, rfl, rfl⟩

theorem SeatsKeep.trans {d d₁ d₂ : Document M C} (h : SeatsKeep d d₁) (h' : SeatsKeep d₁ d₂) : SeatsKeep d d₂ := by
  intro p seat₂ h₂
  obtain ⟨seat₁, h₁, hviewer₁, hclient₁⟩ := h' p seat₂ h₂
  obtain ⟨seat, h₀, hviewer, hclient⟩ := h p seat₁ h₁
  exact ⟨seat, h₀, hviewer.trans hviewer₁, hclient.trans hclient₁⟩

theorem seatsKeep_unseat (d : Document M C) : ∀ pipes, SeatsKeep d (d.unseat pipes) := by
  intro pipes
  induction pipes generalizing d with
  | nil => exact .refl d
  | cons q pipes ih =>
    refine SeatsKeep.trans ?_ (ih { d with seats := d.seats.erase q })
    intro p seat hp
    simp only [Std.TreeMap.getElem?_erase, Option.ite_none_left_eq_some] at hp
    exact ⟨seat, hp.2, rfl, rfl⟩

/-- A seat that only gets another place keeps its client. -/
theorem seatsKeep_place (d : Document M C) {p : Nat} {seat : Seat} (h : d.seats[p]? = some seat)
    (place : Value) :
    SeatsKeep d { d with seats := d.seats.insert p { seat with place } } := by
  intro q seat' hq
  simp only [Std.TreeMap.getElem?_insert] at hq
  split at hq
  · rename_i hpq
    obtain rfl : p = q := by simpa using hpq
    obtain rfl := Option.some.inj hq
    exact ⟨seat, h, rfl, rfl⟩
  · exact ⟨seat', hq, rfl, rfl⟩

theorem seatsKeep_ordered (d : Document M C) (change : C) (author client : String) (seq : Nat)
    (model : M) (assets : Assets) (seqs : Std.TreeMap String Nat) :
    SeatsKeep d ({ d with model, assets, seqs }.ordered F W change author client seq).1 := by
  intro p seat' hp
  simp only [ordered, Std.TreeMap.getElem?_map, Option.map_eq_some_iff] at hp
  obtain ⟨seat, hseat, rfl⟩ := hp
  exact ⟨seat, hseat, rfl, rfl⟩

theorem seatsKeep_orderAll (writer : String) : ∀ (changes : List C) (d : Document M C),
    SeatsKeep d (orderAll F W writer changes d).1
  | [], d => .refl d
  | c :: changes, d => by
    rw [orderAll]
    rcases F.apply d.model c [] d.assets with ⟨r, model, assets⟩
    cases r with
    | error refused =>
      exact fun p seat h => seatsKeep_orderAll writer changes { d with model, assets } p seat h
    | ok c' =>
      exact (seatsKeep_ordered d c' writer s!"file:{writer}" 0 model assets d.seqs).trans
        (seatsKeep_orderAll writer changes _)

theorem seatsKeep_change (d : Document M C) (pipe seq base : Nat) (body : Value) :
    SeatsKeep d (d.change F W pipe seq base body).1 := by
  unfold change
  split
  · exact .refl d
  split
  · exact .refl d
  dsimp only
  split
  · exact .refl d
  split
  · exact .refl d
  split
  · exact .refl d
  split
  · exact .refl d
  split
  · exact .refl d
  split
  · exact seatsKeep_ordered d _ _ _ _ _ _ _
  · exact fun p seat h => ⟨seat, h, rfl, rfl⟩
  · exact fun p seat h => ⟨seat, h, rfl, rfl⟩

/-- Who sits at a pipe after a step: someone new whose pipe just opened, the client whose join the
    step took, or the client that was there. -/
theorem seat_step (d : Document M C) {i : Input} {p : Nat} {seat' : Seat}
    (h : (d.step F W i).1.seats[p]? = some seat') :
    i = .connected p seat'.viewer ∧ seat'.client = none ∨
    (∃ frame contract client epoch rev seat, i = .message p frame ∧
      decode W frame = some (.message (.join contract client epoch rev)) ∧
      seat'.client = some client ∧ d.seats[p]? = some seat ∧ seat.viewer = seat'.viewer) ∨
    ∃ seat, d.seats[p]? = some seat ∧ seat.viewer = seat'.viewer ∧ seat.client = seat'.client := by
  have hkeep : SeatsKeep d (d.step F W i).1 →
      ∃ seat, d.seats[p]? = some seat ∧ seat.viewer = seat'.viewer ∧ seat.client = seat'.client :=
    fun hk => hk p seat' h
  cases i with
  | connected pipe viewer =>
    simp only [step, Std.TreeMap.getElem?_insert] at h
    split at h
    · rename_i hp
      obtain rfl : pipe = p := by simpa using hp
      obtain rfl := Option.some.inj h
      exact .inl ⟨rfl, rfl⟩
    · exact .inr (.inr ⟨seat', h, rfl, rfl⟩)
  | left pipe =>
    refine .inr (.inr (hkeep ?_))
    simp only [step, leftPipe]
    split
    · exact .refl d
    · split <;> exact seatsKeep_unseat d [pipe]
  | fileChanged file writer =>
    refine .inr (.inr (hkeep ?_))
    simp only [step, fileChanged]
    split
    · exact .refl d
    · rename_i new assets _
      split
      · exact fun p seat h => ⟨seat, h, rfl, rfl⟩
      · exact fun p seat h => seatsKeep_orderAll (F := F) (W := W) writer _ { d with assets } p seat h
  | save file =>
    refine .inr (.inr (hkeep ?_))
    simp only [step, save, saveWaits]
    split
    · exact .refl d
    · split
      · exact .refl d
      · split
        · exact .refl d
        · exact fun p seat h => ⟨seat, h, rfl, rfl⟩
  | saveWaits =>
    refine .inr (.inr (hkeep ?_))
    simp only [step, saveWaits]
    split
    · exact .refl d
    · exact fun p seat h => ⟨seat, h, rfl, rfl⟩
  | saved rev => exact .inr (.inr (hkeep fun p seat h => ⟨seat, h, rfl, rfl⟩))
  | rebased file epoch => exact .inr (.inr (hkeep fun p seat h => ⟨seat, h, rfl, rfl⟩))
  | closing reason => exact .inr (.inr (hkeep (.refl d)))
  | message pipe frame =>
    simp only [step, message] at h hkeep
    split at h
    · exact .inr (.inr ⟨seat', h, rfl, rfl⟩)
    · rename_i hash bytes _
      refine .inr (.inr ⟨seat', ?_, rfl, rfl⟩)
      unfold assetFrame at h
      split at h
      · split at h <;> exact h
      · split at h
        · exact h
        · split at h <;> exact h
    · rename_i m hm
      cases hj : d.hasJoined pipe <;> cases m <;> simp only [hj] at h
      case false.join contract client epoch rev =>
        unfold join at h
        split at h
        · exact .inr (.inr ⟨seat', h, rfl, rfl⟩)
        · dsimp only at h
          split at h
          · exact .inr (.inr (seatsKeep_unseat d _ p seat' h))
          · rename_i seat hseat
            simp only [Std.TreeMap.getElem?_insert] at h
            split at h
            · rename_i hp
              obtain rfl : pipe = p := by simpa using hp
              obtain rfl := Option.some.inj h
              obtain ⟨seat₀, hseat₀, hviewer, -⟩ := seatsKeep_unseat d _ _ seat hseat
              exact .inr (.inl ⟨_, _, _, _, _, _, rfl, hm, rfl, hseat₀, hviewer⟩)
            · exact .inr (.inr (seatsKeep_unseat d _ p seat' h))
      case true.change seq base body =>
        exact .inr (.inr (seatsKeep_change d pipe seq base body p seat' h))
      case true.place rev body =>
        refine .inr (.inr ?_)
        unfold place at h
        split at h
        · exact ⟨seat', h, rfl, rfl⟩
        · dsimp only at h
          split at h
          · exact ⟨seat', h, rfl, rfl⟩
          · rename_i seat hseat
            split at h <;> exact seatsKeep_place d hseat _ p seat' h
      all_goals exact .inr (.inr ⟨seat', h, rfl, rfl⟩)

/-! ### Whom a step refuses -/

theorem isRefusal_ordered (d : Document M C) (change : C) (author client : String) (seq : Nat) :
    ∀ e ∈ (d.ordered F W change author client seq).2, e.isRefusal = false := by
  cases h : F.seals change <;> simp [ordered, h, sendTo, Effect.isRefusal]

theorem isRefusal_orderAll (writer : String) : ∀ (changes : List C) (d : Document M C),
    ∀ e ∈ (orderAll F W writer changes d).2, e.isRefusal = false
  | [], d => by simp [orderAll]
  | c :: changes, d => by
    rw [orderAll]
    rcases F.apply d.model c [] d.assets with ⟨r, model, assets⟩
    cases r with
    | error refused => exact isRefusal_orderAll writer changes _
    | ok c' =>
      intro e he
      rcases List.mem_append.mp he with he | he
      · exact isRefusal_ordered _ _ _ _ _ e he
      · exact isRefusal_orderAll writer changes _ e he

/-- What a change of a seated client comes to. -/
inductive Decided (d : Document M C) (pipe seq : Nat) (out : Document M C × List Effect) : Prop
  /-- The client already has a change with this seq. -/
  | ignored (log : out.1.log = d.log) (effects : out.2 = [])
  | refused {seat : Seat} {client : String} (reason : RefusedReason) (detail : Option String)
      (sits : d.seats[pipe]? = some seat) (joined : seat.client = some client)
      (unseen : seat.viewer.canEdit = true → d.lastSeq client < seq) (log : out.1.log = d.log)
      (effects : out.2 = [refuse pipe seq reason detail])
  | taken {seat : Seat} {client : String} {entry : Ordered C}
      (sits : d.seats[pipe]? = some seat) (joined : seat.client = some client)
      (canEdit : seat.viewer.canEdit = true) (unseen : d.lastSeq client < seq)
      (log : out.1.log = d.log ++ [entry]) (stamped : entry.client = client ∧ entry.seq = seq)
      (effects : ∀ e ∈ out.2, e.isRefusal = false)

theorem change_decided (d : Document M C) (pipe seq base : Nat) (body : Value) :
    Decided d pipe seq (d.change F W pipe seq base body) := by
  unfold change
  split
  · exact .ignored rfl rfl
  rename_i seat hseat
  split
  · exact .ignored rfl rfl
  rename_i client hclient
  dsimp only
  split
  · rename_i hno
    exact .refused _ _ hseat hclient (by simp [hno]) rfl rfl
  rename_i hcan
  split
  · exact .ignored rfl rfl
  rename_i hseq
  have hunseen : d.lastSeq client < seq := by omega
  split
  · exact .refused _ _ hseat hclient (fun _ => hunseen) rfl rfl
  split
  · exact .refused _ _ hseat hclient (fun _ => hunseen) rfl rfl
  split
  · exact .refused _ _ hseat hclient (fun _ => hunseen) rfl rfl
  split
  · exact .taken hseat hclient (by simpa using hcan) hunseen rfl ⟨rfl, rfl⟩
      (isRefusal_ordered _ _ _ _ _)
  · exact .refused _ _ hseat hclient (fun _ => hunseen) rfl rfl
  · exact .refused _ _ hseat hclient (fun _ => hunseen) rfl rfl

/-- Only a change of a joined pipe is refused. -/
theorem isRefusal_step (d : Document M C) (i : Input)
    (hi : ∀ pipe frame seq base body, i = .message pipe frame → d.hasJoined pipe = true →
      decode W frame ≠ some (.message (.change seq base body))) :
    ∀ e ∈ (d.step F W i).2, e.isRefusal = false := by
  cases i with
  | connected | rebased => simp [step, rebased]
  | saved rev => simp [step, saved, sendTo, Effect.isRefusal]
  | closing reason => simp [step, sendTo, Effect.isRefusal]
  | saveWaits =>
    simp only [step, saveWaits]
    split <;> simp [sendTo, Effect.isRefusal]
  | save file =>
    simp only [step, save, saveWaits]
    split
    · simp
    · split
      · simp [Effect.isRefusal]
      · split <;> simp [sendTo, Effect.isRefusal]
  | left pipe =>
    simp only [step, leftPipe]
    split
    · simp
    · split <;> simp [sendTo, Effect.isRefusal]
  | fileChanged file writer =>
    simp only [step, fileChanged]
    split
    · simp
    · split
      · simp
      · intro e he
        rcases List.mem_cons.mp he with rfl | he
        · rfl
        · exact isRefusal_orderAll writer _ _ e he
  | message pipe frame =>
    simp only [step, message]
    split
    · simp [Effect.isRefusal]
    · unfold assetFrame
      split
      · split <;> simp [Effect.isRefusal]
      · split
        · simp [Effect.isRefusal]
        · split <;> simp [Effect.isRefusal]
    · rename_i m hm
      cases hj : d.hasJoined pipe <;> cases m <;> dsimp only
      case true.change => exact absurd hm (hi _ _ _ _ _ rfl hj)
      case false.join =>
        unfold join
        split
        · simp [sendTo, Effect.isRefusal]
        · have hdrops : ∀ e ∈ (d.pipesOf ‹_›).map Effect.drop, e.isRefusal = false := by
            simp [Effect.isRefusal]
          dsimp only
          split
          · exact hdrops
          · intro e he
            rcases List.mem_append.mp he with he | he
            · exact hdrops e he
            · simp only [List.mem_cons, List.not_mem_nil, or_false] at he
              rcases he with rfl | rfl <;> rfl
      case true.place =>
        unfold place
        split
        · simp
        · dsimp only
          split
          · simp
          · split <;> simp [sendTo, Effect.isRefusal]
      case true.query =>
        unfold query
        split <;> simp [sendTo, Effect.isRefusal]
      case true.people => simp [people, sendTo, Effect.isRefusal]
      all_goals simp [Effect.isRefusal]

end Document

end Kodosi.Documents
