import Kodosi.Documents.Answers
import Kodosi.Lib.Checks
import Kodosi.Lib.Purge

/-! What the frames of a viewer that cannot edit do to a document: two runs of one document are set side by side,
    one with these frames and one that is spared them. -/

namespace Kodosi.Documents
open Kodosi.Lib

namespace Document

variable {M C Q : Type} {F : Format M C Q} {W : Wire}

/-! ### Two documents side by side -/

/-- Two sets of seats that agree on the pipes that `keep` picks. -/
def Agree (keep : Nat → Bool) (seats seats' : Std.TreeMap Nat Seat) : Prop :=
  ∀ p, keep p → seats'[p]? = seats[p]?

/-- Two documents that are the same but for the seats of other pipes than those that `keep` picks. -/
def Beside (keep : Nat → Bool) (d e : Document M C) : Prop :=
  ∃ seats, e = { d with seats } ∧ Agree keep d.seats seats

/-- What a step asks for, as the pipes that `keep` picks and the host see it. -/
def seen (keep : Nat → Bool) : Effect → Option Effect
  | .send pipes frame catchup => some (.send (pipes.filter keep) frame catchup)
  | .drop pipe => if keep pipe then some (.drop pipe) else none
  | effect => some effect

/-- The people that an answer of `d` lists. -/
def listed (F : Format M C Q) (d : Document M C) (pipe : Nat) : List Value :=
  (d.seats.toList.filter fun (other, seat) => other ≠ pipe ∧ seat.client.isSome).map fun (_, seat) =>
    Value.object [("name", .string seat.viewer.name), ("place", F.describePlace d.model seat.place)]

/-- Two effects that are the same, apart from the peers that an answer lists: each lists the peers of its own one of
    two documents side by side. -/
inductive Alike (F : Format M C Q) (keep : Nat → Bool) : Effect → Effect → Prop
  | same (effect : Effect) : Alike F keep effect effect
  | joined {d e : Document M C} (h : Beside keep d e) (pipes : List Nat) (id name : String) (canEdit : Bool)
      (epoch rev seq : Nat) (catchup : Catchup) :
      Alike F keep (.send pipes (.message (.joined id name canEdit epoch rev seq d.peers catchup)) true)
        (.send pipes (.message (.joined id name canEdit epoch rev seq e.peers catchup)) true)
  | people {d e : Document M C} (h : Beside keep d e) (pipes : List Nat) (pipe id rev : Nat) :
      Alike F keep (.send pipes (.message (.answer id rev (.array (d.listed F pipe)))) false)
        (.send pipes (.message (.answer id rev (.array (e.listed F pipe)))) false)

/-- Two steps that give documents side by side and effects that are alike. -/
structure Answered (F : Format M C Q) (keep : Nat → Bool) (out out' : Document M C × List Effect) : Prop where
  beside : Beside keep out.1 out'.1
  effects : List.Forall₂ (Alike F keep) (out.2.filterMap (seen keep)) (out'.2.filterMap (seen keep))

section

variable {keep : Nat → Bool} {d e : Document M C} {seats : Std.TreeMap Nat Seat}

theorem Agree.filter_toList (h : Agree keep d.seats seats) :
    seats.toList.filter (fun entry => keep entry.1) = d.seats.toList.filter fun entry => keep entry.1 := by
  have hmem : ∀ seats : Std.TreeMap Nat Seat, ∀ p seat,
      (p, seat) ∈ seats.toList.filter (fun entry => keep entry.1) ↔ seats[p]? = some seat ∧ keep p := by
    intro seats p seat
    rw [List.mem_filter, Std.TreeMap.mem_toList_iff_getElem?_eq_some]
  have hnodup : ∀ seats : Std.TreeMap Nat Seat, (seats.toList.filter fun entry => keep entry.1).Nodup := by
    intro seats
    refine List.Nodup.filter _ (List.Pairwise.imp ?_ seats.distinct_keys_toList)
    rintro a b hne rfl
    exact hne Std.ReflCmp.compare_self
  have hperm : (seats.filter fun p _ => keep p).toList.Perm (d.seats.filter fun p _ => keep p).toList := by
    rw [Std.TreeMap.toList_filter, Std.TreeMap.toList_filter]
    refine (List.perm_ext_iff_of_nodup (hnodup seats) (hnodup d.seats)).mpr ?_
    rintro ⟨p, seat⟩
    rw [hmem, hmem]
    constructor
    · rintro ⟨hp, hkeep⟩
      exact ⟨(h p hkeep) ▸ hp, hkeep⟩
    · rintro ⟨hp, hkeep⟩
      exact ⟨(h p hkeep).trans hp, hkeep⟩
  have hequal := (Std.TreeMap.Equiv.of_toList_perm hperm).toList_eq
  rwa [Std.TreeMap.toList_filter, Std.TreeMap.toList_filter] at hequal

/-- What is picked of the seats, and then of the pipes that `keep` picks, is the same side by side. -/
theorem Agree.filter_pipes (h : Agree keep d.seats seats) (pick : Nat × Seat → Bool) :
    ((seats.toList.filter pick).map (·.1)).filter keep = ((d.seats.toList.filter pick).map (·.1)).filter keep := by
  have hswap : ∀ seats : Std.TreeMap Nat Seat, ((seats.toList.filter pick).map (·.1)).filter keep =
      ((seats.toList.filter fun entry => keep entry.1).filter pick).map (·.1) := by
    intro seats
    rw [List.filter_map, List.filter_filter, List.filter_filter]
    exact congrArg _ (List.filter_congr fun _ _ => Bool.and_comm _ _)
  rw [hswap, hswap, h.filter_toList]

theorem getElem?_unseat (d : Document M C) (p : Nat) : ∀ pipes : List Nat,
    (d.unseat pipes).seats[p]? = if p ∈ pipes then none else d.seats[p]? := by
  intro pipes
  induction pipes generalizing d with
  | nil => rfl
  | cons q pipes ih =>
    rw [show d.unseat (q :: pipes) = { d with seats := d.seats.erase q }.unseat pipes from rfl, ih]
    by_cases hq : p = q
    · simp [hq]
    · simp [Std.TreeMap.getElem?_erase, hq, Ne.symm hq]

theorem Beside.refl (keep : Nat → Bool) (d : Document M C) : Beside keep d d := ⟨d.seats, rfl, fun _ _ => rfl⟩

/-- Steps whose effects are seen the same are answered alike. -/
theorem Answered.of_eq {out out' : Document M C × List Effect} (h : Beside keep out.1 out'.1)
    (heffects : out'.2.filterMap (seen keep) = out.2.filterMap (seen keep)) : Answered F keep out out' := by
  refine ⟨h, ?_⟩
  rw [heffects]
  exact List.forall₂_same.mpr fun _ _ => .same _

theorem Answered.same (h : Beside keep d e) (effects : List Effect) : Answered F keep (d, effects) (e, effects) :=
  .of_eq h rfl

theorem Agree.joinedPipes (h : Agree keep d.seats seats) :
    ({ d with seats }.joinedPipes).filter keep = d.joinedPipes.filter keep :=
  h.filter_pipes _

theorem Agree.others (h : Agree keep d.seats seats) (pipe : Nat) :
    ({ d with seats }.others pipe).filter keep = (d.others pipe).filter keep := by
  have hswap : ∀ pipes : List Nat, (pipes.filter (· ≠ pipe)).filter keep = (pipes.filter keep).filter (· ≠ pipe) := by
    intro pipes
    rw [List.filter_filter, List.filter_filter]
    exact List.filter_congr fun _ _ => Bool.and_comm _ _
  rw [Document.others, Document.others, hswap, hswap, h.joinedPipes]

theorem Agree.pipesOf (h : Agree keep d.seats seats) (client : String) :
    ({ d with seats }.pipesOf client).filter keep = (d.pipesOf client).filter keep :=
  h.filter_pipes _

variable {seats' : Std.TreeMap Nat Seat}

theorem Agree.insert (h : Agree keep seats seats') (pipe : Nat) (seat : Seat) :
    Agree keep (seats.insert pipe seat) (seats'.insert pipe seat) := by
  intro p hp
  rw [Std.TreeMap.getElem?_insert, Std.TreeMap.getElem?_insert, h p hp]

theorem Agree.map (h : Agree keep seats seats') (f : Nat → Seat → Seat) : Agree keep (seats.map f) (seats'.map f) := by
  intro p hp
  rw [Std.TreeMap.getElem?_map, Std.TreeMap.getElem?_map, h p hp]

/-- Where the picked pipes among those that lose their seats are the same, the rest agrees. -/
theorem Beside.unseat {pipes pipes' : List Nat} (h : Beside keep d e) (hsame : pipes'.filter keep = pipes.filter keep) :
    Beside keep (d.unseat pipes) (e.unseat pipes') := by
  obtain ⟨seats, rfl, hagree⟩ := h
  refine ⟨_, rfl, fun p hp => ?_⟩
  have hmem : p ∈ pipes' ↔ p ∈ pipes := by
    have hboth : p ∈ pipes'.filter keep ↔ p ∈ pipes.filter keep := by rw [hsame]
    simpa only [List.mem_filter, hp, and_true] using hboth
  have hspared : ({ d with seats }.unseat pipes').seats[p]? = if p ∈ pipes' then none else seats[p]? :=
    getElem?_unseat _ p pipes'
  refine hspared.trans ?_
  rw [getElem?_unseat, hagree p hp]
  simp only [hmem]

/-! ### What each input is answered -/

theorem answered_ordered (h : Agree keep d.seats seats) (change : C) (author client : String) (seq : Nat) :
    Answered F keep (d.ordered F W change author client seq) ({ d with seats }.ordered F W change author client seq) := by
  refine .of_eq ⟨_, rfl, h.map _⟩ ?_
  have hmoved : Agree keep (d.ordered F W change author client seq).1.seats
      ({ d with seats }.ordered F W change author client seq).1.seats := h.map _
  have hpipes := hmoved.joinedPipes
  simp only [ordered, List.filterMap_append, List.filterMap_cons, List.filterMap_nil, seen, sendTo] at hpipes ⊢
  rw [hpipes]

theorem answered_saveWaits (h : Agree keep d.seats seats) : Answered F keep d.saveWaits { d with seats }.saveWaits := by
  unfold saveWaits
  dsimp only
  split
  · exact .same ⟨_, rfl, h⟩ _
  · refine .of_eq ⟨_, rfl, h⟩ ?_
    have hpipes := h.joinedPipes
    simp only [List.filterMap_cons, List.filterMap_nil, seen, sendTo, hpipes]

theorem answered_save (h : Agree keep d.seats seats) (file : Bytes) :
    Answered F keep (d.save F file) ({ d with seats }.save F file) := by
  unfold save
  dsimp only
  split
  · exact .same ⟨_, rfl, h⟩ _
  · split
    · exact .same ⟨_, rfl, h⟩ _
    · exact answered_saveWaits h

theorem answered_saved (h : Agree keep d.seats seats) (rev : Nat) :
    Answered F keep (d.saved rev) ({ d with seats }.saved rev) := by
  refine .of_eq ⟨_, rfl, h⟩ ?_
  have hpipes := h.joinedPipes
  simp only [saved, List.filterMap_cons, List.filterMap_nil, seen, sendTo]
  exact congrArg (fun pipes => [Effect.send pipes _ _]) hpipes

variable {pipe : Nat}

theorem answered_change (h : Agree keep d.seats seats) (hpipe : keep pipe) (seq base : Nat) (body : Value) :
    Answered F keep (d.change F W pipe seq base body) ({ d with seats }.change F W pipe seq base body) := by
  have hseat := h pipe hpipe
  unfold change
  dsimp only
  rw [hseat]
  split
  · exact .same ⟨_, rfl, h⟩ _
  · rename_i seat _
    cases seat.client with
    | none => exact .same ⟨_, rfl, h⟩ _
    | some client =>
      dsimp only
      by_cases hedit : seat.viewer.canEdit = false
      · rw [if_pos hedit, if_pos hedit]
        exact .same ⟨_, rfl, h⟩ _
      · have hlast : { d with seats }.lastSeq client = d.lastSeq client := rfl
        rw [if_neg hedit, if_neg hedit, hlast]
        by_cases hseq : seq ≤ d.lastSeq client
        · rw [if_pos hseq, if_pos hseq]
          exact .same ⟨_, rfl, h⟩ _
        · rw [if_neg hseq, if_neg hseq]
          cases F.fromValue body with
          | error error => exact .same ⟨_, rfl, h⟩ _
          | ok change =>
            dsimp only
            by_cases hbase : d.rev < base
            · rw [if_pos hbase, if_pos hbase]
              exact .same ⟨_, rfl, h⟩ _
            · rw [if_neg hbase, if_neg hbase]
              have hlog : { d with seats }.logSince base = d.logSince base := rfl
              rw [hlog]
              cases d.logSince base with
              | none => exact .same ⟨_, rfl, h⟩ _
              | some since =>
                dsimp only
                rcases F.apply d.model change since d.assets with ⟨_ | change', model, assets⟩
                · rename_i refused
                  cases refused <;> exact Answered.same (d := { d with model, assets }) ⟨seats, rfl, h⟩ _
                · exact answered_ordered (d := { d with model, assets, seqs := d.seqs.insert client seq }) h change'
                    seat.viewer.name client seq

theorem answered_place (h : Agree keep d.seats seats) (hpipe : keep pipe) (rev : Nat) (body : Value) :
    Answered F keep (d.place F pipe rev body) ({ d with seats }.place F pipe rev body) := by
  have hseat := h pipe hpipe
  have hpipes := h.others pipe
  have hlog : { d with seats }.logSince rev = d.logSince rev := rfl
  unfold place
  rw [hlog]
  cases d.logSince rev with
  | none => exact .same ⟨_, rfl, h⟩ _
  | some since =>
    dsimp only
    rw [hseat]
    split
    · exact .same ⟨_, rfl, h⟩ _
    · rename_i seat _
      split
      · exact .same ⟨_, rfl, h.insert pipe _⟩ _
      · refine .of_eq ⟨_, rfl, h.insert pipe _⟩ ?_
        simp only [List.filterMap_cons, List.filterMap_nil, seen, sendTo]
        rw [hpipes]

theorem answered_query (h : Agree keep d.seats seats) (pipe id : Nat) (body : Value) :
    Answered F keep (d, d.query F pipe id body) ({ d with seats }, { d with seats }.query F pipe id body) :=
  .same ⟨_, rfl, h⟩ _

theorem answered_people (h : Agree keep d.seats seats) (pipe id : Nat) :
    Answered F keep (d, d.people F pipe id) ({ d with seats }, { d with seats }.people F pipe id) := by
  have hbeside : Beside keep d { d with seats } := ⟨_, rfl, h⟩
  exact ⟨hbeside, .cons (.people hbeside _ pipe id d.rev) .nil⟩

theorem answered_assetFrame (h : Agree keep d.seats seats) (pipe : Nat) (hash : Hash) (bytes : Bytes) :
    Answered F keep (d.assetFrame F pipe hash bytes) ({ d with seats }.assetFrame F pipe hash bytes) := by
  unfold assetFrame
  dsimp only
  split
  · split
    · exact .same ⟨_, rfl, h⟩ _
    · exact .same ⟨_, rfl, h⟩ _
  · split
    · exact .same ⟨_, rfl, h⟩ _
    · split
      · rename_i assets _
        exact Answered.same (d := { d with assets }) ⟨seats, rfl, h⟩ _
      · rename_i assets _
        exact Answered.same (d := { d with assets }) ⟨seats, rfl, h⟩ _

theorem seen_drops (pipes : List Nat) :
    (pipes.map Effect.drop).filterMap (seen keep) = (pipes.filter keep).map Effect.drop := by
  induction pipes with
  | nil => rfl
  | cons pipe pipes ih =>
    rw [List.map_cons, List.filterMap_cons, ih]
    by_cases hpipe : keep pipe
    · rw [List.filter_cons_of_pos hpipe]
      simp only [seen, if_pos hpipe, List.map_cons]
    · rw [List.filter_cons_of_neg hpipe]
      simp only [seen, if_neg hpipe]

theorem answered_join (h : Agree keep d.seats seats) (hpipe : keep pipe) (contract : Nat) (client : String)
    (epoch rev : Nat) :
    Answered F keep (d.join F pipe contract client epoch rev) ({ d with seats }.join F pipe contract client epoch rev) := by
  have hgone := h.pipesOf client
  obtain ⟨left, hleft, hagree⟩ : Beside keep (d.unseat (d.pipesOf client))
      ({ d with seats }.unseat ({ d with seats }.pipesOf client)) :=
    Beside.unseat ⟨_, rfl, h⟩ hgone
  unfold join
  by_cases hcontract : contract ≠ CONTRACT
  · rw [if_pos hcontract, if_pos hcontract]
    exact .same ⟨_, rfl, h⟩ _
  · rw [if_neg hcontract, if_neg hcontract]
    dsimp only
    rw [hleft]
    dsimp only
    rw [hagree pipe hpipe]
    split
    · refine .of_eq ⟨_, rfl, hagree⟩ ?_
      rw [seen_drops, seen_drops, hgone]
    · rename_i seat _
      have hseated := hagree.insert pipe { seat with client := some client }
      have hothers := Agree.others (d := { d.unseat (d.pipesOf client) with
        seats := (d.unseat (d.pipesOf client)).seats.insert pipe { seat with client := some client } }) hseated pipe
      refine ⟨⟨_, rfl, hseated⟩, ?_⟩
      simp only [List.filterMap_append, seen_drops, hgone]
      refine List.rel_append (List.forall₂_same.mpr fun _ _ => .same _) ?_
      simp only [List.filterMap_cons, List.filterMap_nil, seen, sendTo]
      refine .cons ?_ (.cons ?_ .nil)
      · exact .joined (d := d.unseat (d.pipesOf client)) ⟨_, rfl, hagree⟩ ..
      · rw [hothers]
        exact .same _

theorem answered_message (h : Agree keep d.seats seats) (hpipe : keep pipe) (frame : Bytes) :
    Answered F keep (d.message F W pipe frame) ({ d with seats }.message F W pipe frame) := by
  have hjoined : { d with seats }.hasJoined pipe = d.hasJoined pipe := by
    unfold hasJoined
    dsimp only
    rw [h pipe hpipe]
  unfold message
  cases decode W frame with
  | none => exact .same ⟨_, rfl, h⟩ _
  | some decoded =>
    cases decoded with
    | asset hash bytes => exact answered_assetFrame h pipe hash bytes
    | message m =>
      dsimp only
      rw [hjoined]
      cases m with
      | join contract client epoch rev =>
        cases d.hasJoined pipe with
        | false => exact answered_join h hpipe contract client epoch rev
        | true => exact .same ⟨_, rfl, h⟩ _
      | change seq base body =>
        cases d.hasJoined pipe with
        | false => exact .same ⟨_, rfl, h⟩ _
        | true => exact answered_change h hpipe seq base body
      | place rev body =>
        cases d.hasJoined pipe with
        | false => exact .same ⟨_, rfl, h⟩ _
        | true => exact answered_place h hpipe rev body
      | query id body =>
        cases d.hasJoined pipe with
        | false => exact .same ⟨_, rfl, h⟩ _
        | true => exact answered_query h pipe id body
      | people id =>
        cases d.hasJoined pipe with
        | false => exact .same ⟨_, rfl, h⟩ _
        | true => exact answered_people h pipe id

theorem answered_left (h : Agree keep d.seats seats) (hpipe : keep pipe) :
    Answered F keep (d.leftPipe pipe) ({ d with seats }.leftPipe pipe) := by
  obtain ⟨rest, hrest, hagree⟩ : Beside keep (d.unseat [pipe]) ({ d with seats }.unseat [pipe]) :=
    Beside.unseat ⟨_, rfl, h⟩ rfl
  have hpipes := hagree.joinedPipes
  unfold leftPipe
  dsimp only
  rw [h pipe hpipe, hrest]
  split
  · exact .same ⟨_, rfl, h⟩ _
  · rename_i seat _
    cases seat.client with
    | none => exact .same ⟨_, rfl, hagree⟩ _
    | some id =>
      refine .of_eq ⟨_, rfl, hagree⟩ ?_
      simp only [List.filterMap_cons, List.filterMap_nil, seen, sendTo, hpipes]

theorem answered_orderAll (writer : String) : ∀ (changes : List C) (d : Document M C)
    (seats : Std.TreeMap Nat Seat), Agree keep d.seats seats →
    Answered F keep (orderAll F W writer changes d) (orderAll F W writer changes { d with seats })
  | [], d, seats, h => .same ⟨seats, rfl, h⟩ _
  | c :: changes, d, seats, h => by
    rw [orderAll, orderAll]
    dsimp only
    rcases F.apply d.model c [] d.assets with ⟨_ | c', model, assets⟩
    · exact answered_orderAll writer changes { d with model, assets } seats h
    · obtain ⟨⟨seats', heq, hagree⟩, heffects⟩ := answered_ordered (F := F) (W := W)
        (d := { d with model, assets }) h c' writer s!"file:{writer}" 0
      have hrest := answered_orderAll writer changes _ seats' hagree
      dsimp only at heq ⊢
      rw [heq]
      refine ⟨hrest.beside, ?_⟩
      rw [List.filterMap_append, List.filterMap_append]
      exact List.rel_append heffects hrest.effects

theorem answered_fileChanged (h : Agree keep d.seats seats) (file : Bytes) (writer : String) :
    Answered F keep (d.fileChanged F W file writer) ({ d with seats }.fileChanged F W file writer) := by
  unfold fileChanged
  dsimp only
  cases F.read file d.assets with
  | error _ => exact .same ⟨_, rfl, h⟩ _
  | ok new =>
    obtain ⟨new, assets⟩ := new
    dsimp only
    have hnearest : ({ d with assets, seats }).nearestChanges F new = ({ d with assets }).nearestChanges F new := rfl
    rw [hnearest]
    cases ({ d with assets }).nearestChanges F new with
    | none => exact Answered.same (d := { d with assets }) ⟨seats, rfl, h⟩ _
    | some changes =>
      have hall := answered_orderAll (F := F) (W := W) writer changes { d with assets } seats h
      refine ⟨hall.beside, ?_⟩
      exact .cons (.same _) hall.effects

/-- The inputs that are not of the pipes that `keep` leaves out. -/
def Kept (keep : Nat → Bool) : Input → Prop
  | .message pipe _ => keep pipe
  | .left pipe => keep pipe
  | _ => True

/-- Side by side, every other input is answered alike. -/
theorem answered_step (h : Beside keep d e) {i : Input} (hi : Kept keep i) :
    Answered F keep (d.step F W i) (e.step F W i) := by
  obtain ⟨seats, rfl, hagree⟩ := h
  cases i with
  | connected pipe viewer => exact .same ⟨_, rfl, hagree.insert pipe _⟩ _
  | message pipe frame => exact answered_message hagree hi frame
  | left pipe => exact answered_left hagree hi
  | fileChanged file writer => exact answered_fileChanged hagree file writer
  | save file => exact answered_save hagree file
  | saved rev => exact answered_saved hagree rev
  | saveWaits => exact answered_saveWaits hagree
  | rebased file epoch => exact Answered.same (d := (d.rebased file epoch).1) ⟨seats, rfl, hagree⟩ _
  | closing reason =>
    refine .of_eq ⟨seats, rfl, hagree⟩ ?_
    have hkeys : ∀ seats : Std.TreeMap Nat Seat,
        seats.keys.filter keep = (seats.toList.filter fun entry => keep entry.1).map (·.1) := by
      intro seats
      rw [← Std.TreeMap.map_fst_toList_eq_keys, List.filter_map]
      rfl
    simp only [step, List.filterMap_cons, List.filterMap_nil, seen, sendTo, hkeys, hagree.filter_toList]

end

/-! ### A viewer that cannot edit -/

/-- A document after one input, and after all inputs of a run. -/
def next (F : Format M C Q) (W : Wire) (d : Document M C) (i : Input) : Document M C := (d.step F W i).1

def stepAll (F : Format M C Q) (W : Wire) (d : Document M C) (inputs : List Input) : Document M C :=
  inputs.foldl (next F W) d

/-- The two documents differ at most in their seats. -/
def Unchanged (d d' : Document M C) : Prop := ∃ seats, d' = { d with seats }

/-- A frame that brings an asset which the document does not hold yet, and has room for. -/
def BringsAsset (F : Format M C Q) (W : Wire) (d : Document M C) (frame : Bytes) : Prop :=
  ∃ hash bytes, decode W frame = some (.asset hash bytes) ∧ bytes ≠ [] ∧
    d.assets.bytes + bytes.length ≤ MOST_ASSET_BYTES ∧ F.sha256 bytes = hash ∧ d.assets.get hash = none

/-- The pipes of the same client that a frame's join replaces. -/
def replaced (W : Wire) (d : Document M C) (pipe : Nat) (frame : Bytes) : List Nat :=
  match decode W frame with
  | some (.message (.join contract client _ _)) =>
    if d.hasJoined pipe = false ∧ contract = CONTRACT then d.pipesOf client else []
  | _ => []

section

variable (viewers : Nat → Viewer)

/-- Whether the viewer of a pipe can edit. -/
def edits (pipe : Nat) : Bool := (viewers pipe).canEdit

/-- Each pipe has the viewer that the host gave it. -/
def Seated (d : Document M C) : Prop := ∀ p seat, d.seats[p]? = some seat → seat.viewer = viewers p

/-- A pipe is only opened for its viewer. -/
def Fits (i : Input) : Prop := ∀ pipe viewer, i = .connected pipe viewer → viewer = viewers pipe

/-- An input that is no frame with a new asset from a viewer that cannot edit. -/
def Harmless (F : Format M C Q) (W : Wire) (d : Document M C) (i : Input) : Prop :=
  ∀ pipe frame, i = .message pipe frame → edits viewers pipe = false → ¬d.BringsAsset F W frame

/-- The frames of viewers that cannot edit are left out; of their joins only this is left, that the pipes which they
    replace go. -/
def spareReaders (W : Wire) (d : Document M C) : Input → List Input
  | .message pipe frame =>
    if edits viewers pipe then [.message pipe frame]
    else ((d.replaced W pipe frame).filter (edits viewers)).map .left
  | i => [i]

end

section

variable {viewers : Nat → Viewer} {keep : Nat → Bool} {d e : Document M C}

theorem Beside.symm (h : Beside keep d e) : Beside keep e d := by
  obtain ⟨seats, rfl, hagree⟩ := h
  exact ⟨d.seats, rfl, fun p hp => (hagree p hp).symm⟩

theorem Beside.trans {e' : Document M C} (h : Beside keep d e) (h' : Beside keep e e') : Beside keep d e' := by
  obtain ⟨seats, rfl, hagree⟩ := h
  obtain ⟨seats', rfl, hagree'⟩ := h'
  exact ⟨seats', rfl, fun p hp => (hagree' p hp).trans (hagree p hp)⟩

theorem beside_left (keep : Nat → Bool) (e : Document M C) (pipe : Nat) :
    Beside keep (e.unseat [pipe]) (e.leftPipe pipe).1 := by
  unfold leftPipe
  split
  · rename_i hnone
    refine ⟨e.seats, rfl, fun p _ => ?_⟩
    rw [getElem?_unseat]
    by_cases hp : p ∈ [pipe]
    · rw [if_pos hp, List.mem_singleton.mp hp, hnone]
    · rw [if_neg hp]
  · dsimp only
    split
    · exact Beside.refl _ _
    · exact Beside.refl _ _

/-- Pipes that leave one after the other lose their seats. -/
theorem beside_lefts (keep : Nat → Bool) (pipes : List Nat) (e : Document M C) :
    Beside keep (e.unseat pipes) (stepAll F W e (pipes.map .left)) := by
  induction pipes generalizing e with
  | nil => exact Beside.refl _ e
  | cons pipe pipes ih =>
    have hone : Beside keep ((e.unseat [pipe]).unseat pipes) ((e.leftPipe pipe).1.unseat pipes) :=
      (beside_left keep e pipe).unseat rfl
    exact hone.trans (ih (e.leftPipe pipe).1)

variable {pipe : Nat}

/-- A seat that `keep` leaves out may change. -/
theorem agree_insert (seats : Std.TreeMap Nat Seat) (hpipe : keep pipe = false) (seat : Seat) :
    Agree keep seats (seats.insert pipe seat) := by
  intro p hp
  have hne : pipe ≠ p := by
    rintro rfl
    rw [hpipe] at hp
    cases hp
  rw [Std.TreeMap.getElem?_insert, if_neg (by simpa using hne)]

/-- What a join of a viewer that is left out does: the pipes of its client go, and its own seat changes. -/
theorem join_unchanged (d : Document M C) (hpipe : keep pipe = false) (client : String) (epoch rev : Nat) :
    ∃ seats, (d.join F pipe CONTRACT client epoch rev).1 = { d with seats } ∧
      Agree keep (d.unseat (d.pipesOf client)).seats seats := by
  unfold join
  rw [if_neg (not_not.mpr rfl)]
  dsimp only
  split
  · exact ⟨_, rfl, fun _ _ => rfl⟩
  · exact ⟨_, rfl, agree_insert _ hpipe _⟩

theorem place_unchanged (d : Document M C) (hpipe : keep pipe = false) (rev : Nat) (body : Value) :
    ∃ seats, (d.place F pipe rev body).1 = { d with seats } ∧ Agree keep d.seats seats := by
  unfold place
  split
  · exact ⟨d.seats, rfl, fun _ _ => rfl⟩
  · dsimp only
    split
    · exact ⟨d.seats, rfl, fun _ _ => rfl⟩
    · split
      · exact ⟨_, rfl, agree_insert _ hpipe _⟩
      · exact ⟨_, rfl, agree_insert _ hpipe _⟩

/-- A change of a viewer that cannot edit is refused. -/
theorem change_refused (hseated : Seated viewers d) (hpipe : edits viewers pipe = false) (seq base : Nat) (body : Value) :
    (d.change F W pipe seq base body).1 = d := by
  unfold change
  split
  · rfl
  · rename_i seat hseat
    have hread : seat.viewer.canEdit = false := by rw [hseated pipe seat hseat, ← hpipe, edits]
    split
    · rfl
    · rw [if_pos hread]

/-- An asset frame changes only the assets that are held, and these only with a new asset. -/
theorem assetFrame_unchanged {frame : Bytes} {hash : Hash} {bytes : Bytes}
    (hdecode : decode W frame = some (.asset hash bytes)) (hno : ¬d.BringsAsset F W frame) :
    (d.assetFrame F pipe hash bytes).1 = d := by
  unfold assetFrame
  split
  · split <;> rfl
  · rename_i hbytes
    split
    · rfl
    · rename_i hroom
      have htake : (d.assets.take F.sha256 hash bytes).1 = d.assets := by
        unfold Assets.take
        split
        · rename_i hhash
          cases hheld : d.assets.get hash with
          | some _ => rfl
          | none => exact absurd ⟨hash, bytes, hdecode, hbytes, by omega, hhash, hheld⟩ hno
        · rfl
      split
      · rename_i assets heq
        rw [heq] at htake
        exact congrArg (fun assets => { d with assets }) htake
      · rename_i assets heq
        rw [heq] at htake
        exact congrArg (fun assets => { d with assets }) htake

/-- What a frame of a viewer that cannot edit does, when it brings no new asset: the pipes that its join replaces go,
    and its own seat may change. -/
theorem reader_message (hseated : Seated viewers d) (hpipe : edits viewers pipe = false) {frame : Bytes}
    (hno : ¬d.BringsAsset F W frame) :
    ∃ seats, (d.message F W pipe frame).1 = { d with seats } ∧
      Agree (edits viewers) (d.unseat (d.replaced W pipe frame)).seats seats := by
  have hsame : ∃ seats, d = { d with seats } ∧ Agree (edits viewers) d.seats seats :=
    ⟨d.seats, rfl, fun _ _ => rfl⟩
  unfold message replaced
  cases hdecode : decode W frame with
  | none => exact hsame
  | some decoded =>
    cases decoded with
    | asset hash bytes =>
      dsimp only
      rw [assetFrame_unchanged hdecode hno]
      exact hsame
    | message m =>
      dsimp only
      cases m with
      | join contract client epoch rev =>
        cases hjoined : d.hasJoined pipe with
        | true => exact hsame
        | false =>
          dsimp only
          by_cases hcontract : contract = CONTRACT
          · rw [if_pos ⟨rfl, hcontract⟩, hcontract]
            exact join_unchanged d hpipe client epoch rev
          · rw [if_neg fun h => hcontract h.2, join, if_pos hcontract]
            exact hsame
      | change seq base body =>
        cases d.hasJoined pipe with
        | false => exact hsame
        | true =>
          dsimp only
          rw [change_refused hseated hpipe]
          exact hsame
      | place rev body =>
        cases d.hasJoined pipe with
        | false => exact hsame
        | true => exact place_unchanged d hpipe rev body
      | query id body => cases d.hasJoined pipe <;> exact hsame
      | people id => cases d.hasJoined pipe <;> exact hsame

/-- A frame of a viewer that cannot edit leaves the document as it is exactly when it brings no new asset. -/
theorem reader_unchanged_iff (hseated : Seated viewers d) (hpipe : edits viewers pipe = false) (frame : Bytes) :
    Unchanged d (d.message F W pipe frame).1 ↔ ¬d.BringsAsset F W frame := by
  constructor
  · rintro ⟨seats, hunchanged⟩ ⟨hash, bytes, hdecode, hbytes, hroom, hhash, hheld⟩
    have hassets : (d.message F W pipe frame).1.assets = ⟨(hash, bytes) :: d.assets.held⟩ := by
      unfold message assetFrame Assets.take
      simp only [hdecode, if_neg hbytes, if_neg (Nat.not_lt.mpr hroom), if_pos hhash, hheld]
    rw [hunchanged] at hassets
    have hlength := congrArg (fun assets : Assets => assets.held.length) hassets
    simp at hlength
  · intro hno
    obtain ⟨seats, hunchanged, -⟩ := reader_message (F := F) (W := W) hseated hpipe hno
    exact ⟨seats, hunchanged⟩

theorem Seated.next (h : Seated viewers d) {i : Input} (hi : Fits viewers i) : Seated viewers (d.next F W i) := by
  intro p seat hseat
  rcases seat_step d hseat with ⟨hopened, -⟩ | ⟨_, _, _, _, _, seat', -, -, -, hseat', hviewer⟩ |
    ⟨seat', hseat', hviewer, -⟩
  · exact hi p _ hopened
  · rw [← hviewer]
    exact h p seat' hseat'
  · rw [← hviewer]
    exact h p seat' hseat'

/-- One input, and what the spared document gets of it, leave the two side by side. -/
theorem beside_next (hseated : Seated viewers d) (h : Beside (edits viewers) d e) {i : Input}
    (hi : Harmless viewers F W d i) :
    Beside (edits viewers) (d.next F W i) (stepAll F W e (spareReaders viewers W d i)) := by
  have hkept : Kept (edits viewers) i → spareReaders viewers W d i = [i] →
      Beside (edits viewers) (d.next F W i) (stepAll F W e (spareReaders viewers W d i)) := by
    intro hkeeps hspared
    rw [hspared]
    exact (answered_step (F := F) (W := W) h hkeeps).beside
  cases i with
  | message pipe frame =>
    cases hpipe : edits viewers pipe with
    | true => exact hkept hpipe (by rw [spareReaders, if_pos hpipe])
    | false =>
      obtain ⟨seats, hnext, hagree⟩ := reader_message (F := F) hseated hpipe (hi pipe frame rfl hpipe)
      have hspared : spareReaders viewers W d (.message pipe frame) =
          ((d.replaced W pipe frame).filter (edits viewers)).map .left := by
        rw [spareReaders, if_neg (by simp [hpipe])]
      have hgone : Beside (edits viewers) (d.unseat (d.replaced W pipe frame)) (d.next F W (.message pipe frame)) :=
        ⟨seats, hnext, hagree⟩
      have hsame : ((d.replaced W pipe frame).filter (edits viewers)).filter (edits viewers) =
          (d.replaced W pipe frame).filter (edits viewers) := by
        rw [List.filter_filter]
        exact List.filter_congr fun _ _ => Bool.and_self _
      rw [hspared]
      exact (hgone.symm.trans (h.unseat hsame)).trans (beside_lefts _ _ e)
  | left pipe =>
    have hleft : Beside (edits viewers) (d.unseat [pipe]) (e.unseat [pipe]) := h.unseat rfl
    exact ((beside_left _ d pipe).symm.trans hleft).trans (beside_left _ e pipe)
  | _ => exact hkept trivial rfl

theorem seats_replay {changed : Changed} {d' : Document M C} (h : d.replay F changed = .ok d') : d'.seats = d.seats := by
  unfold replay at h
  split at h
  · cases h
  · split at h
    · cases h
    · exact (Except.ok.inj h) ▸ rfl

/-- A document that was just opened, or built again from its journal. -/
inductive Opened (F : Format M C Q) (W : Wire) : Document M C → Prop
  | opened {file : Bytes} {epoch : Nat} {assets : Assets} {d : Document M C} (h : openFile F file epoch assets = .ok d) :
      Opened F W d
  | restored {original : Bytes} {restored : Restored} {records : List Bytes} {assets : Assets} {d : Document M C}
      (h : restore F W original restored records assets = .ok d) : Opened F W d

theorem Opened.seats (h : Opened F W d) : d.seats = ∅ := by
  have hopen : ∀ {file : Bytes} {epoch : Nat} {assets : Assets} {d : Document M C},
      openFile F file epoch assets = .ok d → d.seats = ∅ := by
    intro file epoch assets d h
    obtain ⟨_, -, h⟩ := bind_ok h
    exact (Except.ok.inj h) ▸ rfl
  cases h with
  | opened h => exact hopen h
  | restored h =>
    obtain ⟨start, hstart, h⟩ := bind_ok h
    refine foldlM_ok (I := fun _ d => d.seats = ∅) (d := []) (fun hseats hstep => ?_) (hopen hstart) h
    unfold replayRecord at hstep
    split at hstep
    · cases hstep
    · exact (seats_replay hstep).trans hseats

/-- A viewer that cannot edit changes nothing: as long as none of its frames brings a new asset, each of them leaves
    all of the document but the seats as it is, and every later input of the others is answered as in the run that
    is spared these frames, apart from the peers that an answer lists. -/
theorem read_only {start : Document M C} (hopened : Opened F W start) {before after : List Input}
    (hbefore : AllAllowed (next F W) (fun _ i => Fits viewers i) start before)
    (hafter : AllAllowed (next F W) (fun d i => Fits viewers i ∧ Harmless viewers F W d i)
      (stepAll F W start before) after) :
    let reached := stepAll F W start before
    let full := stepAll F W reached after
    let spared := stepAll F W reached (purge (next F W) (spareReaders viewers W) reached after)
    Beside (edits viewers) full spared ∧
      (∀ i, Kept (edits viewers) i → Answered F (edits viewers) (full.step F W i) (spared.step F W i)) ∧
      ∀ pipe frame, edits viewers pipe = false →
        (Unchanged full (full.step F W (.message pipe frame)).1 ↔ ¬full.BringsAsset F W frame) := by
  intro reached full spared
  have hstart : Seated viewers start := by
    intro p seat hseat
    rw [hopened.seats] at hseat
    simp at hseat
  have hreached : Seated viewers reached :=
    hbefore.invariant (I := Seated viewers) (fun hseated hfits => hseated.next hfits) hstart
  have halike : Seated viewers full ∧ Beside (edits viewers) full spared :=
    purge_alike (R := fun d e => Seated viewers d ∧ Beside (edits viewers) d e)
      (fun h hi => ⟨h.1.next hi.1, beside_next h.1 h.2 hi.2⟩) ⟨hreached, Beside.refl _ _⟩ hafter
  exact ⟨halike.2, fun i hi => answered_step halike.2 hi, fun pipe frame hpipe =>
    reader_unchanged_iff halike.1 hpipe frame⟩

end

end Document

/-! ### A viewer that only reads -/

namespace Tally

/-- Pipe 1 is of someone who only reads. -/
def viewers (pipe : Nat) : Viewer := ⟨"p", "Ana", pipe ≠ 1⟩

def fresh : Document Nat Nat := ⟨1, ⟨[]⟩, [0], 7, 0, 0, [], ∅, ∅, 0, [0], false⟩

theorem opened_fresh : Document.Opened format wire fresh := by
  have hopen : Document.openFile format [0] 7 ⟨[]⟩ = .ok fresh := rfl
  exact .opened hopen

def picture : Bytes := List.replicate 32 5

/-- The reader opens a pipe, joins and sends a change. -/
def reads : List Input :=
  [.connected 1 (viewers 1), .connected 2 (viewers 2), .message 1 [JSON_FRAME, 0, 0, 0], .message 1 [JSON_FRAME, 1, 1, 0, 3]]

theorem reader_reads : Document.Beside (Document.edits viewers) (Document.stepAll format wire fresh reads)
    (Document.stepAll format wire fresh (purge (Document.next format wire) (Document.spareReaders viewers wire) fresh reads)) := by
  have hharmless : ∀ (d : Document Nat Nat) (pipe : Nat) (frame : Bytes) (m : ToDocument),
      decode wire frame = some (.message m) → Document.Harmless viewers format wire d (.message pipe frame) := by
    rintro d pipe frame m hm pipe' frame' hframe - ⟨hash, bytes, hasset, -⟩
    obtain ⟨rfl, rfl⟩ := Input.message.inj hframe
    rw [hm] at hasset
    cases hasset
  have hopens : ∀ (d : Document Nat Nat) (pipe : Nat), Document.Fits viewers (.connected pipe (viewers pipe)) ∧
      Document.Harmless viewers format wire d (.connected pipe (viewers pipe)) := by
    refine fun d pipe => ⟨fun pipe' viewer h => ?_, nofun⟩
    obtain ⟨rfl, rfl⟩ := Input.connected.inj h
    rfl
  have hbefore : AllAllowed (Document.next format wire) (fun _ i => Document.Fits viewers i) fresh [] := trivial
  have hafter : AllAllowed (Document.next format wire)
      (fun d i => Document.Fits viewers i ∧ Document.Harmless viewers format wire d i) fresh reads :=
    ⟨hopens _ 1, hopens _ 2, ⟨nofun, hharmless _ _ _ _ rfl⟩, ⟨nofun, hharmless _ _ _ _ rfl⟩, trivial⟩
  exact (Document.read_only opened_fresh hbefore hafter).1

/-- The reader sends a picture: the document holds it from then on, and an editor who asks for it gets it. -/
theorem reader_brings :
    let brought := Document.stepAll format wire fresh [.message 1 (ASSET_FRAME :: picture ++ picture)]
    ¬Document.Unchanged fresh brought ∧
      ¬Document.Answered format (Document.edits viewers) (brought.step format wire (.message 2 (ASSET_FRAME :: picture)))
        (fresh.step format wire (.message 2 (ASSET_FRAME :: picture))) := by
  intro brought
  have hheld : brought.assets.held.length = 1 := by decide
  constructor
  · rintro ⟨seats, hunchanged⟩
    rw [hunchanged] at hheld
    exact absurd hheld (show ¬(0 : Nat) = 1 by decide)
  · intro hanswered
    have hsame := hanswered.effects.length_eq
    have hseen : ((brought.step format wire (.message 2 (ASSET_FRAME :: picture))).2.filterMap
        (Document.seen (Document.edits viewers))).length = 1 := by decide
    rw [hseen] at hsame
    exact absurd hsame (by decide)

end Tally

end Kodosi.Documents
