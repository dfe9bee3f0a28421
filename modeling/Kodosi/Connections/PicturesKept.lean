import Kodosi.Connections.Pictures

/-! What the host gives its terminal to paste is what a view offered, and it is pasted once: each offer has one chance, which
    is with the host, on its way to the terminal, or used. -/

namespace Kodosi.Connections.Pictures
open Kodosi.Lib Kodosi.Wire

variable {sha : Bytes → Bytes}

/-- The parts came one behind the other from the start. -/
inductive Contiguous : List (Nat × Bytes) → Bytes → Prop
  | nil : Contiguous [] []
  | snoc {parts : List (Nat × Bytes)} {bytes : Bytes} (part : Bytes) :
      Contiguous parts bytes → Contiguous (parts ++ [(bytes.length, part)]) (bytes ++ part)

/-- The host took this offer. -/
def Took (offers : List PictureOffer) (number : Nat) (offer : PictureOffer) : Prop :=
  offers[number]? = some offer ∧ (pictureDigest offer.sha256).isSome

variable {offers : List PictureOffer} {offer : PictureOffer}

theorem Took.lt {number : Nat} (h : Took offers number offer) : number < offers.length :=
  (List.getElem?_eq_some_iff.mp h.1).1

theorem Took.grow {number : Nat} (h : Took offers number offer) (next : PictureOffer) :
    Took (offers ++ [next]) number offer :=
  ⟨(List.getElem?_append_left h.lt).trans h.1, h.2⟩

/-- What the terminal gets for an offer: where its file would be, or the picture that its parts are. -/
def HostPicture.For (offer : PictureOffer) (parts : List (Nat × Bytes)) : HostPicture sha → Prop
  | .known digest format => pictureDigest offer.sha256 = some digest ∧ format = offer.format ∧ parts = []
  | .whole picture => Contiguous parts picture.bytes ∧ picture.bytes.length = offer.size.toNat ∧
      picture.sha256 = offer.sha256 ∧ picture.format = offer.format

def Request.Fits (offers : List PictureOffer) (r : Request sha) : Prop :=
  ∃ offer, Took offers r.offer offer ∧ r.picture.For offer r.parts

theorem Request.Fits.grow {r : Request sha} (h : r.Fits offers) (next : PictureOffer) : r.Fits (offers ++ [next]) := by
  obtain ⟨offer, htook, hfor⟩ := h
  exact ⟨offer, htook.grow next, hfor⟩

/-- Where the file of a picture is. -/
def HostPicture.path : HostPicture sha → String
  | .known digest format => name digest format
  | .whole picture => picture.name

/-- Each file holds the picture that its name tells. -/
def Named (sha : Bytes → Bytes) (folder : String → Option Bytes) : Prop :=
  ∀ path bytes, folder path = some bytes → ∃ picture : Picture sha, picture.bytes = bytes ∧ picture.name = path

theorem Named.save {folder : String → Option Bytes} (h : Named sha folder) (picture : Picture sha) :
    Named sha (save folder picture) := by
  intro path bytes hpath
  unfold Pictures.save at hpath
  split at hpath
  · exact h path bytes hpath
  · by_cases heq : path = picture.name
    · rw [heq, Function.update_self] at hpath
      exact ⟨picture, Option.some.inj hpath, heq.symm⟩
    · rw [Function.update_of_ne heq] at hpath
      exact h path bytes hpath

/-- A path that was pasted is the one of a picture that was offered, and of a file that was there or was just written. -/
structure Pasted.Right (offers : List PictureOffer) (p : Pasted sha) : Prop where
  fits : p.request.Fits offers
  path : p.path = p.request.picture.path
  content : ∀ bytes, p.content = some bytes → ∃ picture : Picture sha, picture.bytes = bytes ∧ picture.name = p.path
  there : ∀ digest format, p.request.picture = .known digest format → p.content.isSome

/-- The offer that the host can still ask for after the terminal's answer. -/
def Answer.chance : Option Answer → List Nat
  | some ⟨_, false, _, some (.ok false), number⟩ => [number]
  | _ => []

namespace Host

/-- The offers whose picture was pasted or can still be. -/
def chances (h : Host sha) : List Nat :=
  h.terminal.pasted.map (·.request.offer) ++ h.terminal.requests.map (·.offer) ++
    h.terminal.saving.map (·.request.offer) ++ (h.picture.map (·.number)).toList ++ Answer.chance h.pictureAnswer

/-- The requests that the terminal has. -/
def requests (h : Host sha) : List (Request sha) := h.terminal.requests ++ h.terminal.saving.map (·.request)

/-- What holds at the host, whatever a view sends. -/
structure Sound (h : Host sha) : Prop where
  fits : ∀ r ∈ h.requests, r.Fits h.offers
  whole : ∀ s ∈ h.terminal.saving, s.request.picture = .whole s.picture ∧
    ∀ path, s.path = some (.ok path) → path = s.picture.name
  named : Named sha h.terminal.folder
  right : ∀ p ∈ h.terminal.pasted, p.Right h.offers
  picture : ∀ r, h.picture = some r → r.number + 1 = h.offers.length ∧ Took h.offers r.number r.offer ∧
    Contiguous r.parts r.bytes ∧ r.bytes.length < r.offer.size.toNat
  answer : ∀ a, h.pictureAnswer = some a → a.number + 1 = h.offers.length ∧ Took h.offers a.number a.offer ∧
    0 < a.offer.size.toNat ∧ a.ticket < h.tickets
  tickets : ∀ r ∈ h.requests, r.ticket < h.tickets ∧
    ∀ a, h.pictureAnswer = some a → r.ticket = a.ticket → r.offer = a.number
  alone : h.picture = none ∨ h.pictureAnswer = none
  once : h.chances.Nodup

variable {h : Host sha} {number : Nat} {offer : PictureOffer}

theorem Sound.new : Sound (Host.new sha) where
  fits := by simp [requests, Host.new]
  whole := by simp [Host.new]
  named := by simp [Named, Host.new]
  right := by simp [Host.new]
  picture := by simp [Host.new]
  answer := by simp [Host.new]
  tickets := by simp [requests, Host.new]
  alone := .inl rfl
  once := List.nodup_nil

theorem Sound.send (h' : Sound h) (state : PictureState) : Sound (h.send state) := { h' with }

theorem Sound.fail (h' : Sound h) (message : String) : Sound (h.fail message) := { h' with }

/-! ### Giving up a chance -/

/-- The host forgets what it receives or waits for. -/
theorem Sound.forget (h' : Sound h) : Sound { h with picture := none, pictureAnswer := none } where
  fits := h'.fits
  whole := h'.whole
  named := h'.named
  right := h'.right
  picture := by simp
  answer := by simp
  tickets r hr := ⟨(h'.tickets r hr).1, by simp⟩
  alone := .inl rfl
  once := by
    have honce := h'.once
    simp only [chances, List.nodup_iff_count_le_one, List.count_append] at honce ⊢
    intro n
    have := honce n
    simp only [Answer.chance, Option.map_none, Option.toList_none, List.count_nil] at this ⊢
    omega

variable {r : Receiving}

/-- A chance that the host has is not with the terminal. -/
theorem Sound.free_picture (h' : Sound h) (hr : h.picture = some r) :
    r.number ∉ { h with picture := none, pictureAnswer := none }.chances := by
  have honce := (List.nodup_iff_count_le_one.mp h'.once) r.number
  rw [← List.count_eq_zero]
  simp only [chances, hr, List.count_append, Option.map_some, Option.toList_some, List.count_singleton_self,
    Answer.chance, Option.map_none, Option.toList_none, List.count_nil] at honce ⊢
  omega

theorem Sound.free_answer (h' : Sound h) (offer : PictureOffer) (ticket number : Nat)
    (ha : h.pictureAnswer = some ⟨offer, false, ticket, some (.ok false), number⟩) :
    number ∉ { h with picture := none, pictureAnswer := none }.chances := by
  have honce := (List.nodup_iff_count_le_one.mp h'.once) number
  rw [← List.count_eq_zero]
  simp only [chances, ha, List.count_append, Answer.chance, List.count_singleton_self, Option.map_none,
    Option.toList_none, List.count_nil] at honce ⊢
  omega

/-- All chances are of offers that the host took. -/
theorem Sound.lt (h' : Sound h) : ∀ n ∈ h.chances, n < h.offers.length := by
  intro n hn
  simp only [chances, List.mem_append, List.mem_map] at hn
  rcases hn with (((⟨p, hp, rfl⟩ | ⟨r, hr, rfl⟩) | ⟨s, hs, rfl⟩) | hpicture) | hanswer
  · obtain ⟨offer, htook, -⟩ := (h'.right p hp).fits
    exact htook.lt
  · obtain ⟨offer, htook, -⟩ := h'.fits r (List.mem_append_left _ hr)
    exact htook.lt
  · obtain ⟨offer, htook, -⟩ := h'.fits s.request (List.mem_append_right _ (List.mem_map_of_mem hs))
    exact htook.lt
  · cases hreceiving : h.picture with
    | none => simp [hreceiving] at hpicture
    | some r =>
      obtain rfl : n = r.number := by simpa [hreceiving] using hpicture
      exact (h'.picture r hreceiving).2.1.lt
  · cases hwaiting : h.pictureAnswer with
    | none => simp [hwaiting, Answer.chance] at hanswer
    | some a =>
      rw [hwaiting] at hanswer
      have hn : n = a.number := by
        unfold Answer.chance at hanswer
        split at hanswer
        · next heq =>
          obtain rfl := Option.some.inj heq
          exact List.mem_singleton.mp hanswer
        · cases hanswer
      rw [hn]
      exact (h'.answer a hwaiting).2.1.lt

/-! ### The host's steps -/

variable {parts : List (Nat × Bytes)}

theorem mem_submit {picture : HostPicture sha} {whole : Bool} {r : Request sha} :
    r ∈ (h.submitPicture picture offer whole number parts).requests ↔
      r ∈ h.requests ∨ r = ⟨h.tickets, picture, number, parts⟩ := by
  simp only [requests, submitPicture, List.mem_append, List.mem_singleton]
  tauto

/-- A chance goes from the host to the terminal. -/
theorem Sound.submit (h' : Sound h) (hpicture : h.picture = none) (hanswer : h.pictureAnswer = none)
    (hlast : number + 1 = h.offers.length) (htook : Took h.offers number offer) (hsize : 0 < offer.size.toNat)
    {picture : HostPicture sha} (hfor : picture.For offer parts) (hfree : number ∉ h.chances) (whole : Bool) :
    Sound (h.submitPicture picture offer whole number parts) where
  fits r hr := by
    rcases mem_submit.mp hr with hold | rfl
    · exact h'.fits r hold
    · exact ⟨offer, htook, hfor⟩
  whole := h'.whole
  named := h'.named
  right := h'.right
  picture r hr := by
    rw [submitPicture, hpicture] at hr
    cases hr
  answer a ha := by
    obtain rfl := Option.some.inj ha
    exact ⟨hlast, htook, hsize, Nat.lt_succ_self _⟩
  tickets r hr := by
    rcases mem_submit.mp hr with hold | rfl
    · have hlt := (h'.tickets r hold).1
      refine ⟨Nat.lt_succ_of_lt hlt, fun a ha hticket => ?_⟩
      obtain rfl := Option.some.inj ha
      exact absurd hticket (Nat.ne_of_lt hlt)
    · refine ⟨Nat.lt_succ_self _, fun a ha _ => ?_⟩
      obtain rfl := Option.some.inj ha
      rfl
  alone := .inl hpicture
  once := by
    refine (List.Perm.nodup_iff ?_).mpr (List.nodup_cons.mpr ⟨hfree, h'.once⟩)
    refine List.perm_iff_count.mpr fun n => ?_
    simp only [chances, submitPicture, hpicture, hanswer, Answer.chance, List.map_append, List.map_cons, List.map_nil,
      List.count_append, List.count_cons, List.count_nil, Option.map_none, Option.toList_none]
    omega

/-- The host takes one more offer. -/
theorem Sound.grow (h' : Sound h) (hpicture : h.picture = none) (hanswer : h.pictureAnswer = none) (offer : PictureOffer) :
    Sound { h with offers := h.offers ++ [offer] } where
  fits r hr := (h'.fits r hr).grow offer
  whole := h'.whole
  named := h'.named
  right p hp := { h'.right p hp with fits := (h'.right p hp).fits.grow offer }
  picture r hr := by
    rw [hpicture] at hr
    cases hr
  answer a ha := by
    rw [hanswer] at ha
    cases ha
  tickets := h'.tickets
  alone := h'.alone
  once := h'.once

theorem Sound.offered (h' : Sound h) (offer : PictureOffer) : Sound (h.offered offer) := by
  rw [Host.offered.eq_def]
  split
  · exact h'.fail _
  · next digest hdigest =>
    obtain ⟨hdigest, hsize⟩ := Option.filter_eq_some_iff.mp hdigest
    obtain ⟨hpos, -⟩ := of_decide_eq_true hsize
    have htook : Took (h.offers ++ [offer]) h.offers.length offer :=
      ⟨by rw [List.getElem?_append_right (Nat.le_refl _), Nat.sub_self]; rfl, by rw [hdigest]; rfl⟩
    have hgrown := h'.forget.grow rfl rfl offer
    have hlast : h.offers.length + 1 = (h.offers ++ [offer]).length := by rw [List.length_append, List.length_singleton]
    have hfor : (HostPicture.known digest offer.format : HostPicture sha).For offer [] := ⟨hdigest, rfl, rfl⟩
    exact hgrown.submit rfl rfl hlast htook hpos hfor (fun hmem => Nat.lt_irrefl _ (h'.forget.lt _ hmem)) false

/-- The host asks for the parts of a picture. -/
theorem Sound.ask (h' : Sound h) (hpicture : h.picture = none) (hanswer : h.pictureAnswer = none)
    (hlast : number + 1 = h.offers.length) (htook : Took h.offers number offer) (hsize : 0 < offer.size.toNat)
    (hfree : number ∉ h.chances) : Sound { h with picture := some ⟨offer, [], number, []⟩ } where
  fits := h'.fits
  whole := h'.whole
  named := h'.named
  right := h'.right
  picture r hr := by
    obtain rfl := Option.some.inj hr
    exact ⟨hlast, htook, .nil, hsize⟩
  answer a ha := by
    rw [hanswer] at ha
    cases ha
  tickets := h'.tickets
  alone := .inr hanswer
  once := by
    refine (List.Perm.nodup_iff ?_).mpr (List.nodup_cons.mpr ⟨hfree, h'.once⟩)
    refine List.perm_iff_count.mpr fun n => ?_
    simp only [chances, hpicture, hanswer, Answer.chance, List.count_append, List.count_cons, List.count_nil,
      Option.map_none, Option.toList_none, Option.map_some, Option.toList_some]
    omega

theorem Sound.pictureAnswered (h' : Sound h) (hpicture : h.picture = none) (hanswer : h.pictureAnswer = none)
    (hlast : number + 1 = h.offers.length) (htook : Took h.offers number offer) (hsize : 0 < offer.size.toNat)
    (answer : Except String Bool) (hfree : answer = .ok false → number ∉ h.chances) (memory : Bool) :
    Sound (h.pictureAnswered offer number answer memory) := by
  rw [Host.pictureAnswered.eq_def]
  split
  · exact h'.send _
  · exact h'.send _
  · split
    · exact (h'.ask hpicture hanswer hlast htook hsize (hfree rfl)).send _
    · exact h'.send _

variable {picture : Picture sha}

theorem Picture.bytes_of_new {bytes : Bytes} (hnew : Picture.new sha bytes = .ok picture) : picture.bytes = bytes := by
  unfold Picture.new at hnew
  split at hnew
  · split at hnew
    · obtain rfl := Except.ok.inj hnew
      rfl
    · cases hnew
  · cases hnew

/-- All parts of a picture are there. -/
theorem Sound.paste (h' : Sound h) (hpicture : h.picture = none) (hanswer : h.pictureAnswer = none)
    (hlast : r.number + 1 = h.offers.length) (htook : Took h.offers r.number r.offer) (hsize : 0 < r.offer.size.toNat)
    (hparts : Contiguous r.parts r.bytes) (hall : r.bytes.length = r.offer.size.toNat) (hfree : r.number ∉ h.chances) :
    Sound (h.paste r) := by
  rw [Host.paste.eq_def]
  split
  · exact h'.pictureAnswered hpicture hanswer hlast htook hsize _ (fun hno => by cases hno) false
  · next picture hnew =>
    obtain ⟨hnew, hsame⟩ := Option.filter_eq_some_iff.mp hnew
    obtain ⟨hsha, hformat⟩ := of_decide_eq_true hsame
    have hok : Picture.new sha r.bytes = .ok picture := by
      cases hcase : Picture.new sha r.bytes with
      | error message =>
        rw [hcase] at hnew
        cases hnew
      | ok other =>
        rw [hcase] at hnew
        obtain rfl := Option.some.inj hnew
        rfl
    have hbytes := Picture.bytes_of_new hok
    have hfor : (HostPicture.whole picture).For r.offer r.parts := by
      refine ⟨?_, ?_, hsha, hformat⟩
      · rwa [hbytes]
      · rwa [hbytes]
    exact h'.submit hpicture hanswer hlast htook hsize hfor hfree true

/-- The host has more of a picture. -/
theorem Sound.more (h' : Sound h) (hr : h.picture = some r) (bytes : Bytes)
    (hless : (r.bytes ++ bytes).length < r.offer.size.toNat) :
    Sound { h with picture := some { r with
      bytes := r.bytes ++ bytes, parts := r.parts ++ [(r.bytes.length, bytes)] } } where
  fits := h'.fits
  whole := h'.whole
  named := h'.named
  right := h'.right
  picture r' hr' := by
    obtain rfl := Option.some.inj hr'
    obtain ⟨hlast, htook, hparts, -⟩ := h'.picture r hr
    exact ⟨hlast, htook, hparts.snoc bytes, hless⟩
  answer := h'.answer
  tickets := h'.tickets
  alone := .inr (h'.alone.resolve_left (by rw [hr]; exact Option.some_ne_none r))
  once := by
    have honce := h'.once
    simpa only [chances, hr, Option.map_some] using honce

theorem Sound.part (h' : Sound h) (id : Uuid) (offset : UInt64) (bytes : Bytes) (elapsed : UInt64) :
    Sound (h.part id offset bytes elapsed) := by
  rw [Host.part.eq_def]
  split
  · exact h'.fail _
  · next r hfilter =>
    obtain ⟨hr, hright⟩ := Option.filter_eq_some_iff.mp hfilter
    obtain ⟨-, hoffset⟩ := of_decide_eq_true hright
    obtain ⟨hlast, htook, hparts, hless⟩ := h'.picture r hr
    split
    · exact h'.fail _
    · next hfits =>
      have hanswer := h'.alone.resolve_left (by rw [hr]; exact Option.some_ne_none r)
      have hlength : (r.bytes ++ bytes).length = r.bytes.length + bytes.length := List.length_append
      rw [hoffset] at hfits
      rw [hoffset]
      dsimp only
      split
      · next hall =>
        have hsound := h'.forget.send ⟨id, .ofNat (r.bytes ++ bytes).length, elapsed, .receiving, ""⟩
        have heq : { h with picture := none, pictureAnswer := none } = { h with picture := none } := by rw [← hanswer]
        rw [heq] at hsound
        refine hsound.paste rfl hanswer hlast htook (Nat.zero_lt_of_lt hless) (hparts.snoc bytes) hall ?_
        have hfree := h'.free_picture hr
        rwa [heq] at hfree
      · next hmore =>
        exact (h'.send _).more hr bytes (by omega)

theorem Sound.answered (h' : Sound h) (memory : Bool) : Sound (h.answered memory) := by
  rw [Host.answered.eq_def]
  split
  · next offer whole ticket reply number ha =>
    obtain ⟨hlast, htook, hsize, -⟩ := h'.answer _ ha
    have hpicture := h'.alone.resolve_right (by rw [ha]; exact Option.some_ne_none _)
    have heq : { h with picture := none, pictureAnswer := none } = { h with pictureAnswer := none } := by rw [← hpicture]
    have hsound := heq ▸ h'.forget
    refine hsound.pictureAnswered hpicture rfl hlast htook hsize _ (fun hmissing => ?_) memory
    cases whole with
    | false =>
      obtain rfl : reply = .ok false := hmissing
      exact heq ▸ h'.free_answer offer ticket number ha
    | true => cases reply <;> cases hmissing
  · exact h'

theorem Sound.unanswered (h' : Sound h) : Sound h.unanswered := by
  rw [Host.unanswered.eq_def]
  split
  · next a ha =>
    obtain ⟨hlast, htook, hsize, -⟩ := h'.answer a ha
    have hpicture := h'.alone.resolve_right (by rw [ha]; exact Option.some_ne_none a)
    have heq : { h with picture := none, pictureAnswer := none } = { h with pictureAnswer := none } := by rw [← hpicture]
    have hsound := heq ▸ h'.forget
    exact hsound.pictureAnswered hpicture rfl hlast htook hsize _ (fun hno => by cases hno) false
  · exact h'

/-! ### The terminal's steps -/

/-- The terminal's answer gives the host the chance that the terminal gave up. -/
theorem Sound.reply (h' : Sound h) (ticket : Nat) (answer : Except String Bool)
    (hfree : answer = .ok false → ∀ a, h.pictureAnswer = some a → a.ticket = ticket → a.number ∉ h.chances) :
    Sound (h.reply ticket answer) := by
  rw [Host.reply.eq_def]
  split
  · next a ha =>
    split
    · next hticket =>
      have hpicture := h'.alone.resolve_right (by rw [ha]; exact Option.some_ne_none a)
      refine ⟨h'.fits, h'.whole, h'.named, h'.right, h'.picture, fun b hb => ?_, fun r hr => ?_, .inl hpicture, ?_⟩
      · obtain rfl := Option.some.inj hb
        exact h'.answer a ha
      · refine ⟨(h'.tickets r hr).1, fun b hb hb' => ?_⟩
        obtain rfl := Option.some.inj hb
        exact (h'.tickets r hr).2 a ha hb'
      · have honce := h'.once
        by_cases hchance : Answer.chance (some { a with reply := some answer }) = []
        · rw [List.nodup_iff_count_le_one] at honce ⊢
          intro n
          have := honce n
          simp only [chances, hchance, List.count_append, List.count_nil] at this ⊢
          omega
        · obtain ⟨hmissing, hwhole⟩ : answer = .ok false ∧ a.whole = false := by
            rcases a with ⟨offer, whole, ticket, reply, number⟩
            rcases whole with _ | _
            · rcases answer with _ | _ | _
              · exact absurd rfl hchance
              · exact ⟨rfl, rfl⟩
              · exact absurd rfl hchance
            · exact absurd rfl hchance
          have hnot := hfree hmissing a ha hticket
          have hnew : Answer.chance (some { a with reply := some answer }) = [a.number] := by
            rcases a with ⟨offer, whole, ticket, reply, number⟩
            obtain rfl : whole = false := hwhole
            rw [hmissing]
            rfl
          rw [List.nodup_iff_count_le_one] at honce ⊢
          intro n
          have hold := honce n
          have hzero := List.count_eq_zero.mpr hnot
          simp only [chances, hnew, List.count_append, List.count_singleton] at hold hzero ⊢
          by_cases heq : a.number = n
          · rw [heq] at hzero ⊢
            rw [if_pos (beq_self_eq_true n)]
            omega
          · rw [if_neg (by simpa using heq)]
            omega
    · exact h'
  · exact h'

variable {request : Request sha}

/-- A request leaves the list of those that the terminal has not taken. -/
theorem Sound.take (h' : Sound h) {rest : List (Request sha)} (hrequests : h.terminal.requests = request :: rest) :
    Sound { h with terminal := { h.terminal with requests := rest } } ∧ request.Fits h.offers ∧
      request.offer ∉ ({ h with terminal := { h.terminal with requests := rest } } : Host sha).chances ∧
      (∀ a, h.pictureAnswer = some a → request.ticket = a.ticket → request.offer = a.number) ∧
      request.ticket < h.tickets := by
  have hmem : ∀ r, r ∈ ({ h with terminal := { h.terminal with requests := rest } } : Host sha).requests →
      r ∈ h.requests := by
    intro r hr
    simp only [requests, hrequests, List.mem_append, List.mem_cons] at hr ⊢
    tauto
  have hfirst : request ∈ h.requests := by simp [requests, hrequests]
  have hperm : h.chances.Perm
      (request.offer :: ({ h with terminal := { h.terminal with requests := rest } } : Host sha).chances) := by
    refine List.perm_iff_count.mpr fun n => ?_
    simp only [chances, hrequests, List.map_cons, List.count_append, List.count_cons]
    omega
  have honce := List.nodup_cons.mp (hperm.nodup_iff.mp h'.once)
  exact ⟨⟨fun r hr => h'.fits r (hmem r hr), h'.whole, h'.named, h'.right, h'.picture, h'.answer,
    fun r hr => h'.tickets r (hmem r hr), h'.alone, honce.2⟩, h'.fits request hfirst, honce.1,
    (h'.tickets request hfirst).2, (h'.tickets request hfirst).1⟩

/-- A picture whose file is there leaves the list of those that are written. -/
theorem Sound.eraseSaving (h' : Sound h) {k : Nat} {s : Saving sha} (hs : h.terminal.saving[k]? = some s) :
    Sound { h with terminal := { h.terminal with saving := h.terminal.saving.eraseIdx k } } ∧
      s.request.Fits h.offers ∧ s.request.offer ∉
        ({ h with terminal := { h.terminal with saving := h.terminal.saving.eraseIdx k } } : Host sha).chances := by
  obtain ⟨hk, hget⟩ := List.getElem?_eq_some_iff.mp hs
  have hin : s ∈ h.terminal.saving := List.mem_of_getElem? hs
  have hsplit : h.terminal.saving.Perm (s :: h.terminal.saving.eraseIdx k) := by
    rw [← hget]
    exact (List.getElem_cons_eraseIdx_perm hk).symm
  have hmem : ∀ r,
      r ∈ ({ h with terminal := { h.terminal with saving := h.terminal.saving.eraseIdx k } } : Host sha).requests →
        r ∈ h.requests := by
    intro r hr
    simp only [requests, List.mem_append, List.mem_map] at hr ⊢
    rcases hr with hold | ⟨t, ht, rfl⟩
    · exact .inl hold
    · exact .inr ⟨t, List.mem_of_mem_eraseIdx ht, rfl⟩
  have hperm : h.chances.Perm (s.request.offer ::
      ({ h with terminal := { h.terminal with saving := h.terminal.saving.eraseIdx k } } : Host sha).chances) := by
    refine List.perm_iff_count.mpr fun n => ?_
    have hcount := (hsplit.map (·.request.offer)).count_eq n
    simp only [chances, List.map_cons, List.count_append, List.count_cons] at hcount ⊢
    omega
  have honce := List.nodup_cons.mp (hperm.nodup_iff.mp h'.once)
  have hfits := h'.fits s.request (List.mem_append_right _ (List.mem_map_of_mem hin))
  exact ⟨⟨fun r hr => h'.fits r (hmem r hr), fun t ht => h'.whole t (List.mem_of_mem_eraseIdx ht), h'.named, h'.right,
    h'.picture, h'.answer, fun r hr => h'.tickets r (hmem r hr), h'.alone, honce.2⟩, hfits, honce.1⟩

/-- A path that is pasted uses the chance of its offer. -/
theorem Sound.pasteSaved (h' : Sound h) (hfits : request.Fits h.offers) (hfree : request.offer ∉ h.chances)
    (path : Except String String) (hpath : ∀ p, path = .ok p → p = request.picture.path ∧
      ∀ digest format, request.picture = .known digest format → (h.terminal.folder p).isSome) (refused : Option String) :
    Sound (h.pasteSaved request path refused) := by
  rw [Host.pasteSaved.eq_def]
  split
  · exact h'.reply _ _ fun hno => by cases hno
  · exact h'.reply _ _ fun hno => by cases hno
  · next p =>
    obtain ⟨hp, hthere⟩ := hpath p rfl
    refine ⟨h'.fits, h'.whole, h'.named, fun q hq => ?_, h'.picture, h'.answer, h'.tickets, h'.alone, ?_⟩
    · rcases List.mem_append.mp hq with hold | hnew
      · exact h'.right q hold
      · obtain rfl := List.mem_singleton.mp hnew
        exact ⟨hfits, hp, fun bytes hbytes => h'.named _ _ hbytes, hthere⟩
    · refine (List.Perm.nodup_iff ?_).mpr (List.nodup_cons.mpr ⟨hfree, h'.once⟩)
      refine List.perm_iff_count.mpr fun n => ?_
      simp only [chances, List.map_append, List.map_cons, List.map_nil, List.count_append, List.count_cons, List.count_nil]
      omega

theorem Sound.taken (h' : Sound h) (refused : Option String) : Sound (h.taken refused) := by
  rw [Host.taken.eq_def]
  split
  · exact h'
  · next request rest hrequests =>
    obtain ⟨hsound, hfits, hfree, hsame, hticket⟩ := h'.take hrequests
    dsimp only
    split
    · next picture hwhole =>
      refine ⟨fun r hr => ?_, fun s hs => ?_, hsound.named, hsound.right, hsound.picture, hsound.answer, fun r hr => ?_,
        hsound.alone, ?_⟩
      · simp only [requests, List.map_append, List.map_cons, List.map_nil, List.mem_append, List.mem_singleton] at hr
        rcases hr with hold | hold | rfl
        · exact hsound.fits r (List.mem_append_left _ hold)
        · exact hsound.fits r (List.mem_append_right _ hold)
        · exact hfits
      · rcases List.mem_append.mp hs with hold | hnew
        · exact hsound.whole s hold
        · obtain rfl := List.mem_singleton.mp hnew
          exact ⟨hwhole, fun path hpath => by cases hpath⟩
      · simp only [requests, List.map_append, List.map_cons, List.map_nil, List.mem_append, List.mem_singleton] at hr
        rcases hr with hold | hold | rfl
        · exact hsound.tickets r (List.mem_append_left _ hold)
        · exact hsound.tickets r (List.mem_append_right _ hold)
        · exact ⟨hticket, hsame⟩
      · refine (List.Perm.nodup_iff ?_).mpr (List.nodup_cons.mpr ⟨hfree, hsound.once⟩)
        refine List.perm_iff_count.mpr fun n => ?_
        simp only [chances, List.map_append, List.map_cons, List.map_nil, List.count_append, List.count_cons, List.count_nil]
        omega
    · next digest format hknown =>
      split
      · next hthere =>
        refine hsound.pasteSaved hfits hfree _ (fun p hp => ?_) refused
        obtain rfl := Except.ok.inj hp
        refine ⟨by rw [hknown]; rfl, fun _ _ _ => hthere⟩
      · refine hsound.reply _ _ fun _ a ha hsameTicket => ?_
        rw [← hsame a ha hsameTicket.symm]
        exact hfree

/-- What is known of a file that is written changes, and nothing else. -/
theorem Sound.setSaving (h' : Sound h) {k : Nat} (hs : h.terminal.saving[k]? = some ⟨request, picture, none⟩)
    (path : Except String String) (hpath : ∀ p, path = .ok p → p = picture.name) :
    Sound { h with terminal :=
      { h.terminal with saving := h.terminal.saving.set k ⟨request, picture, some path⟩ } } := by
  obtain ⟨hk, hget⟩ := List.getElem?_eq_some_iff.mp hs
  have hin : ⟨request, picture, none⟩ ∈ h.terminal.saving := List.mem_of_getElem? hs
  have hsame : (h.terminal.saving.set k ⟨request, picture, some path⟩).map (·.request) =
      h.terminal.saving.map (·.request) := by
    have hk' : k < (h.terminal.saving.map (·.request)).length := by rwa [List.length_map]
    have hrequest : request = (h.terminal.saving.map (·.request))[k] := by rw [List.getElem_map, hget]
    rw [List.map_set]
    conv_lhs => rw [hrequest]
    exact List.set_getElem_self hk'
  have hoffers : (h.terminal.saving.set k ⟨request, picture, some path⟩).map (·.request.offer) =
      h.terminal.saving.map (·.request.offer) := by
    have hmapped := congrArg (List.map (·.offer)) hsame
    rwa [List.map_map, List.map_map] at hmapped
  refine ⟨fun r hr => h'.fits r ?_, fun s hs => ?_, h'.named, h'.right, h'.picture, h'.answer,
    fun r hr => h'.tickets r ?_, h'.alone, ?_⟩
  · rwa [requests, hsame] at hr
  · rcases List.mem_or_eq_of_mem_set hs with hold | rfl
    · exact h'.whole s hold
    · refine ⟨(h'.whole _ hin).1, fun p hp => hpath p (Option.some.inj hp)⟩
  · rwa [requests, hsame] at hr
  · have honce := h'.once
    simp only [chances, hoffers] at honce ⊢
    exact honce

theorem Sound.setFolder (h' : Sound h) {folder : String → Option Bytes} (hnamed : Named sha folder) :
    Sound { h with terminal := { h.terminal with folder := folder } } :=
  { h' with named := hnamed }

theorem Sound.saved (h' : Sound h) (k : Nat) (failed : Option String) : Sound (h.saved k failed) := by
  rw [Host.saved.eq_def]
  split
  · next request picture hs =>
    split
    · exact h'.setSaving hs _ fun p hp => by cases hp
    · exact (h'.setSaving hs (.ok picture.name) fun p hp => (Except.ok.inj hp).symm).setFolder (h'.named.save picture)
  · exact h'

theorem Sound.finished (h' : Sound h) (k : Nat) (refused : Option String) : Sound (h.finished k refused) := by
  rw [Host.finished.eq_def]
  split
  · next request picture path hs =>
    obtain ⟨hsound, hfits, hfree⟩ := h'.eraseSaving hs
    obtain ⟨hwhole, hname⟩ := h'.whole _ (List.mem_of_getElem? hs)
    refine hsound.pasteSaved hfits hfree _ (fun p hp => ⟨?_, fun digest format hknown => ?_⟩) refused
    · rw [hname p (congrArg some hp), hwhole]
      rfl
    · rw [hwhole] at hknown
      cases hknown
  · exact h'

theorem Sound.written (h' : Sound h) (k : Nat) (failed : Option String) : Sound (h.written k failed) := by
  rw [Host.written.eq_def]
  split
  · next ticket hk =>
    have hsound : Sound { h with terminal := { h.terminal with writing := h.terminal.writing.eraseIdx k } } := { h' with }
    refine hsound.reply _ _ fun hno => ?_
    cases failed <;> cases hno
  · exact h'

/-- Whatever happens, the host gives its terminal nothing but what was offered, and that once. -/
theorem Sound.step (h' : Sound h) (e : Event sha) : Sound (h.step e) := by
  cases e with
  | offered offer =>
    rw [Host.step]
    split
    · exact h'
    · exact h'.offered offer
  | part id offset bytes elapsed =>
    rw [Host.step]
    split
    · exact h'
    · exact h'.part id offset bytes elapsed
  | answered memory =>
    rw [Host.step]
    split
    · exact h'
    · exact h'.answered memory
  | unanswered =>
    rw [Host.step]
    split
    · exact h'
    · exact h'.unanswered
  | lost message =>
    rw [Host.step]
    split
    · exact h'
    · exact h'.fail message
  | taken refused => exact h'.taken refused
  | saved k failed => exact h'.saved k failed
  | finished k refused => exact h'.finished k refused
  | written k failed => exact h'.written k failed
  | savedOther picture => exact h'.setFolder (h'.named.save picture)
  | removed path =>
    refine h'.setFolder fun p bytes hp => h'.named p bytes ?_
    by_cases heq : p = path
    · rw [heq, Function.update_self] at hp
      cases hp
    · rwa [Function.update_of_ne heq] at hp

theorem sound_of_run (es : List (Event sha)) : Sound (es.foldl Host.step (Host.new sha)) := by
  have hrun := Run.foldl Host.step (Host.new sha) es
  refine Run.invariant (I := Sound) (fun {h e t} hsound hnext => ?_) hrun Sound.new
  rw [hnext]
  exact hsound.step e

end Host

end Kodosi.Connections.Pictures
