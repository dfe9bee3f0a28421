import Kodosi.Connections.PicturesKept

/-! A view and its host never disagree about the picture on its way: the parts that arrive are the next ones of the picture
    that the host asked for, and the answers that the view follows are about the picture that it offered last. -/

namespace Kodosi.Connections.Pictures
open Kodosi.Lib Kodosi.Wire

variable {sha : Bytes → Bytes}

/-! ### Digests as text -/

theorem hexValue_hexDigit : ∀ n < 16, hexValue (hexDigit n) = some n := by decide

theorem hexDigit_plain : ∀ n < 16, hexDigit n ≠ '+' ∧ (hexDigit n).toNat < 128 := by decide

theorem byte_halves (b : UInt8) : (b.toNat / 16 * 16 + b.toNat % 16).toUInt8 = b := by
  rw [Nat.div_add_mod']
  exact UInt8.ofNat_toNat

theorem hexPairs_cons (b : UInt8) (rest : List Char) : hexPairs (hexByte b ++ rest) = (hexPairs rest).map (b :: ·) := by
  have hlow : b.toNat % 16 < 16 := Nat.mod_lt _ (by decide)
  have hhigh : b.toNat / 16 < 16 := by have := b.toNat_lt; omega
  rw [hexByte, List.cons_append, List.cons_append, List.nil_append, hexPairs, hexValue_hexDigit _ hlow,
    hexValue_hexDigit _ hhigh]
  · cases hexPairs rest with
    | none => rfl
    | some bytes => exact congrArg (fun byte => some (byte :: bytes)) (byte_halves b)
  · exact fun heq => (hexDigit_plain _ hhigh).1 heq

theorem hexPairs_hex (bytes : Bytes) : hexPairs (bytes.flatMap hexByte) = some bytes := by
  induction bytes with
  | nil => rfl
  | cons b rest ih => rw [List.flatMap_cons, hexPairs_cons, ih]; rfl

theorem length_digits (bytes : Bytes) : (bytes.flatMap hexByte).length = 2 * bytes.length := by
  induction bytes with
  | nil => rfl
  | cons b rest ih =>
    rw [List.flatMap_cons, List.length_append, ih, List.length_cons]
    have hbyte : (hexByte b).length = 2 := rfl
    omega

/-- A digest is read back from its text. -/
theorem pictureDigest_hex {digest : Bytes} (hlength : digest.length = 32) : pictureDigest (hex digest) = some digest := by
  rw [pictureDigest, hex, String.toList_ofList, if_pos, hexPairs_hex]
  refine ⟨by rw [length_digits, hlength], List.all_eq_true.mpr fun c hc => decide_eq_true ?_⟩
  obtain ⟨b, -, hb⟩ := List.mem_flatMap.mp hc
  rcases List.mem_cons.mp hb with rfl | hb
  · exact (hexDigit_plain _ (by have := b.toNat_lt; omega)).2
  · obtain rfl := List.mem_singleton.mp hb
    exact (hexDigit_plain _ (Nat.mod_lt _ (by decide))).2

/-! ### What is on its way -/

/-- An offer that a host takes. -/
def Valid (offer : PictureOffer) : Prop :=
  (pictureDigest offer.sha256).isSome ∧ 0 < offer.size.toNat ∧ offer.size.toNat ≤ TERMINAL_PICTURE_MAX_BYTES

/-- Parts of one picture, each behind the one before, from a place to another. -/
def Follow (id : Uuid) (size : Nat) : Nat → List Packet → Nat → Prop
  | place, [], last => place = last
  | place, .part id' offset bytes :: rest, last =>
    id' = id ∧ offset.toNat = place ∧ 0 < bytes.length ∧ place + bytes.length ≤ size ∧
      Follow id size (place + bytes.length) rest last
  | _, .picture _ :: _, _ => False

/-- The answers about a picture tell of more and more bytes, in bounds. -/
def Tells (id : Uuid) : Nat → List PictureState → Nat → Prop
  | low, [], high => low ≤ high
  | low, state :: rest, high =>
    if state.id = id ∧ state.step = .receiving then low ≤ state.received.toNat ∧ Tells id state.received.toNat rest high
    else Tells id low rest high

variable {id : Uuid}

theorem Follow.le {size : Nat} : ∀ {place : Nat} {ps : List Packet} {last : Nat},
    Follow id size place ps last → place ≤ last
  | _, [], _, h => Nat.le_of_eq h
  | _, .part _ _ _ :: _, _, h => Nat.le_trans (Nat.le_add_right _ _) h.2.2.2.2.le

theorem Follow.snoc {id : Uuid} {size : Nat} {offset : UInt64} (bytes : Bytes) :
    ∀ {place : Nat} {ps : List Packet} {last : Nat}, Follow id size place ps last → offset.toNat = last → 0 < bytes.length → last + bytes.length ≤ size →
      Follow id size place (ps ++ [.part id offset bytes]) (last + bytes.length)
  | _, [], _, h, hoffset, hpos, hfits => by
    obtain rfl := h
    exact ⟨rfl, hoffset, hpos, hfits, rfl⟩
  | _, .part _ _ _ :: _, _, ⟨hid, hplace, hp, hin, hrest⟩, hoffset, hpos, hfits =>
    ⟨hid, hplace, hp, hin, hrest.snoc bytes hoffset hpos hfits⟩

/-- Nothing comes behind the end of a picture. -/
theorem Follow.nil_of_end {size last : Nat} {ps : List Packet} (h : Follow id size size ps last) : ps = [] := by
  cases ps with
  | nil => rfl
  | cons p rest =>
    cases p with
    | picture offer => exact h.elim
    | part id' offset bytes =>
      obtain ⟨-, -, hpos, hfits, -⟩ := h
      omega

theorem Tells.le : ∀ {low : Nat} {states : List PictureState} {high : Nat}, Tells id low states high → low ≤ high
  | _, [], _, h => h
  | low, state :: rest, high, h => by
    rw [Tells] at h
    split at h
    · exact Nat.le_trans h.1 h.2.le
    · exact h.le

variable {state : PictureState}

/-- An answer about something else, or the last one, tells of no bytes. -/
theorem Tells.other (hother : ¬ (state.id = id ∧ state.step = .receiving)) :
    ∀ {low : Nat} {states : List PictureState} {high : Nat}, Tells id low states high → Tells id low (states ++ [state]) high
  | low, [], high, h => by rwa [List.nil_append, Tells, if_neg hother]
  | low, first :: rest, high, h => by
    rw [Tells] at h
    rw [List.cons_append, Tells]
    split at h
    · next heq =>
      rw [if_pos heq]
      exact ⟨h.1, h.2.other hother⟩
    · next heq =>
      rw [if_neg heq]
      exact h.other hother

theorem Tells.snoc {id : Uuid} {state : PictureState} (hthis : state.id = id ∧ state.step = .receiving) :
    ∀ {low : Nat} {states : List PictureState} {high : Nat}, Tells id low states high → high ≤ state.received.toNat →
      Tells id low (states ++ [state]) state.received.toNat
  | low, [], high, h, hle => by
    rw [List.nil_append, Tells, if_pos hthis]
    exact ⟨Nat.le_trans h hle, Nat.le_refl _⟩
  | low, first :: rest, high, h, hle => by
    rw [Tells] at h
    rw [List.cons_append, Tells]
    split at h
    · next heq =>
      rw [if_pos heq]
      exact ⟨h.1, h.2.snoc hthis hle⟩
    · next heq =>
      rw [if_neg heq]
      exact h.snoc hthis hle

theorem Tells.others {low high : Nat} : ∀ {states more : List PictureState}, Tells id low states high →
    (∀ s ∈ more, ¬ (s.id = id ∧ s.step = .receiving)) → Tells id low (states ++ more) high
  | states, [], h, _ => (List.append_nil states).symm ▸ h
  | states, state :: more, h, hothers => by
    have hfirst := h.other (hothers state List.mem_cons_self)
    have hrest := hfirst.others fun s hs => hothers s (List.mem_cons_of_mem _ hs)
    rwa [List.append_assoc, List.singleton_append] at hrest

/-- Answers about other pictures only. -/
theorem Tells.of_none {low high : Nat} (hle : low ≤ high) : ∀ {states : List PictureState},
    (∀ s ∈ states, s.id ≠ id) → Tells id low states high
  | [], _ => hle
  | state :: rest, h => by
    rw [Tells, if_neg fun hno => h state List.mem_cons_self hno.1]
    exact Tells.of_none hle fun s hs => h s (List.mem_cons_of_mem _ hs)

/-- A picture of which nothing went, and about which nothing was answered. -/
structure Untouched (sent : List PictureState) (u : Upload sha) : Prop where
  asked : u.asked = false
  unsent : u.sent = 0
  received : u.received = 0
  unheard : ∀ s ∈ sent, s.id ≠ u.id

/-- Where the picture of a view is: its offer is on its way, the terminal is asked for its file, its parts go, or the host
    has all that it will get of it. -/
inductive Stage (h : Host sha) (ps : List Packet) (os : List PictureOffer) (u : Upload sha) : Prop
  | waits (hos : os ≠ []) (huntouched : Untouched h.sent u)
  | asks (hos : os = []) (hanswer : h.pictureAnswer.map (·.whole) = some false) (huntouched : Untouched h.sent u)
  | receives (hos : os = []) (r : Receiving) (hr : h.picture = some r)
      (hfollow : Follow u.id u.picture.bytes.length r.bytes.length ps u.sent)
      (htells : Tells u.id u.received h.sent r.bytes.length)
  | done (hos : os = []) (hpicture : h.picture = none) (hanswer : h.pictureAnswer.map (·.whole) ≠ some false)
      (htells : Tells u.id u.received h.sent u.sent)
      (hover : u.sent = u.picture.bytes.length ∨
        u.asked = false ∧ ∀ s ∈ h.sent, ¬ (s.id = u.id ∧ s.step = .receiving))

/-- What holds between a view and its host, with the parts on their way to the host and the offers behind them. -/
structure Flows (v : View sha) (h : Host sha) (ps : List Packet) (os : List PictureOffer) : Prop where
  hostGoes : h.ended = none
  viewGoes : v.ended = none
  parts : ps = [] ∨ ∃ r last, h.picture = some r ∧ Follow r.offer.id r.offer.size.toNat r.bytes.length ps last
  valid : ∀ o ∈ h.offers ++ os, Valid o
  ids : ∀ o ∈ h.offers ++ os, o.id ∈ v.ids
  distinct : ((h.offers ++ os).map (·.id)).Nodup
  heard : ∀ s ∈ h.sent, s.id ∈ h.offers.map (·.id)
  present : ∀ u, v.upload = some u →
    (h.offers ++ os).getLast? = some (View.offerOf u.id u.picture) ∧ Stage h ps os u

variable {v : View sha} {h h' : Host sha} {ps : List Packet} {os : List PictureOffer}

/-! ### The terminal's steps -/

/-- What the terminal does leaves the view's picture where it is. -/
structure Same (h h' : Host sha) : Prop where
  ended : h'.ended = h.ended
  picture : h'.picture = h.picture
  sent : h'.sent = h.sent
  offers : h'.offers = h.offers
  answer : h'.pictureAnswer.map (fun a => (a.whole, a.offer, a.number)) =
    h.pictureAnswer.map fun a => (a.whole, a.offer, a.number)

theorem Same.whole (hsame : Same h h') : h'.pictureAnswer.map (·.whole) = h.pictureAnswer.map (·.whole) := by
  have hmapped := congrArg (Option.map Prod.fst) hsame.answer
  rwa [Option.map_map, Option.map_map] at hmapped

theorem Same.refl (h : Host sha) : Same h h := ⟨rfl, rfl, rfl, rfl, rfl⟩

theorem Same.reply (h : Host sha) (ticket : Nat) (answer : Except String Bool) : Same h (h.reply ticket answer) := by
  rw [Host.reply.eq_def]
  split
  · next a ha =>
    split
    · exact ⟨rfl, rfl, rfl, rfl, by rw [ha]; rfl⟩
    · exact .refl h
  · exact .refl h

theorem Same.pasteSaved (h : Host sha) (request : Request sha) (path : Except String String) (refused : Option String) :
    Same h (h.pasteSaved request path refused) := by
  rw [Host.pasteSaved.eq_def]
  split
  · exact .reply h _ _
  · exact .reply h _ _
  · exact ⟨rfl, rfl, rfl, rfl, rfl⟩

/-- A step of the terminal starts from a state that differs in the terminal alone. -/
theorem Same.behind {t : Terminal sha} (hsame : Same { h with terminal := t } h') : Same h h' :=
  ⟨hsame.ended, hsame.picture, hsame.sent, hsame.offers, hsame.answer⟩

theorem Same.taken (h : Host sha) (refused : Option String) : Same h (h.taken refused) := by
  rw [Host.taken.eq_def]
  split
  · exact .refl h
  · dsimp only
    split
    · exact ⟨rfl, rfl, rfl, rfl, rfl⟩
    · split
      · exact (Same.pasteSaved _ _ _ _).behind
      · exact (Same.reply _ _ _).behind

theorem Same.saved (h : Host sha) (k : Nat) (failed : Option String) : Same h (h.saved k failed) := by
  rw [Host.saved.eq_def]
  split
  · split
    · exact ⟨rfl, rfl, rfl, rfl, rfl⟩
    · exact ⟨rfl, rfl, rfl, rfl, rfl⟩
  · exact .refl h

theorem Same.finished (h : Host sha) (k : Nat) (refused : Option String) : Same h (h.finished k refused) := by
  rw [Host.finished.eq_def]
  split
  · exact (Same.pasteSaved _ _ _ _).behind
  · exact .refl h

theorem Same.written (h : Host sha) (k : Nat) (failed : Option String) : Same h (h.written k failed) := by
  rw [Host.written.eq_def]
  split
  · exact (Same.reply _ _ _).behind
  · exact .refl h

/-- What the terminal and others do. -/
def Event.Aside : Event sha → Prop
  | .offered _ | .part _ _ _ _ | .answered _ | .unanswered | .lost _ => False
  | _ => True

/-- What the terminal does, and its answers, change nothing of the picture that the host receives. -/
theorem Same.aside (h : Host sha) {e : Event sha} (haside : e.Aside) : Same h (h.step e) := by
  cases e with
  | taken refused => exact .taken h refused
  | saved k failed => exact .saved h k failed
  | finished k refused => exact .finished h k refused
  | written k failed => exact .written h k failed
  | savedOther picture => exact ⟨rfl, rfl, rfl, rfl, rfl⟩
  | removed path => exact ⟨rfl, rfl, rfl, rfl, rfl⟩
  | _ => exact haside.elim

variable {u : Upload sha}

theorem Stage.same (hstage : Stage h ps os u) (hsame : Same h h') : Stage h' ps os u := by
  have hsent := hsame.sent
  cases hstage with
  | waits hos huntouched => exact .waits hos (hsent ▸ huntouched)
  | asks hos hanswer huntouched => exact .asks hos (hsame.whole.trans hanswer) (hsent ▸ huntouched)
  | receives hos r hr hfollow htells => exact .receives hos r (hsame.picture.trans hr) hfollow (hsent ▸ htells)
  | done hos hpicture hanswer htells hover =>
    exact .done hos (hsame.picture.trans hpicture) (by rwa [hsame.whole]) (hsent ▸ htells) (hsent ▸ hover)

theorem Flows.same (hflows : Flows v h ps os) (hsame : Same h h') : Flows v h' ps os where
  hostGoes := hsame.ended.trans hflows.hostGoes
  viewGoes := hflows.viewGoes
  parts := hsame.picture ▸ hflows.parts
  valid := hsame.offers ▸ hflows.valid
  ids := hsame.offers ▸ hflows.ids
  distinct := hsame.offers ▸ hflows.distinct
  heard := by
    rw [hsame.sent, hsame.offers]
    exact hflows.heard
  present u hu := ⟨hsame.offers ▸ (hflows.present u hu).1, (hflows.present u hu).2.same hsame⟩

/-! ### The view's steps -/

theorem Picture.valid_offer {picture : Picture sha} (hsha : ∀ bytes, (sha bytes).length = 32) (id : Uuid) :
    Valid (View.offerOf id picture) := by
  have hfits := picture.fits
  have hmax : TERMINAL_PICTURE_MAX_BYTES < 2 ^ 64 := by decide
  have hsize : (UInt64.ofNat picture.bytes.length).toNat = picture.bytes.length :=
    UInt64.toNat_ofNat_of_lt' (Nat.lt_of_le_of_lt hfits hmax)
  refine ⟨?_, ?_, ?_⟩
  · have hlength : picture.digest.length = 32 := by rw [picture.hashed, hsha]
    rw [View.offerOf, Picture.sha256, pictureDigest_hex hlength]
    rfl
  · rw [View.offerOf, hsize]
    refine List.length_pos_iff.mpr fun hempty => ?_
    have hknown := picture.known
    rw [hempty] at hknown
    cases hknown
  · rw [View.offerOf, hsize]
    exact hfits

/-- The view offers a picture. -/
theorem Flows.offer (hsha : ∀ bytes, (sha bytes).length = 32) (hflows : Flows v h ps os) (hnew : id ∉ v.ids)
    (picture : Picture sha) :
    ∃ os', (v.offer id picture).2 = os'.map Packet.picture ∧ Flows (v.offer id picture).1 h ps (os ++ os') := by
  rw [View.offer]
  split
  · refine ⟨[], rfl, ?_⟩
    rw [List.append_nil]
    exact { hflows with ids := fun o ho => List.mem_append_left _ (hflows.ids o ho) }
  · refine ⟨[View.offerOf id picture], rfl, ?_⟩
    have happend : h.offers ++ (os ++ [View.offerOf id picture]) = (h.offers ++ os) ++ [View.offerOf id picture] :=
      (List.append_assoc _ _ _).symm
    refine ⟨hflows.hostGoes, hflows.viewGoes, hflows.parts, ?_, ?_, ?_, hflows.heard, ?_⟩
    · intro o ho
      rcases List.mem_append.mp (happend ▸ ho) with hold | hlast
      · exact hflows.valid o hold
      · obtain rfl := List.mem_singleton.mp hlast
        exact Picture.valid_offer hsha id
    · intro o ho
      rcases List.mem_append.mp (happend ▸ ho) with hold | hlast
      · exact List.mem_append_left _ (hflows.ids o hold)
      · obtain rfl := List.mem_singleton.mp hlast
        exact List.mem_append_right _ (List.mem_singleton.mpr rfl)
    · rw [happend, List.map_append]
      refine List.nodup_append.mpr ⟨hflows.distinct, List.nodup_singleton _, fun a ha b hb heq => ?_⟩
      have hlast : b = id := List.mem_singleton.mp hb
      obtain ⟨o, ho, hid⟩ := List.mem_map.mp ha
      have hsame : o.id = id := hid.trans (heq.trans hlast)
      exact hnew (hsame ▸ hflows.ids o ho)
    · intro u hu
      obtain rfl := Option.some.inj hu
      refine ⟨by rw [happend]; exact List.getLast?_concat, .waits (by simp) ⟨rfl, rfl, rfl, fun s hs heq => ?_⟩⟩
      obtain ⟨o, ho, hid⟩ := List.mem_map.mp (hflows.heard s hs)
      exact hnew ((hid.trans heq : o.id = id) ▸ hflows.ids o (List.mem_append_left _ ho))

/-- The view stops waiting. -/
theorem Flows.alone (hflows : Flows v h ps os) (told : List (Uuid × Except String Unit)) :
    Flows { v with upload := none, told := told } h ps os :=
  { hflows with present := fun u hu => by cases hu }

theorem Flows.giveUp (hflows : Flows v h ps os) : Flows v.giveUp h ps os := by
  rw [View.giveUp]
  split
  · exact hflows.alone _
  · exact hflows

theorem Host.Sound.latest (hsound : h.Sound) {r : Receiving} (hr : h.picture = some r) :
    h.offers.getLast? = some r.offer := by
  obtain ⟨hlast, htook, -, -⟩ := hsound.picture r hr
  rw [List.getLast?_eq_getElem?, ← hlast, Nat.add_sub_cancel]
  exact htook.1

theorem Host.Sound.latest_answer (hsound : h.Sound) {a : Answer} (ha : h.pictureAnswer = some a) :
    h.offers.getLast? = some a.offer := by
  obtain ⟨hlast, htook, -, -⟩ := hsound.answer a ha
  rw [List.getLast?_eq_getElem?, ← hlast, Nat.add_sub_cancel]
  exact htook.1

/-- The host's latest offer is the one of the picture on its way, when no other offer is. -/
theorem Flows.latest (hflows : Flows v h ps []) (hu : v.upload = some u) :
    h.offers.getLast? = some (View.offerOf u.id u.picture) := by
  have hlast := (hflows.present u hu).1
  rwa [List.append_nil] at hlast

theorem View.size_offerOf (u : Upload sha) : (View.offerOf u.id u.picture).size.toNat = u.picture.bytes.length := by
  have hmax : TERMINAL_PICTURE_MAX_BYTES < 2 ^ 64 := by decide
  exact UInt64.toNat_ofNat_of_lt' (Nat.lt_of_le_of_lt u.picture.fits hmax)

/-- The view sends the next part of a picture. -/
theorem Flows.sendPart (hsound : h.Sound) (hflows : Flows v h ps os) (room : Bool) :
    ((v.sendPart room).2 = [] ∨ os = []) ∧ Flows (v.sendPart room).1 h (ps ++ (v.sendPart room).2) os := by
  rw [View.sendPart]
  split
  · next u hu =>
    split
    · next hwants =>
      obtain ⟨hasked, hless, -⟩ := hwants
      obtain ⟨-, hstage⟩ := hflows.present u hu
      cases hstage with
      | waits hos huntouched => exact absurd hasked (by rw [huntouched.asked]; exact Bool.false_ne_true)
      | asks hos hanswer huntouched => exact absurd hasked (by rw [huntouched.asked]; exact Bool.false_ne_true)
      | done hos hpicture hanswer htells hover =>
        rcases hover with hall | ⟨hnot, -⟩
        · omega
        · exact absurd hasked (by rw [hnot]; exact Bool.false_ne_true)
      | receives hos r hr hfollow htells =>
        subst hos
        refine ⟨.inr rfl, ?_⟩
        have hoffer : r.offer = View.offerOf u.id u.picture :=
          Option.some.inj ((hsound.latest hr).symm.trans (hflows.latest hu))
        have hsize := View.size_offerOf u
        have hmax : TERMINAL_PICTURE_MAX_BYTES < 2 ^ 64 := by decide
        have hoffset : (UInt64.ofNat u.sent).toNat = u.sent :=
          UInt64.toNat_ofNat_of_lt' (Nat.lt_of_lt_of_le hless (Nat.le_of_lt (Nat.lt_of_le_of_lt u.picture.fits hmax)))
        have hpart : 0 < PICTURE_PART := by decide
        have hlength : ((u.picture.bytes.drop u.sent).take PICTURE_PART).length =
            min PICTURE_PART (u.picture.bytes.length - u.sent) := by rw [List.length_take, List.length_drop]
        have hnext := hfollow.snoc ((u.picture.bytes.drop u.sent).take PICTURE_PART) hoffset (by omega) (by omega)
        have hend : u.sent + ((u.picture.bytes.drop u.sent).take PICTURE_PART).length =
            min u.picture.bytes.length (u.sent + PICTURE_PART) := by omega
        rw [hend] at hnext
        have hparts : Follow r.offer.id r.offer.size.toNat r.bytes.length
            (ps ++ [.part u.id (.ofNat u.sent) ((u.picture.bytes.drop u.sent).take PICTURE_PART)])
            (min u.picture.bytes.length (u.sent + PICTURE_PART)) := by
          rw [hoffer, hsize]
          exact hnext
        refine { hflows with parts := .inr ⟨r, _, hr, hparts⟩, present := fun u' hu' => ?_ }
        · obtain rfl := Option.some.inj hu'
          exact ⟨(hflows.present u hu).1, .receives rfl r hr hnext htells⟩
    · refine ⟨.inl rfl, ?_⟩
      rw [List.append_nil]
      exact hflows
  · refine ⟨.inl rfl, ?_⟩
    rw [List.append_nil]
    exact hflows

/-- An answer about another picture changes nothing. -/
theorem View.pictureState_other (hother : ∀ u, v.upload = some u → u.id ≠ state.id) : v.pictureState state = v := by
  have hfilter : (v.upload.filter fun u => u.id = state.id) = none := by
    cases hu : v.upload with
    | none => rfl
    | some u =>
      rw [Option.filter_some, if_neg]
      simpa using hother u hu
  rw [View.pictureState, hfilter]

theorem Stage.pop {rest : List PictureState} (hstage : Stage h ps os u) (hsent : h.sent = state :: rest)
    (hother : state.id ≠ u.id) : Stage { h with sent := rest } ps os u := by
  have hmem : ∀ s ∈ rest, s ∈ h.sent := fun s hs => hsent ▸ List.mem_cons_of_mem _ hs
  have hpop : ∀ {low high : Nat}, Tells u.id low h.sent high → Tells u.id low rest high := by
    intro low high htells
    rwa [hsent, Tells, if_neg fun hno => hother hno.1] at htells
  cases hstage with
  | waits hos huntouched => exact .waits hos { huntouched with unheard := fun s hs => huntouched.unheard s (hmem s hs) }
  | asks hos hanswer huntouched =>
    exact .asks hos hanswer { huntouched with unheard := fun s hs => huntouched.unheard s (hmem s hs) }
  | receives hos r hr hfollow htells => exact .receives hos r hr hfollow (hpop htells)
  | done hos hpicture hanswer htells hover =>
    exact .done hos hpicture hanswer (hpop htells) (hover.imp_right fun ⟨hnot, hall⟩ => ⟨hnot, fun s hs => hall s (hmem s hs)⟩)

/-- The host tells that it has more of the picture. -/
theorem Stage.heard {rest : List PictureState} (hstage : Stage h ps os u) (hsent : h.sent = state :: rest)
    (hthis : state.id = u.id ∧ state.step = .receiving) :
    u.received ≤ state.received.toNat ∧ state.received.toNat ≤ u.sent ∧
      Stage { h with sent := rest } ps os { u with received := state.received.toNat, asked := true } := by
  have hfirst : state ∈ h.sent := hsent ▸ List.mem_cons_self
  have hpop : ∀ {low high : Nat}, Tells u.id low h.sent high →
      low ≤ state.received.toNat ∧ Tells u.id state.received.toNat rest high := by
    intro low high htells
    rwa [hsent, Tells, if_pos hthis] at htells
  cases hstage with
  | waits hos huntouched => exact absurd hthis.1 (huntouched.unheard state hfirst)
  | asks hos hanswer huntouched => exact absurd hthis.1 (huntouched.unheard state hfirst)
  | receives hos r hr hfollow htells =>
    obtain ⟨hlow, hrest⟩ := hpop htells
    exact ⟨hlow, Nat.le_trans hrest.le hfollow.le, .receives hos r hr hfollow hrest⟩
  | done hos hpicture hanswer htells hover =>
    obtain ⟨hlow, hrest⟩ := hpop htells
    refine ⟨hlow, hrest.le, .done hos hpicture hanswer hrest (.inl ?_)⟩
    exact hover.resolve_right fun ⟨_, hall⟩ => hall state hfirst hthis

/-- The view takes the next answer. -/
theorem Flows.hear (hflows : Flows v h ps os) {rest : List PictureState} (hsent : h.sent = state :: rest) :
    Flows (v.pictureState state) { h with sent := rest } ps os := by
  have hheard : ∀ s ∈ rest, s.id ∈ h.offers.map (·.id) := fun s hs => hflows.heard s (hsent ▸ List.mem_cons_of_mem _ hs)
  by_cases hother : ∀ u, v.upload = some u → u.id ≠ state.id
  · rw [View.pictureState_other hother]
    refine { hflows with heard := hheard, present := fun u hu => ⟨(hflows.present u hu).1, ?_⟩ }
    exact (hflows.present u hu).2.pop hsent fun heq => hother u hu heq.symm
  · push Not at hother
    obtain ⟨u, hu, hid⟩ := hother
    have hfilter : (v.upload.filter fun u => u.id = state.id) = some u := by
      rw [hu, Option.filter_some, if_pos (decide_eq_true hid)]
    have hnone : ∀ told, Flows { v with upload := none, told := told } { h with sent := rest } ps os := fun told =>
      { hflows with heard := hheard, present := fun _ hno => by cases hno }
    rw [View.pictureState, hfilter]
    dsimp only
    split
    · next hstep =>
      obtain ⟨hlow, hhigh, hstage⟩ := (hflows.present u hu).2.heard hsent ⟨hid.symm, hstep⟩
      rw [if_neg (by omega)]
      refine { hflows with heard := hheard, present := fun u' hu' => ?_ }
      obtain rfl := Option.some.inj hu'
      exact ⟨(hflows.present u hu).1, hstage⟩
    · exact hnone _
    · exact hnone _

/-! ### The host's steps -/

theorem Untouched.snoc {sent : List PictureState} {u : Upload sha} (huntouched : Untouched sent u) {state : PictureState}
    (hother : state.id ≠ u.id) : Untouched (sent ++ [state]) u :=
  { huntouched with
    unheard := fun s hs => by
      rcases List.mem_append.mp hs with hold | hnew
      · exact huntouched.unheard s hold
      · exact List.mem_singleton.mp hnew ▸ hother }

/-- Offers that the host took are not the one that is on its way. -/
theorem Flows.apart (hflows : Flows v h ps os) (hos : os ≠ []) (hu : v.upload = some u) :
    ∀ o ∈ h.offers, o.id ≠ u.id := by
  intro o ho heq
  have hlast := (hflows.present u hu).1
  rw [List.getLast?_append_of_ne_nil _ hos] at hlast
  have hin : u.id ∈ os.map (·.id) := List.mem_map.mpr ⟨_, List.mem_of_getLast? hlast, rfl⟩
  have hdistinct := hflows.distinct
  rw [List.map_append] at hdistinct
  exact (List.nodup_append.mp hdistinct).2.2 o.id (List.mem_map_of_mem ho) u.id hin heq

/-- The host takes an offer. -/
theorem Flows.receiveOffer {o : PictureOffer} (hflows : Flows v h [] (o :: os)) : Flows v (h.offered o) [] os := by
  obtain ⟨hdigest, hpos, hmax⟩ := hflows.valid o (List.mem_append_right _ List.mem_cons_self)
  obtain ⟨digest, hdigest⟩ := Option.isSome_iff_exists.mp hdigest
  have hfilter : ((pictureDigest o.sha256).filter fun _ => 0 < o.size.toNat ∧ o.size.toNat ≤ TERMINAL_PICTURE_MAX_BYTES) =
      some digest := by rw [hdigest, Option.filter_some, if_pos (decide_eq_true ⟨hpos, hmax⟩)]
  have happend : h.offers ++ [o] ++ os = h.offers ++ o :: os := by rw [List.append_assoc, List.singleton_append]
  rw [Host.offered, hfilter]
  refine ⟨hflows.hostGoes, hflows.viewGoes, .inl rfl, ?_, ?_, ?_, fun s hs => ?_, fun u hu => ?_⟩
  · exact happend ▸ hflows.valid
  · exact happend ▸ hflows.ids
  · exact happend ▸ hflows.distinct
  · have hold := hflows.heard s hs
    exact List.map_append ▸ List.mem_append_left _ hold
  · obtain ⟨hlast, hstage⟩ := hflows.present u hu
    refine ⟨happend ▸ hlast, ?_⟩
    cases hstage with
    | waits hos huntouched =>
      by_cases hlater : os = []
      · exact .asks hlater rfl huntouched
      · exact .waits hlater huntouched
    | asks hos hanswer huntouched => cases hos
    | receives hos r hr hfollow htells => cases hos
    | done hos hpicture hanswer htells hover => cases hos

/-- What pasting does: the terminal has the picture, or the view hears that it is damaged. -/
theorem Host.paste_frame {r : Receiving} (hanswer : h.pictureAnswer = none) :
    (h.paste r).picture = h.picture ∧ (h.paste r).ended = h.ended ∧ (h.paste r).offers = h.offers ∧
      (h.paste r).pictureAnswer.map (·.whole) ≠ some false ∧
        ∃ more, (h.paste r).sent = h.sent ++ more ∧ ∀ s ∈ more, s.id = r.offer.id ∧ s.step = .refused := by
  rw [Host.paste.eq_def]
  split
  · refine ⟨rfl, rfl, rfl, ?_, _, rfl, fun s hs => ?_⟩
    · rw [Host.pictureAnswered, Host.send, hanswer]
      exact fun hno => by cases hno
    · rw [List.mem_singleton.mp hs]
      exact ⟨rfl, rfl⟩
  · exact ⟨rfl, rfl, rfl, by simp [Host.submitPicture], [], (List.append_nil _).symm, fun s hs => by cases hs⟩

/-- A picture is not on its way while older offers are. -/
theorem Stage.untouched (hstage : Stage h ps os u) (hos : os ≠ []) : Untouched h.sent u := by
  cases hstage with
  | waits _ huntouched => exact huntouched
  | asks hno _ _ => exact absurd hno hos
  | receives hno _ _ _ _ => exact absurd hno hos
  | done hno _ _ _ _ => exact absurd hno hos

/-- The host takes a part, which is the next one of the picture that it asked for. -/
theorem Flows.receivePart (hsound : h.Sound) {offset : UInt64} {bytes : Bytes}
    (hflows : Flows v h (.part id offset bytes :: ps) os) (elapsed : UInt64) :
    Flows v (h.part id offset bytes elapsed) ps os := by
  obtain ⟨r, last, hr, rfl, hoffset, hpos, hfits, hrest⟩ := hflows.parts.resolve_left (List.cons_ne_nil _ _)
  have hmem : r.offer ∈ h.offers := List.mem_of_getLast? (hsound.latest hr)
  have hvalid := hflows.valid r.offer (List.mem_append_left _ hmem)
  have hanswer := hsound.alone.resolve_left (by rw [hr]; exact Option.some_ne_none r)
  have hmax : TERMINAL_PICTURE_MAX_BYTES < 2 ^ 64 := by decide
  have hlength : (r.bytes ++ bytes).length = r.bytes.length + bytes.length := List.length_append
  have hreceived : (UInt64.ofNat (r.bytes ++ bytes).length).toNat = (r.bytes ++ bytes).length :=
    UInt64.toNat_ofNat_of_lt' (Nat.lt_of_le_of_lt (Nat.le_trans (hlength ▸ hfits) hvalid.2.2) hmax)
  rw [Host.part, hr, Option.filter_some, if_pos (decide_eq_true ⟨rfl, hoffset⟩)]
  dsimp only
  rw [if_neg (by omega)]
  generalize hstate : (⟨r.offer.id, .ofNat (r.bytes ++ bytes).length, elapsed, .receiving, ""⟩ : PictureState) = state
  have hid : state.id = r.offer.id := by rw [← hstate]
  have hstep : state.step = .receiving := by rw [← hstate]
  have hcount : state.received.toNat = (r.bytes ++ bytes).length := by rw [← hstate]; exact hreceived
  have hheard : ∀ s ∈ h.sent ++ [state], s.id ∈ h.offers.map (·.id) := by
    intro s hs
    rcases List.mem_append.mp hs with hold | hnew
    · exact hflows.heard s hold
    · rw [List.mem_singleton.mp hnew, hid]
      exact List.mem_map_of_mem hmem
  have hwaits : os ≠ [] → ∀ u, v.upload = some u → ∀ s ∈ h.sent ++ [state], s.id ≠ u.id := by
    intro hos u hu
    refine (((hflows.present u hu).2.untouched hos).snoc ?_).unheard
    exact hid ▸ hflows.apart hos hu r.offer hmem
  -- The view's picture is the one that the host receives, when no other offer is on its way.
  have hthis : os = [] → ∀ u, v.upload = some u → u.id = r.offer.id ∧ r.offer.size.toNat = u.picture.bytes.length ∧
      Follow u.id u.picture.bytes.length (r.bytes ++ bytes).length ps u.sent ∧
        Tells u.id u.received (h.sent ++ [state]) (r.bytes ++ bytes).length := by
    intro hos u hu
    obtain ⟨hlast, hstage⟩ := hflows.present u hu
    rw [hos, List.append_nil, hsound.latest hr] at hlast
    have hoffer := Option.some.inj hlast
    cases hstage with
    | waits hno huntouched => exact absurd hos hno
    | asks hno hasked huntouched =>
      rw [hanswer] at hasked
      cases hasked
    | done hno hpicture hover htells hend =>
      rw [hr] at hpicture
      cases hpicture
    | receives _ r' hr' hfollow htells =>
      obtain rfl := Option.some.inj (hr.symm.trans hr')
      refine ⟨by rw [hoffer]; rfl, by rw [hoffer, View.size_offerOf], ?_, ?_⟩
      · rw [hlength]
        exact hfollow.2.2.2.2
      · rw [← hcount]
        refine htells.snoc ⟨?_, hstep⟩ (by omega)
        rw [hid, hoffer]
        rfl
  split
  · next hall =>
    have hps : ps = [] := by
      rw [← hlength, hall] at hrest
      exact hrest.nil_of_end
    have hframe := Host.paste_frame (h := { h.send state with picture := none })
      (r := { r with bytes := r.bytes ++ bytes, parts := r.parts ++ [(offset.toNat, bytes)] }) hanswer
    obtain ⟨hpicture, hended, hoffers, hwhole, more, hsent, hmore⟩ := hframe
    -- After the last part the view hears nothing about bytes.
    have hover : ∀ u : Upload sha, ∀ s ∈ more, ¬ (s.id = u.id ∧ s.step = .receiving) := by
      intro u s hs hno
      rw [(hmore s hs).2] at hno
      exact PictureStep.noConfusion hno.2
    refine ⟨hended.trans hflows.hostGoes, hflows.viewGoes, .inl hps, ?_, ?_, ?_, ?_, fun u hu => ⟨?_, ?_⟩⟩
    · exact hoffers.symm ▸ hflows.valid
    · exact hoffers.symm ▸ hflows.ids
    · exact hoffers.symm ▸ hflows.distinct
    · rw [hsent, hoffers]
      intro s hs
      rcases List.mem_append.mp hs with hold | hnew
      · exact hheard s hold
      · rw [(hmore s hnew).1]
        exact List.mem_map_of_mem hmem
    · exact hoffers.symm ▸ (hflows.present u hu).1
    · by_cases hos : os = []
      · obtain ⟨-, hsize, hfollow, htells⟩ := hthis hos u hu
        have hend : u.sent = u.picture.bytes.length := by
          rw [hps] at hfollow
          rw [← hsize, ← hall]
          exact hfollow.symm
        refine .done hos hpicture hwhole ?_ (.inl hend)
        rw [hsent, hend, ← hsize, ← hall]
        exact htells.others (hover u)
      · refine .waits hos { (hflows.present u hu).2.untouched hos with unheard := ?_ }
        rw [hsent]
        intro s hs
        rcases List.mem_append.mp hs with hold | hnew
        · exact hwaits hos u hu s hold
        · rw [(hmore s hnew).1]
          exact hflows.apart hos hu r.offer hmem
  · next hmore =>
    refine ⟨hflows.hostGoes, hflows.viewGoes, .inr ⟨_, last, rfl, ?_⟩, hflows.valid, hflows.ids, hflows.distinct, hheard,
      fun u hu => ⟨(hflows.present u hu).1, ?_⟩⟩
    · rw [hlength]
      exact hrest
    · by_cases hos : os = []
      · obtain ⟨-, -, hfollow, htells⟩ := hthis hos u hu
        exact .receives hos _ rfl hfollow htells
      · exact .waits hos { (hflows.present u hu).2.untouched hos with unheard := hwaits hos u hu }

/-- The view hears that its picture is pasted, or is not taken. -/
theorem Flows.say (hsound : h.Sound) (hflows : Flows v h ps os) {a : Answer} (ha : h.pictureAnswer = some a)
    (hid : state.id = a.offer.id) (hstep : state.step ≠ .receiving) :
    Flows v ({ h with pictureAnswer := none }.send state) ps os := by
  have hmem : a.offer ∈ h.offers := List.mem_of_getLast? (hsound.latest_answer ha)
  have hpicture := hsound.alone.resolve_right (by rw [ha]; exact Option.some_ne_none a)
  refine { hflows with heard := fun s hs => ?_, present := fun u hu => ?_ }
  · rcases List.mem_append.mp hs with hold | hnew
    · exact hflows.heard s hold
    · rw [List.mem_singleton.mp hnew, hid]
      exact List.mem_map_of_mem hmem
  · obtain ⟨hlast, hstage⟩ := hflows.present u hu
    refine ⟨hlast, ?_⟩
    have hother : ¬ (state.id = u.id ∧ state.step = .receiving) := fun hno => hstep hno.2
    cases hstage with
    | waits hos huntouched => exact .waits hos (huntouched.snoc (hid ▸ hflows.apart hos hu a.offer hmem))
    | asks hos hasked huntouched =>
      refine .done hos hpicture (fun hno => by cases hno) ?_ (.inr ⟨huntouched.asked, fun s hs => ?_⟩)
      · rw [huntouched.received, huntouched.unsent]
        exact (Tells.of_none (Nat.le_refl 0) huntouched.unheard).other hother
      · rcases List.mem_append.mp hs with hold | hnew
        · exact fun hno => huntouched.unheard s hold hno.1
        · exact List.mem_singleton.mp hnew ▸ hother
    | receives hos r hr hfollow htells =>
      rw [hpicture] at hr
      cases hr
    | done hos _ hanswer htells hover =>
      refine .done hos hpicture (fun hno => by cases hno) (htells.other hother) (hover.imp_right fun ⟨hnot, hall⟩ => ?_)
      refine ⟨hnot, fun s hs => ?_⟩
      rcases List.mem_append.mp hs with hold | hnew
      · exact hall s hold
      · exact List.mem_singleton.mp hnew ▸ hother

/-- The host asks for the parts of the picture. -/
theorem Flows.ask (hsound : h.Sound) (hflows : Flows v h ps os) {a : Answer} (ha : h.pictureAnswer = some a)
    (hwhole : a.whole = false) (hid : state.id = a.offer.id) (hstep : state.step = .receiving)
    (hnone : state.received.toNat = 0) :
    Flows v ({ h with pictureAnswer := none, picture := some ⟨a.offer, [], a.number, []⟩ }.send state) ps os := by
  have hmem : a.offer ∈ h.offers := List.mem_of_getLast? (hsound.latest_answer ha)
  have hpicture := hsound.alone.resolve_right (by rw [ha]; exact Option.some_ne_none a)
  have hps : ps = [] := by
    refine hflows.parts.resolve_right fun ⟨r, last, hr, _⟩ => ?_
    rw [hpicture] at hr
    cases hr
  have hasked : h.pictureAnswer.map (·.whole) = some false := by rw [ha, Option.map_some, hwhole]
  refine { hflows with parts := .inl hps, heard := fun s hs => ?_, present := fun u hu => ?_ }
  · rcases List.mem_append.mp hs with hold | hnew
    · exact hflows.heard s hold
    · rw [List.mem_singleton.mp hnew, hid]
      exact List.mem_map_of_mem hmem
  · obtain ⟨hlast, hstage⟩ := hflows.present u hu
    refine ⟨hlast, ?_⟩
    cases hstage with
    | waits hos huntouched => exact .waits hos (huntouched.snoc (hid ▸ hflows.apart hos hu a.offer hmem))
    | asks hos _ huntouched =>
      rw [hos, List.append_nil, hsound.latest_answer ha] at hlast
      have hoffer := Option.some.inj hlast
      refine .receives hos _ rfl ?_ ?_
      · rw [hps, huntouched.unsent]
        exact rfl
      · rw [huntouched.received]
        have hthis : state.id = u.id ∧ state.step = .receiving := ⟨by rw [hid, hoffer]; rfl, hstep⟩
        have htells := (Tells.of_none (Nat.le_refl 0) huntouched.unheard).snoc hthis (Nat.zero_le _)
        rwa [hnone] at htells
    | receives hos r hr hfollow htells =>
      rw [hpicture] at hr
      cases hr
    | done hos _ hanswer htells hover => exact absurd hasked hanswer

theorem Flows.pictureAnswered (hsound : h.Sound) (hflows : Flows v h ps os) {a : Answer} (ha : h.pictureAnswer = some a)
    {answer : Except String Bool} (hmissing : answer = .ok false → a.whole = false) (memory : Bool) :
    Flows v ({ h with pictureAnswer := none }.pictureAnswered a.offer a.number answer memory) ps os := by
  rw [Host.pictureAnswered.eq_def]
  split
  · exact hflows.say hsound ha rfl fun hno => PictureStep.noConfusion hno
  · exact hflows.say hsound ha rfl fun hno => PictureStep.noConfusion hno
  · split
    · exact hflows.ask hsound ha (hmissing rfl) rfl rfl rfl
    · exact hflows.say hsound ha rfl fun hno => PictureStep.noConfusion hno

theorem Flows.answered (hsound : h.Sound) (hflows : Flows v h ps os) (memory : Bool) : Flows v (h.answered memory) ps os := by
  rw [Host.answered.eq_def]
  split
  · next offer whole ticket reply number ha =>
    refine hflows.pictureAnswered hsound ha (fun hmissing => ?_) memory
    cases whole with
    | false => rfl
    | true => cases reply <;> cases hmissing
  · exact hflows

theorem Flows.unanswered (hsound : h.Sound) (hflows : Flows v h ps os) : Flows v h.unanswered ps os := by
  rw [Host.unanswered.eq_def]
  split
  · next a ha => exact hflows.pictureAnswered hsound ha (fun hno => by cases hno) false
  · exact hflows

/-! ### Runs -/

/-- What holds between both ends of a connection that goes on. -/
structure Connection.Goes (c : Connection sha) : Prop where
  sound : c.host.Sound
  flows : ∃ ps os, c.up = ps ++ os.map .picture ∧ Flows c.view c.host ps os

namespace Connection

variable {c : Connection sha}

theorem Goes.new : Goes (Connection.new sha) := by
  refine ⟨.new, [], [], rfl, rfl, rfl, .inl rfl, ?_, ?_, List.nodup_nil, ?_, fun u hu => by cases hu⟩
  · exact fun o ho => by cases ho
  · exact fun o ho => by cases ho
  · exact fun s hs => by cases hs

/-- The parts on their way to the host come before the offers. -/
theorem Goes.receive (hgoes : c.Goes) (elapsed : UInt64) : (c.receive elapsed).Goes := by
  obtain ⟨hsound, ps, os, hup, hflows⟩ := hgoes
  have hopen : ¬ c.host.ended.isSome := by rw [hflows.hostGoes]; exact Bool.false_ne_true
  rw [Connection.receive.eq_def]
  split
  · exact ⟨hsound, ps, os, hup, hflows⟩
  · next offer rest heq =>
    refine ⟨hsound.step (.offered offer), ?_⟩
    obtain rfl : ps = [] := by
      rcases hflows.parts with hps | ⟨r, last, -, hfollow⟩
      · exact hps
      · cases ps with
        | nil => rfl
        | cons p more =>
          obtain ⟨rfl, -⟩ := List.cons_eq_cons.mp (heq.symm.trans hup)
          exact hfollow.elim
    cases os with
    | nil => exact absurd (heq.symm.trans hup) (List.cons_ne_nil _ _)
    | cons o os =>
      obtain ⟨ho, hrest⟩ := List.cons_eq_cons.mp (heq.symm.trans hup)
      obtain rfl := Packet.picture.inj ho
      refine ⟨[], os, hrest, ?_⟩
      rw [Host.step, if_neg hopen]
      exact hflows.receiveOffer
  · next id offset bytes rest heq =>
    refine ⟨hsound.step (.part id offset bytes elapsed), ?_⟩
    cases ps with
    | nil =>
      have hmem : Packet.part id offset bytes ∈ os.map Packet.picture := by
        rw [List.nil_append] at hup
        rw [← hup, heq]
        exact List.mem_cons_self
      obtain ⟨o, -, hno⟩ := List.mem_map.mp hmem
      cases hno
    | cons p ps =>
      obtain ⟨rfl, hrest⟩ := List.cons_eq_cons.mp (heq.symm.trans hup)
      refine ⟨ps, os, hrest, ?_⟩
      rw [Host.step, if_neg hopen]
      exact hflows.receivePart hsound elapsed

theorem Goes.step (hsha : ∀ bytes, (sha bytes).length = 32) (hgoes : c.Goes) {e : Happening sha} (hallowed : Allowed c e) :
    (c.step e).Goes := by
  obtain ⟨hsound, ps, os, hup, hflows⟩ := id hgoes
  have hopen : ¬ c.host.ended.isSome := by rw [hflows.hostGoes]; exact Bool.false_ne_true
  cases e with
  | offer id picture =>
    obtain ⟨os', hnew, hnext⟩ := hflows.offer hsha hallowed picture
    refine ⟨hsound, ps, os ++ os', ?_, hnext⟩
    rw [Connection.step, hnew, hup, List.map_append, List.append_assoc]
  | sendPart room =>
    obtain ⟨hfree, hnext⟩ := hflows.sendPart hsound room
    refine ⟨hsound, ps ++ (c.view.sendPart room).2, os, ?_, hnext⟩
    rw [Connection.step, hup]
    rcases hfree with hnone | rfl
    · rw [hnone, List.append_nil, List.append_nil]
    · rw [List.map_nil, List.append_nil, List.append_nil]
  | giveUp => exact ⟨hsound, ps, os, hup, hflows.giveUp⟩
  | hear =>
    rw [Connection.step, Connection.hear.eq_def]
    split
    · exact hgoes
    · next state rest hsent => exact ⟨{ hsound with }, ps, os, hup, hflows.hear hsent⟩
  | receive elapsed => exact hgoes.receive elapsed
  | host event =>
    refine ⟨hsound.step event, ps, os, hup, ?_⟩
    by_cases haside : event.Aside
    · exact hflows.same (.aside c.host haside)
    · cases event with
      | offered offer => exact hallowed.elim
      | part id offset bytes elapsed => exact hallowed.elim
      | lost message => exact hallowed.elim
      | answered memory =>
        rw [Connection.step, Host.step, if_neg hopen]
        exact hflows.answered hsound memory
      | unanswered =>
        rw [Connection.step, Host.step, if_neg hopen]
        exact hflows.unanswered hsound
      | _ => exact absurd trivial haside

theorem goes_of_run (hsha : ∀ bytes, (sha bytes).length = 32) {es : List (Happening sha)}
    (hrun : Run.Allows Allowed step (new sha) es) : Goes (es.foldl step (new sha)) := by
  have hruns := Run.of_allows hrun
  refine Run.invariant (I := Goes) (fun {c e d} hgoes hnext => ?_) hruns Goes.new
  obtain ⟨hallowed, rfl⟩ := hnext
  exact hgoes.step hsha hallowed

end Connection

end Kodosi.Connections.Pictures
