import Kodosi.Connections.PicturesOffered

/-! A host pastes only pictures that were offered, each offer's once, and what comes for an older offer does not reach the
    present one. -/

namespace Kodosi.Connections.Pictures
open Kodosi.Lib Kodosi.Wire

variable {sha : Bytes → Bytes} {h : Host sha} {c : Connection sha}

/-- What was pasted is right, no offer's picture was pasted twice, and the host does not hear an answer for a picture of
    another offer than the one that it waits for. -/
structure Host.PastesOffered (h : Host sha) : Prop where
  right : ∀ p ∈ h.terminal.pasted, p.Right h.offers
  once : (h.terminal.pasted.map (·.request.offer)).Nodup
  late : ∀ r ∈ h.requests, (∀ a, h.pictureAnswer = some a → r.offer ≠ a.number) → ∀ answer, h.reply r.ticket answer = h

theorem Host.Sound.pastesOffered (h' : h.Sound) : h.PastesOffered where
  right := h'.right
  once := by
    have honce := h'.once
    simp only [chances, List.append_assoc] at honce
    exact honce.of_append_left
  late r hr hother answer := by
    unfold Host.reply
    split
    · next a ha => rw [if_neg fun hticket => hother a ha ((h'.tickets r hr).2 a ha hticket.symm)]
    · rfl

/-- A part on its way to the host is the next one of the picture that the host asked for last. -/
theorem Connection.Goes.next_part (hgoes : c.Goes) {id : Uuid} {offset : UInt64} {bytes : Bytes} {rest : List Packet}
    (hup : c.up = .part id offset bytes :: rest) : ∃ r, c.host.picture = some r ∧ c.host.offers.getLast? = some r.offer ∧
      r.offer.id = id ∧ offset.toNat = r.bytes.length := by
  obtain ⟨hsound, ps, os, hparts, hflows⟩ := hgoes
  rw [hup] at hparts
  cases ps with
  | nil =>
    cases os with
    | nil => cases hparts
    | cons o os => cases hparts
  | cons p ps =>
    obtain ⟨rfl, -⟩ := List.cons_eq_cons.mp hparts
    obtain ⟨r, last, hr, hid, hoffset, -⟩ := hflows.parts.resolve_left (List.cons_ne_nil _ _)
    exact ⟨r, hr, hsound.latest hr, hid.symm, hoffset⟩

/-- A picture of six bytes with a digest of zeros. -/
def small : Picture fun _ => List.replicate 32 0 :=
  ⟨[0x47, 0x49, 0x46, 0x38, 0x37, 0x61], .gif, List.replicate 32 0, by decide, by decide, rfl⟩

theorem Host.taken_known {request : Request sha} {rest : List (Request sha)} {digest : Bytes} {format : PictureFormat}
    (hrequests : h.terminal.requests = request :: rest) (hpicture : request.picture = .known digest format)
    (hthere : (h.terminal.folder (name digest format)).isSome) :
    (h.taken none).offers = h.offers ∧ ∃ p ∈ (h.taken none).terminal.pasted, p.request = request := by
  rw [Host.taken, hrequests]
  dsimp only
  rw [hpicture]
  dsimp only
  rw [if_pos hthere]
  exact ⟨rfl, _, List.mem_append_right _ List.mem_cons_self, rfl⟩

end Kodosi.Connections.Pictures
