import Kodosi.Documents.Derive
import Kodosi.Identity.FirstDevice

/-! The list of friends of an account: one signed record of what the account knows of each friend. -/

namespace Kodosi.Identity
open Kodosi.Lib Kodosi.Derive

/-- How JSON becomes bytes and is read again. -/
structure JsonText where
  toVec : Json → Bytes
  fromSlice : Bytes → Option Json
  back : ∀ v, fromSlice (toVec v) = some v

theorem JsonText.toVec_inj (J : JsonText) {v w : Json} (h : J.toVec v = J.toVec w) : v = w := by
  have hback := J.back v
  rw [h, J.back] at hback
  exact (Option.some.inj hback).symm

def FRIEND_LIST_V1 : Bytes := utf8 "kodosi-friend-list-v1"
def MAX_BODY_LEN : Nat := 256 * 1024

/-- What an account knows of a friend: the handle, the root of the identity once it is fixed, and whether
    it was verified by an invite. -/
structure Friend where
  handle : String
  root : Option String
  verified : Bool
  deriving DecidableEq

structure FriendList where
  version : Nat
  userId : String
  revision : Nat
  signerDeviceId : String
  friends : Std.ExtTreeMap String Friend

/-- A list as the server holds it. -/
structure SignedFriendList where
  body : String
  signature : String
  deriving DecidableEq

def Friend.toJson (f : Friend) : Json :=
  .object ([("handle", .string f.handle)] ++ skipped "root" .string f.root ++ [("verified", .bool f.verified)])

namespace FriendList

def new (userId : String) : FriendList := ⟨1, userId, 0, "", ∅⟩

def toJson (l : FriendList) : Json :=
  .object [("version", writeNat l.version), ("userId", .string l.userId), ("revision", writeNat l.revision),
    ("signerDeviceId", .string l.signerDeviceId),
    ("friends", .object (l.friends.toList.map fun entry => (entry.1, entry.2.toJson)))]

/-- The bytes of the list, when there are not too many. -/
def body (J : JsonText) (l : FriendList) : Except Error Bytes := do
  let body := J.toVec l.toJson
  reject (MAX_BODY_LEN < body.length) (.invalid "The friend list is too large.")
  return body

end FriendList

def signedFriends (body : Bytes) : Bytes := FRIEND_LIST_V1 ++ body

/-! ### Different lists have different bytes -/

theorem writeNat_inj {m n : Nat} (h : writeNat m = writeNat n) : m = n := by
  have hbits : max m n < 2 ^ (max m n) := Nat.lt_two_pow_self
  have hm := readNat_write (Nat.lt_of_le_of_lt (le_max_left m n) hbits)
  have hn := readNat_write (Nat.lt_of_le_of_lt (le_max_right m n) hbits)
  rw [h] at hm
  rw [hn] at hm
  exact (Option.some.inj hm).symm

theorem Friend.toJson_inj {f g : Friend} (h : f.toJson = g.toJson) : f = g := by
  obtain ⟨handle, root, verified⟩ := f
  obtain ⟨handle', root', verified'⟩ := g
  cases root <;> cases root' <;> simp_all [Friend.toJson, skipped]

/-- The fields of an object made from a map tell the map, when its values can be told apart. -/
theorem entries_inj {ν : Type} {toJson : ν → Json} {P : ν → Prop}
    (hinj : ∀ {a b}, P a → P b → toJson a = toJson b → a = b) : ∀ {as bs : List (String × ν)},
      (∀ entry ∈ as, P entry.2) → (∀ entry ∈ bs, P entry.2) →
      as.map (fun entry => (entry.1, toJson entry.2)) = bs.map (fun entry => (entry.1, toJson entry.2)) → as = bs
  | [], [], _, _, _ => rfl
  | [], _ :: _, _, _, h => by simp at h
  | _ :: _, [], _, _, h => by simp at h
  | a :: as, b :: bs, has, hbs, h => by
    obtain ⟨ha, has'⟩ := List.forall_mem_cons.mp has
    obtain ⟨hb, hbs'⟩ := List.forall_mem_cons.mp hbs
    simp only [List.map_cons, List.cons.injEq, Prod.mk.injEq] at h
    obtain ⟨⟨hkey, hvalue⟩, hrest⟩ := h
    rw [entries_inj hinj has' hbs' hrest, Prod.ext hkey (hinj ha hb hvalue)]

theorem FriendList.toJson_inj {l m : FriendList} (h : l.toJson = m.toJson) : l = m := by
  obtain ⟨version, userId, revision, signer, friends⟩ := l
  obtain ⟨version', userId', revision', signer', friends'⟩ := m
  simp only [toJson, Documents.Value.object.injEq, List.cons.injEq, Prod.mk.injEq, true_and, and_true,
    Documents.Value.string.injEq] at h
  obtain ⟨hversion, rfl, hrevision, rfl, hfriends⟩ := h
  obtain rfl := writeNat_inj hversion
  obtain rfl := writeNat_inj hrevision
  have hlist := entries_inj (P := fun _ => True) (fun _ _ h => Friend.toJson_inj h) (fun _ _ => trivial)
    (fun _ _ => trivial) hfriends
  have : friends = friends' := Std.ExtTreeMap.ext_toList (by rw [hlist])
  rw [this]

theorem FriendList.body_inj {J : JsonText} {l m : FriendList} {body : Bytes} (hl : l.body J = .ok body)
    (hm : m.body J = .ok body) : l = m := by
  obtain ⟨-, -, hl⟩ := bind_ok hl
  obtain ⟨-, -, hm⟩ := bind_ok hm
  exact toJson_inj (J.toVec_inj ((Except.ok.inj hl).trans (Except.ok.inj hm).symm))

end Kodosi.Identity
