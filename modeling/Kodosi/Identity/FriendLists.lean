import Kodosi.Identity.Friends

/-! The devices of an account and its list of friends on the server: each device reads the list, changes it and puts it
    back with the revision that it has read, and keeps the newest list that it knows. What the devices do may
    interleave wherever a call waits. -/

namespace Kodosi.Identity
open Kodosi.Lib

abbrev Friends := Std.ExtTreeMap String Friend

/-- A change of the list, and whether it changed something. -/
abbrev Change := Friends → Friends × Bool

/-- What a call is for. A change is tried again after a conflict, as often as it says. -/
inductive Goal where
  | sync
  | change (change : Change) (tries : Nat)
  | resign

/-- What the change of a call makes of the friends. A list that is signed anew has the same ones. -/
def Goal.applied : Goal → Change
  | .change f _ => f
  | _ => fun friends => (friends, false)

/-- Why a list is put: the server has none, or one that the device does not take, or the call wants it. -/
inductive Cause where
  | missing
  | repair (kept : Option FriendList) (stored : FriendList) (approved : Bool)
  | wanted

/-- Where a call waits. -/
inductive Phase where
  | reading
  | asking (kept : Option FriendList)
  | checking (kept : Option FriendList) (stored : FriendList)
  | keeping (stored : FriendList)
  | putting (list : FriendList) (expected : Nat) (cause : Cause)
  | storing (list : FriendList) (cause : Cause)

structure Call where
  device : String
  goal : Goal
  phase : Phase

/-- What a device had of a list that a server answered with, and whether it took it. -/
structure Heard where
  kept : Nat
  revision : Nat
  taken : Bool

/-- A list of a signer that is not approved, another in its place, and what the device knew then. -/
structure Replaced where
  known : Friends
  current : Friends
  put : Friends

/-- An account: the lists that the server was given, the newest at the end, the approved devices, what each device
    keeps, the calls that run, and what happened. -/
structure Account where
  lists : List FriendList
  approved : List String
  kept : String → Option FriendList
  calls : Nat → Option Call
  changes : List Change
  stores : List (Nat × Nat)
  heard : List Heard
  replaced : List Replaced

def Account.new : Account where
  lists := []
  approved := []
  kept _ := none
  calls _ := none
  changes := []
  stores := []
  heard := []
  replaced := []

def keptRevision (kept : Option FriendList) : Nat := kept.elim 0 FriendList.revision

def friendsOf (list : Option FriendList) : Friends := list.elim ∅ FriendList.friends

/-! ### The server -/

inductive Refusal where
  | invalid
  | conflict

/-- `ReplaceSignedListAsync`, for a server that compares and sets at once. -/
def replaceSignedList (lists : List FriendList) (list : FriendList) (expected : Nat) :
    Except Refusal (List FriendList) :=
  if list.revision ≤ expected then .error .invalid
  else if keptRevision lists.getLast? ≠ expected then .error .conflict
  else .ok (lists ++ [list])

/-! ### Calls -/

namespace Account

variable (J : JsonText) (user : String)

def goto (id : Nat) (call : Call) (phase : Phase) (a : Account) : Account :=
  { a with calls := Function.update a.calls id (some { call with phase }) }

/-- The call returns, with a result or an error. -/
def finish (id : Nat) (a : Account) : Account := { a with calls := Function.update a.calls id none }

/-- Signs the list and puts it, if it is not too large. -/
def putFriends (id : Nat) (call : Call) (list : FriendList) (revision expected : Nat) (cause : Cause) (a : Account) :
    Account :=
  let list : FriendList := { list with revision, signerDeviceId := call.device }
  match list.body J with
  | .error _ => a.finish id
  | .ok _ => a.goto id call (.putting list expected cause)

/-- What a call does with the list of `sync_friends` and the revision that the server has. -/
def synced (id : Nat) (call : Call) (list : FriendList) (stored : Nat) (a : Account) : Account :=
  match call.goal with
  | .sync => a.finish id
  | .change change _ =>
    if (change list.friends).2 then
      putFriends J id call { list with friends := (change list.friends).1 } (max list.revision stored + 1) stored
        .wanted a
    else a.finish id
  | .resign => if 0 < stored then putFriends J id call list (stored + 1) stored .wanted a else a.finish id

/-- The server has answered with a list, or has none. -/
def answered (id : Nat) (call : Call) (kept : Option FriendList) (a : Account) : Option FriendList → Account
  | none =>
    let list := kept.getD (.new user)
    if keptRevision kept = 0 then synced J id call list 0 a
    else putFriends J id call list (keptRevision kept) 0 .missing a
  | some stored => a.goto id call (.checking kept stored)

/-- The list is taken if an approved device signed it and it is not older than the one that the call has read. -/
def check (id : Nat) (call : Call) (kept : Option FriendList) (stored : FriendList) (a : Account) : Account :=
  let approved := decide (stored.signerDeviceId ∈ a.approved)
  let taken := approved && keptRevision kept ≤ stored.revision
  let a : Account := { a with heard := a.heard ++ [⟨keptRevision kept, stored.revision, taken⟩] }
  if taken then a.goto id call (.keeping stored)
  else putFriends J id call (kept.getD (.new user)) (max (keptRevision kept) stored.revision + 1) stored.revision
    (.repair kept stored approved) a

/-- The device keeps a list from now on. -/
def keep (device : String) (list : FriendList) (a : Account) : Account :=
  { a with
    kept := Function.update a.kept device (some list)
    stores := a.stores ++ [(keptRevision (a.kept device), list.revision)] }

/-- The server takes a list. -/
def took (call : Call) (list : FriendList) (cause : Cause) (a : Account) : Account :=
  { a with
    lists := a.lists ++ [list]
    changes := a.changes ++ [call.goal.applied]
    replaced := match cause with
      | .repair _ _ false =>
        a.replaced ++ [⟨friendsOf (a.kept call.device), friendsOf a.lists.getLast?, list.friends⟩]
      | _ => a.replaced }

/-- The server answers a put. After a conflict a change starts over, unless it did so too often; the answer may get
    lost. -/
def put (id : Nat) (call : Call) (list : FriendList) (expected : Nat) (cause : Cause) (lost : Bool) (a : Account) :
    Account :=
  match replaceSignedList a.lists list expected with
  | .ok _ =>
    let a := a.took call list cause
    if lost then a.finish id else a.goto id call (.storing list cause)
  | .error .invalid => a.finish id
  | .error .conflict => match cause, call.goal with
    | .wanted, .change change (tries + 1) => a.goto id { call with goal := .change change tries } .reading
    | _, _ => a.finish id

/-- The list that was put is kept. -/
def store (id : Nat) (call : Call) (list : FriendList) (cause : Cause) (a : Account) : Account :=
  let a := a.keep call.device list
  match cause with
  | .wanted => a.finish id
  | _ => synced J id call list list.revision a

end Account

/-! ### Steps -/

inductive FriendEvent where
  | approve (device : String)
  | revoke (device : String)
  | call (id : Nat) (device : String) (goal : Goal)
  | read (id : Nat)
  /-- The server answers with the list of that place; an honest one with the last. -/
  | answer (id : Nat) (place : Nat)
  | check (id : Nat)
  | keep (id : Nat)
  | put (id : Nat) (lost : Bool)
  | store (id : Nat)
  /-- The call fails, or the program ends. -/
  | fail (id : Nat)

namespace Account

variable (J : JsonText) (user : String)

def turn (id : Nat) (a : Account) (f : Call → Account) : Account := (a.calls id).elim a f

def step (a : Account) : FriendEvent → Account
  | .approve device => { a with approved := device :: a.approved }
  | .revoke device => { a with approved := a.approved.filter (· ≠ device) }
  | .call id device goal => match a.calls id with
    | none => a.goto id ⟨device, goal, .reading⟩ .reading
    | some _ => a
  | .read id => a.turn id fun call => match call.phase with
    | .reading => a.goto id call (.asking (a.kept call.device))
    | _ => a
  | .answer id place => a.turn id fun call => match call.phase with
    | .asking kept => answered J user id call kept a a.lists[place]?
    | _ => a
  | .check id => a.turn id fun call => match call.phase with
    | .checking kept stored => check J user id call kept stored a
    | _ => a
  | .keep id => a.turn id fun call => match call.phase with
    | .keeping stored => synced J id call stored stored.revision (a.keep call.device stored)
    | _ => a
  | .put id lost => a.turn id fun call => match call.phase with
    | .putting list expected cause => put id call list expected cause lost a
    | _ => a
  | .store id => a.turn id fun call => match call.phase with
    | .storing list cause => store J id call list cause a
    | _ => a
  | .fail id => a.finish id

end Account

end Kodosi.Identity
