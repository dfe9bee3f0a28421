import Kodosi.Pdf.Model

/-! Work on whole pages: an update of the file that lists them under the root of the page tree. -/

namespace Kodosi.Pdf
open Kodosi.Lib
open Kodosi.Documents (Refused Unreadable)

variable {File F R O N V : Type}

/-- Work on whole pages, which only the server can do. -/
inductive PageWork (R : Type) where
  | order (pages : List String)
  | rotate (page : String) (degrees : Int64)
  | remove (page : String)
  | redact (page : String) (rects : List (R × R × R × R))

/-- What page work uses: the library, and what it does not look into. -/
structure Setting (File F O R N V : Type) where
  lopdf : Lopdf File F O
  floats : Floats F R
  /-- The library's own text of an error. -/
  broken : String
  /-- The name of a file among the assets. -/
  put : File → String
  redact : File → ObjectId → List (R × R × R × R) → Option File
  /-- The notes and form values of a file that has no password. -/
  fresh : File → Except Unreadable (N × V)
  /-- The notes on these pages. -/
  onPages : List String → N → N

variable (S : Setting File F O R N V)

def Setting.pages (d : Document F O) : Except Unreadable (List (Page R)) := pagesOf S.lopdf S.floats S.broken d

def Setting.failed : Refused := .invalid S.broken

/-! ### The update of a file -/

def cloneObject (d : Document F O) (new : Objects F O) (id : ObjectId) : Option (Objects F O) :=
  match new id with
  | some _ => some new
  | none => (d.objects id).map fun object => Function.update new id (some object)

def setPageList (new : Objects F O) (root : ObjectId) (order : List (Object F O)) : Option (Objects F O) := do
  let new ← order.foldlM (fun new page => page.asReference.bind fun id => new.set id "Parent" (.reference root)) new
  let new ← new.set root "Kids" (.array order)
  new.set root "Count" (.integer (if order.length < 2 ^ 63 then .ofNat order.length else 0))

/-- Does page work as an incremental update. -/
def pagesUpdate (L : Lopdf File F O) (file : File)
    (change : Objects F O → List (Object F O) → Option (Objects F O × List (Object F O))) : Option File := do
  let d ← L.load file
  let order := (L.getPages d).map Object.reference
  let root ← d.pagesRoot
  let new ← cloneObject d (fun _ => none) root
  let new ← order.foldlM (fun new page => page.asReference.bind fun id => cloneObject d new id) new
  let (new, order) ← change new order
  let new ← setPageList new root order
  return L.save file new

/-! ### Page work -/

def pageObject (m : Model File R N V) (id : String) : Except Refused ObjectId :=
  require (.invalid s!"There is no page {id}.")
    ((m.pages.find? (·.id == id)).bind fun page => (objectId page.id).filter fun known => pageId known == page.id)

/-- Degrees from 0 to 359. -/
def remEuclid360 (degrees : Int64) : Int64 := .ofInt (degrees.toInt % 360)

def doWork (m : Model File R N V) : PageWork R → Except Refused File
  | .order pages => do
    let wanted ← pages.mapM (pageObject m)
    require S.failed (pagesUpdate S.lopdf m.file fun new _ => some (new, wanted.map .reference))
  | .rotate page degrees => do
    reject (degrees % 90 ≠ 0) (.invalid "A page turns by 90, 180 or 270 degrees.")
    let id ← pageObject m page
    let current := ((m.pages.find? (·.id == page)).map (·.rotation)).getD 0
    let rotation := remEuclid360 (current + degrees)
    require S.failed (pagesUpdate S.lopdf m.file fun new order =>
      (new.set id "Rotate" (.integer rotation)).map fun new => (new, order))
  | .remove page => do
    reject (m.pages.length = 1) (.invalid "A PDF keeps its last page.")
    let id ← pageObject m page
    require S.failed (pagesUpdate S.lopdf m.file fun new order =>
      some (new, order.filter fun known => known.asReference ≠ some id))
  | .redact page rects => do
    let id ← pageObject m page
    require S.failed (S.redact m.file id rects)

def takeFile (m : Model File R N V) (bytes : File) : Except Refused (Model File R N V) := do
  let d ← require S.failed (S.lopdf.load bytes)
  match S.pages d with
  | .error error => throw (.invalid error.reason)
  | .ok pages => return { m with pages, asset := S.put bytes, file := bytes }

def read (file : File) : Except Unreadable (Model File R N V) := do
  let d ← require ⟨S.broken⟩ (S.lopdf.load file)
  let pages ← S.pages d
  let (notes, fields) ← S.fresh file
  return { file, asset := S.put file, pages, notes, fields, fileNotes := notes, fileFields := fields }

/-- Whether work can take pages or notes away. -/
def PageWork.takes : PageWork R → Bool
  | .redact _ _ | .remove _ => true
  | _ => false

/-- Page work that was done, for views to load the file again. -/
structure Worked (R : Type) where
  work : PageWork R
  asset : String
  pages : List (Page R)

def workOn (m : Model File R N V) (work : PageWork R) : Except Refused (Model File R N V × Worked R) := do
  let bytes ← doWork S m work
  let m ← takeFile S m bytes
  let m ← if work.takes then
      match S.fresh m.file with
      | .error error => throw (.invalid error.reason)
      | .ok (fileNotes, fileFields) =>
        pure { m with notes := S.onPages (m.pages.map (·.id)) m.notes, fileNotes, fileFields }
    else pure m
  return (m, ⟨work, m.asset, m.pages⟩)

/-! ### What an update leaves -/

variable {objects new : Objects F O} {id : ObjectId}

theorem Objects.set_some {key : String} {value : Object F O} (h : objects.set id key value = some new) :
    ∃ x, objects.dictionary id = some x ∧ new = Function.update objects id (some (.dictionary (x.set key value))) := by
  obtain ⟨x, hx, rfl⟩ := Option.map_eq_some_iff.mp h
  exact ⟨x, hx, rfl⟩

variable {x : Dictionary F O}

theorem Objects.dictionary_of (h : objects.dictionary id = some x) : objects id = some (.dictionary x) := by
  rw [Objects.dictionary] at h
  split at h
  · rename_i d hd
    rw [hd, Option.some.inj h]
  · exact absurd h nofun

theorem Objects.dictionary_update (objects : Objects F O) (id other : ObjectId) (x : Dictionary F O) :
    Objects.dictionary (Function.update objects id (some (.dictionary x))) other =
      if other = id then some x else objects.dictionary other := by
  by_cases h : other = id
  · subst h
    simp [Objects.dictionary]
  · simp [Objects.dictionary, h]

@[simp] theorem Dictionary.set_same (x : Dictionary F O) (key : String) (value : Object F O) :
    x.set key value key = some value := Function.update_self ..

theorem Dictionary.set_other (x : Dictionary F O) {key other : String} (h : other ≠ key) (value : Object F O) :
    x.set key value other = x other := Function.update_of_ne h ..

theorem Dictionary.set_set (x : Dictionary F O) (key : String) (value : Object F O) :
    (x.set key value).set key value = x.set key value := Function.update_idem ..

variable {d : Document F O} {out : Objects F O} {held : List ObjectId}

theorem cloneObject_some (hnew : ∀ id, new id = if id ∈ held then d.objects id else none)
    (h : cloneObject d new id = some out) (other : ObjectId) :
    out other = if other ∈ id :: held then d.objects other else none := by
  rw [cloneObject] at h
  split at h
  · rename_i object hobject
    obtain rfl := Option.some.inj h
    rw [hnew]
    by_cases hother : other = id
    · subst hother
      rw [hnew] at hobject
      split_ifs at hobject with hheld
      rw [if_pos hheld, if_pos List.mem_cons_self]
    · simp [hother]
  · obtain ⟨object, hobject, rfl⟩ := Option.map_eq_some_iff.mp h
    by_cases hother : other = id
    · subst hother
      rw [Function.update_self, if_pos List.mem_cons_self, hobject]
    · rw [Function.update_of_ne hother, hnew]
      simp [hother]

theorem cloneAll_some (ids : List ObjectId) (hnew : ∀ id, new id = if id ∈ held then d.objects id else none)
    (h : (ids.map Object.reference).foldlM
      (fun new (page : Object F O) => page.asReference.bind fun id => cloneObject d new id) new = some out)
    (id : ObjectId) : out id = if id ∈ ids ∨ id ∈ held then d.objects id else none := by
  induction ids generalizing new held with
  | nil =>
    obtain rfl := Option.some.inj h
    simpa using hnew id
  | cons first ids ih =>
    rw [List.map_cons, List.foldlM_cons] at h
    obtain ⟨next, hnext, h⟩ := Option.bind_eq_some_iff.mp h
    have hall := ih (cloneObject_some hnew hnext) h
    rw [hall]
    simp only [List.mem_cons]
    congr 1
    exact propext (by tauto)

theorem parents_some (root : ObjectId) (os : List ObjectId)
    (h : (os.map Object.reference).foldlM (fun new (page : Object F O) =>
      page.asReference.bind fun id => new.set id "Parent" (.reference root)) new = some out) :
    (∀ id ∈ os, ∃ x, new.dictionary id = some x ∧ out.dictionary id = some (x.set "Parent" (.reference root))) ∧
      ∀ id, id ∉ os → out id = new id := by
  induction os generalizing new with
  | nil =>
    obtain rfl := Option.some.inj h
    exact ⟨nofun, fun _ _ => rfl⟩
  | cons first os ih =>
    rw [List.map_cons, List.foldlM_cons] at h
    obtain ⟨next, hnext, h⟩ := Option.bind_eq_some_iff.mp h
    obtain ⟨x, hx, rfl⟩ := Objects.set_some hnext
    obtain ⟨hin, hout⟩ := ih h
    have hfirst : ∀ id, id ∉ os → id = first → out.dictionary id = some (x.set "Parent" (.reference root)) := by
      rintro id hid rfl
      have hsame := hout id hid
      rw [Objects.dictionary, hsame, Function.update_self]
    refine ⟨fun id hid => ?_, fun id hid => ?_⟩
    · by_cases hos : id ∈ os
      · obtain ⟨y, hy, hset⟩ := hin id hos
        rw [Objects.dictionary_update] at hy
        split_ifs at hy with heq
        · obtain rfl := Option.some.inj hy
          rw [Dictionary.set_set] at hset
          exact ⟨x, heq ▸ hx, hset⟩
        · exact ⟨y, hy, hset⟩
      · obtain rfl : id = first := (List.mem_cons.mp hid).resolve_right hos
        exact ⟨x, hx, hfirst id hos rfl⟩
    · rw [List.mem_cons, not_or] at hid
      rw [hout id hid.2, Function.update_of_ne hid.1]

/-- An update of a document that lists some pages under the root of the page tree. Each of them may be turned. -/
structure Arranged (d d' : Document F O) (root : ObjectId) (os : List ObjectId)
    (turned : ObjectId → Dictionary F O → Dictionary F O) : Prop where
  root_eq : d'.root = d.root
  tree : ∃ tree count, d.dictionary root = some tree ∧
    d'.dictionary root = some ((tree.set "Kids" (.array (os.map .reference))).set "Count" count)
  page : ∀ id ∈ os, ∃ page, d.dictionary id = some page ∧
    d'.dictionary id = some ((turned id page).set "Parent" (.reference root))
  other : ∀ id, id ≠ root → id ∉ os → d'.objects id = d.objects id

variable {os : List ObjectId}

theorem setPageList_some {root : ObjectId} (hroot : root ∉ os) (h : setPageList new root (os.map .reference) = some out) :
    (∃ tree count, new.dictionary root = some tree ∧
      out.dictionary root = some ((tree.set "Kids" (.array (os.map .reference))).set "Count" count)) ∧
    (∀ id ∈ os, ∃ x, new.dictionary id = some x ∧ out.dictionary id = some (x.set "Parent" (.reference root))) ∧
      ∀ id, id ≠ root → id ∉ os → out id = new id := by
  obtain ⟨listed, hlisted, h⟩ := Option.bind_eq_some_iff.mp h
  obtain ⟨kids, hkids, h⟩ := Option.bind_eq_some_iff.mp h
  obtain ⟨hin, hout⟩ := parents_some root os hlisted
  obtain ⟨tree, htree, rfl⟩ := Objects.set_some hkids
  obtain ⟨tree', htree', rfl⟩ := Objects.set_some h
  rw [Objects.dictionary_update, if_pos rfl] at htree'
  obtain rfl := Option.some.inj htree'
  refine ⟨⟨tree, _, ?_, by rw [Objects.dictionary_update, if_pos rfl]⟩, fun id hid => ?_, fun id hne hid => ?_⟩
  · rw [← htree, Objects.dictionary, Objects.dictionary, hout root hroot]
  · have hne : id ≠ root := fun heq => hroot (heq ▸ hid)
    rw [Objects.dictionary_update, if_neg hne, Objects.dictionary_update, if_neg hne]
    exact hin id hid
  · rw [Function.update_of_ne hne, Function.update_of_ne hne, hout id hid]

theorem updated_dictionary (h : new.dictionary id = some x) : (d.updated new).dictionary id = some x := by
  rw [Document.dictionary, Objects.dictionary, Document.updated]
  dsimp only
  rw [Objects.dictionary_of h]
  rfl

/-- What page work leaves, where the change of the update turns the pages that it lists and nothing else. -/
theorem pagesUpdate_some {L : Lopdf File F O} (hL : L.Lawful) {file bytes : File}
    {change : Objects F O → List (Object F O) → Option (Objects F O × List (Object F O))}
    {turned : ObjectId → Dictionary F O → Dictionary F O} (hload : L.load file = some d)
    (hos : ∀ id ∈ os, id ∈ L.getPages d) (hchange : ∀ {new new' : Objects F O} {order' : List (Object F O)},
      change new ((L.getPages d).map .reference) = some (new', order') →
      order' = os.map .reference ∧ (∀ id ∈ os, new'.dictionary id = (new.dictionary id).map (turned id)) ∧
        ∀ id, id ∉ os → new' id = new id) (h : pagesUpdate L file change = some bytes) :
    ∃ d' root, L.load bytes = some d' ∧ d.pagesRoot = some root ∧ root ∉ os ∧ Arranged d d' root os turned := by
  obtain ⟨d₀, hd₀, h⟩ := Option.bind_eq_some_iff.mp h
  obtain rfl : d = d₀ := Option.some.inj (hload.symm.trans hd₀)
  obtain ⟨root, hpages, h⟩ := Option.bind_eq_some_iff.mp h
  obtain ⟨first, hfirst, h⟩ := Option.bind_eq_some_iff.mp h
  obtain ⟨cloned, hcloned, h⟩ := Option.bind_eq_some_iff.mp h
  obtain ⟨⟨changed, order'⟩, hchanged, h⟩ := Option.bind_eq_some_iff.mp h
  obtain ⟨out, hout, h⟩ := Option.bind_eq_some_iff.mp h
  obtain rfl := Option.some.inj h
  obtain ⟨rfl, hturned, hsame⟩ := hchange hchanged
  have hroot : root ∉ os := fun hmem => hL.root_not_page hpages (hos root hmem)
  have hempty : ∀ id, (fun _ => none : Objects F O) id = if id ∈ ([] : List ObjectId) then d.objects id else none :=
    fun _ => rfl
  have hheld : ∀ id, cloned id = if id ∈ L.getPages d ∨ id ∈ [root] then d.objects id else none :=
    cloneAll_some (L.getPages d) (cloneObject_some hempty hfirst) hcloned
  have hclonedAt : ∀ {id}, id ∈ L.getPages d ∨ id ∈ [root] → cloned.dictionary id = d.dictionary id := by
    intro id hid
    rw [Objects.dictionary, hheld, if_pos hid]
    rfl
  obtain ⟨⟨tree, count, htree, hlisted⟩, hin, hother⟩ := setPageList_some hroot hout
  refine ⟨d.updated out, root, hL.load_save hload, hpages, hroot, rfl, ⟨tree, count, ?_, updated_dictionary hlisted⟩,
    fun id hid => ?_, fun id hne hid => ?_⟩
  · rw [← htree, Objects.dictionary, hsame root hroot, ← hclonedAt (.inr List.mem_cons_self)]
    rfl
  · obtain ⟨x, hx, hset⟩ := hin id hid
    rw [hturned id hid, hclonedAt (.inl (hos id hid))] at hx
    obtain ⟨page, hpage, rfl⟩ := Option.map_eq_some_iff.mp hx
    exact ⟨page, hpage, updated_dictionary hset⟩
  · rw [Document.updated]
    dsimp only
    rw [hother id hne hid, hsame id hid, hheld]
    split_ifs
    · rw [Option.or_self]
    · rfl

end Kodosi.Pdf
