import Kodosi.Pdf.Arranged

/-! What the pages of a file show, and what work on their list should keep. -/

namespace Kodosi.Pdf
open Kodosi.Lib
open Kodosi.Documents (Refused Unreadable)

variable {File F R O N V : Type} {S : Setting File F O R N V} {d d' : Document F O} {root id : ObjectId}
  {os : List ObjectId} {turned : ObjectId → Dictionary F O → Dictionary F O}

/-! ### What a page shows -/

/-- The width and height of a box. -/
def extent (floats : Floats F R) : List R → Option (R × R)
  | [left, bottom, right, top] => some (floats.sub right left, floats.sub top bottom)
  | _ => none

/-- The size that a value of `MediaBox` gives. -/
def Setting.sizeOf (S : Setting File F O R N V) (d : Document F O) (box : Option (Object F O)) : Option (R × R) :=
  (box.bind (numbers S.lopdf S.floats d)).bind (extent S.floats)

/-- The rotation that a value of `Rotate` gives. -/
def rotationOf (rotate : Option (Object F O)) : Int64 := (rotate.bind Object.asInteger).getD 0

/-- A page as its dictionary shows it, by two of its values. -/
def Setting.page (S : Setting File F O R N V) (d : Document F O) (id : ObjectId) (box rotate : Option (Object F O)) :
    Option (Page R) :=
  (S.sizeOf d box).map fun size => ⟨pageId id, size.1, size.2, rotationOf rotate⟩

/-- A page as reading finds it. -/
def Setting.pageAt (S : Setting File F O R N V) (d : Document F O) (id : ObjectId) : Option (Page R) :=
  (d.dictionary id).bind fun page => S.page d id (inherited d page "MediaBox") (inherited d page "Rotate")

theorem pageOf_toOption (S : Setting File F O R N V) (d : Document F O) (id : ObjectId) :
    (pageOf S.lopdf S.floats S.broken d id).toOption = S.pageAt d id := by
  rw [pageOf, Setting.pageAt]
  cases hpage : d.dictionary id with
  | none => rfl
  | some page =>
    have hfound : require (⟨S.broken⟩ : Unreadable) (some page) = .ok page := rfl
    rw [ok_bind hfound, Option.bind_some, Setting.page, Setting.sizeOf]
    cases hbounds : (inherited d page "MediaBox").bind (numbers S.lopdf S.floats d) with
    | none => rfl
    | some bounds =>
      rw [Option.bind_some]
      match bounds with
      | [] | [_] | [_, _] | [_, _, _] | [_, _, _, _] | _ :: _ :: _ :: _ :: _ :: _ => rfl

theorem mapM_toOption {ε α β : Type} {f : α → Except ε β} {as : List α} {bs : List β} (h : as.mapM f = .ok bs) :
    bs.map some = as.map fun a => (f a).toOption := by
  induction as generalizing bs with
  | nil =>
    obtain rfl := Except.ok.inj h
    rfl
  | cons a as ih =>
    rw [List.mapM_cons] at h
    obtain ⟨b, hb, h⟩ := bind_ok h
    obtain ⟨rest, hrest, h⟩ := bind_ok h
    obtain rfl := Except.ok.inj h
    rw [List.map_cons, List.map_cons, ih hrest, hb]
    rfl

variable {pages : List (Page R)}

theorem pages_some (h : S.pages d = .ok pages) : pages.map some = (S.lopdf.getPages d).map (S.pageAt d) := by
  rw [mapM_toOption h]
  exact List.map_congr_left fun id _ => pageOf_toOption S d id

theorem pageAt_id {page : Page R} (h : S.pageAt d id = some page) : page.id = pageId id := by
  obtain ⟨x, -, hx⟩ := Option.bind_eq_some_iff.mp h
  obtain ⟨size, -, rfl⟩ := Option.map_eq_some_iff.mp hx
  rfl

theorem pages_ids (h : S.pages d = .ok pages) : pages.map (·.id) = (S.lopdf.getPages d).map pageId := by
  have hsome := pages_some h
  clear h
  generalize S.lopdf.getPages d = ids at hsome
  induction pages generalizing ids with
  | nil =>
    rw [List.map_nil, eq_comm, List.map_eq_nil_iff] at hsome
    rw [hsome]
    rfl
  | cons page pages ih =>
    cases ids with
    | nil => exact absurd hsome nofun
    | cons id ids =>
      rw [List.map_cons, List.map_cons, List.cons.injEq] at hsome
      rw [List.map_cons, List.map_cons, ih ids hsome.2, pageAt_id hsome.1.symm]

/-! ### What work keeps -/

/-- The page that a rotation should leave. -/
def turnedPage (page : String) (degrees : Int64) (known : Page R) : Page R :=
  if known.id = page then { known with rotation := .ofInt ((known.rotation.toInt + degrees.toInt) % 360) } else known

/-- The page list that work should leave. -/
def Listed (before after : List (Page R)) : PageWork R → Prop
  | .order _ => after.Perm before
  | .rotate page degrees => after = before.map (turnedPage page degrees)
  | .remove page => ∃ first known rest, before = first ++ known :: rest ∧ known.id = page ∧ after = first ++ rest
  | .redact _ _ => True

/-- A page has the same content and the same resources. -/
def SameContent (d d' : Document F O) (id : ObjectId) : Prop :=
  ∃ page page', d.dictionary id = some page ∧ d'.dictionary id = some page' ∧ page' "Contents" = page "Contents" ∧
    inherited d' page' "Resources" = inherited d page "Resources"

/-- Work keeps the pages: what it should leave is there, and each page with its content. -/
structure PagesKept (S : Setting File F O R N V) (m m' : Model File R N V) (d d' : Document F O)
    (work : PageWork R) : Prop where
  nonempty : m'.pages ≠ []
  listed : Listed m.pages m'.pages work
  content : ∀ page ∈ m'.pages, ∀ id, pageId id = page.id → SameContent d d' id
  others : ∀ id, id ∉ S.lopdf.getPages d → d.pagesRoot ≠ some id → d'.objects id = d.objects id

/-- A page inherits nothing from between itself and the root. Its rotation does not matter where it is set anyway. -/
def Settled (S : Setting File F O R N V) (d : Document F O) (root : ObjectId) (turns : Prop) (id : ObjectId) : Prop :=
  ∃ page, d.dictionary id = some page ∧
    S.sizeOf d (flat d root page "MediaBox") = S.sizeOf d (inherited d page "MediaBox") ∧
    (turns ∨ rotationOf (flat d root page "Rotate") = rotationOf (inherited d page "Rotate")) ∧
    flat d root page "Resources" = inherited d page "Resources"

/-- What page work needs to keep the pages. -/
def WorkFits (S : Setting File F O R N V) (m : Model File R N V) (d : Document F O) (root : ObjectId) : PageWork R → Prop
  | .order pages => m.pages ≠ [] ∧ pages.Perm (m.pages.map (·.id)) ∧
      ∀ id, pageId id ∈ m.pages.map (·.id) → Settled S d root False id
  | .rotate page degrees =>
      (∀ known ∈ m.pages, known.id = page →
        -2 ^ 63 ≤ known.rotation.toInt + degrees.toInt ∧ known.rotation.toInt + degrees.toInt < 2 ^ 63) ∧
      ∀ id, pageId id ∈ m.pages.map (·.id) → Settled S d root (pageId id = page) id
  | .remove page => (m.pages.map (·.id)).count page = 1 ∧
      ∀ id, pageId id ∈ m.pages.map (·.id) → pageId id ≠ page → Settled S d root False id
  | .redact _ _ => True

/-! ### Pages of an arranged document -/

variable {page : Dictionary F O}

theorem Arranged.pageAt (h : Arranged d d' root os turned) (hL : S.lopdf.Lawful) (hpages : d.pagesRoot = some root)
    (hrooted : d.Rooted) (hpage : d.dictionary id = some page) (hid : id ∈ os) :
    S.pageAt d' id = S.page d id (flat d root (turned id page) "MediaBox") (flat d root (turned id page) "Rotate") := by
  obtain ⟨known, hknown, hpage'⟩ := h.page id hid
  obtain rfl := Option.some.inj (hpage.symm.trans hknown)
  rw [Setting.pageAt, hpage', Option.bind_some, h.inherited hpages hrooted (by decide) (by decide) (by decide),
    h.inherited hpages hrooted (by decide) (by decide) (by decide), Setting.page, Setting.page, Setting.sizeOf,
    Setting.sizeOf]
  congr 3
  exact funext (h.numbers hL)

theorem Arranged.sameContent (h : Arranged d d' root os turned) (hturned : OnlyTurned turned)
    (hpages : d.pagesRoot = some root) (hrooted : d.Rooted) (hpage : d.dictionary id = some page) (hid : id ∈ os) :
    SameContent d d' id ↔ flat d root page "Resources" = Pdf.inherited d page "Resources" := by
  obtain ⟨known, hknown, hpage'⟩ := h.page id hid
  obtain rfl := Option.some.inj (hpage.symm.trans hknown)
  have hresources : Pdf.inherited d' ((turned id page).set "Parent" (.reference root)) "Resources" =
      flat d root page "Resources" := by
    rw [h.inherited hpages hrooted (by decide) (by decide) (by decide), flat, flat, hturned _ _ _ (by decide)]
  constructor
  · rintro ⟨x, x', hx, hx', -, hsame⟩
    obtain rfl := Option.some.inj (hpage.symm.trans hx)
    obtain rfl := Option.some.inj (hpage'.symm.trans hx')
    rw [← hresources, hsame]
  · intro hsame
    exact ⟨page, _, hpage, hpage', page_key hturned (by decide), hresources.trans hsame⟩

/-- A page that is not turned reads as before exactly when its size and its rotation are its own or the root's. -/
theorem Arranged.pageAt_eq (h : Arranged d d' root os turned) (hL : S.lopdf.Lawful) (hpages : d.pagesRoot = some root)
    (hrooted : d.Rooted) (hpage : d.dictionary id = some page) (hid : id ∈ os) (hsame : turned id page = page)
    (hthere : (S.pageAt d id).isSome) :
    S.pageAt d' id = S.pageAt d id ↔
      S.sizeOf d (flat d root page "MediaBox") = S.sizeOf d (Pdf.inherited d page "MediaBox") ∧
      rotationOf (flat d root page "Rotate") = rotationOf (Pdf.inherited d page "Rotate") := by
  rw [h.pageAt hL hpages hrooted hpage hid, hsame]
  rw [Setting.pageAt, hpage, Option.bind_some, Setting.page] at hthere ⊢
  rw [Setting.page]
  obtain ⟨size, hsize⟩ := Option.isSome_iff_exists.mp (by simpa using hthere)
  rw [hsize]
  constructor
  · intro heq
    obtain ⟨size', hsize', heq⟩ := Option.map_eq_some_iff.mp heq
    have hparts := Page.mk.inj heq
    rw [hsize']
    exact ⟨congrArg _ (Prod.ext hparts.2.1 hparts.2.2.1), hparts.2.2.2⟩
  · rintro ⟨hbox, hrotate⟩
    rw [hbox, hrotate]

end Kodosi.Pdf
