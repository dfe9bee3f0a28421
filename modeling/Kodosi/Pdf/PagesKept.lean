import Kodosi.Pdf.Pages

/-! Exactly when page work keeps the pages. -/

namespace Kodosi.Pdf
open Kodosi.Lib
open Kodosi.Documents (Refused Unreadable)

variable {File F R O N V : Type} {S : Setting File F O R N V} {d d' : Document F O} {root id : ObjectId}
  {os : List ObjectId} {turned : ObjectId → Dictionary F O → Dictionary F O}

/-! ### What accepted work has done -/

/-- A live copy with the document of its file, whose page tree has a root without a parent. -/
structure Held (S : Setting File F O R N V) (m : Model File R N V) (d : Document F O) : Prop where
  loads : S.lopdf.load m.file = some d
  pages : S.pages d = .ok m.pages
  rooted : d.Rooted

variable {m m' : Model File R N V} {worked : Worked R} {work : PageWork R}

variable {bytes : File}

theorem takeFile_ok (h : takeFile S m bytes = .ok m') :
    ∃ d', S.lopdf.load bytes = some d' ∧ S.pages d' = .ok m'.pages ∧ m'.file = bytes := by
  obtain ⟨d', hload, h⟩ := bind_ok h
  refine ⟨d', require_ok.mp hload, ?_⟩
  cases hpages : S.pages d' with
  | error error => rw [hpages] at h; exact absurd h nofun
  | ok pages =>
    rw [hpages] at h
    obtain rfl := Except.ok.inj h
    exact ⟨rfl, rfl⟩

theorem workOn_ok (h : workOn S m work = .ok (m', worked)) :
    ∃ bytes d', doWork S m work = .ok bytes ∧ S.lopdf.load bytes = some d' ∧ S.pages d' = .ok m'.pages ∧
      m'.file = bytes := by
  obtain ⟨bytes, hbytes, h⟩ := bind_ok h
  obtain ⟨taken, htaken, h⟩ := bind_ok h
  obtain ⟨d', hload, hpages, hfile⟩ := takeFile_ok htaken
  refine ⟨bytes, d', hbytes, hload, ?_⟩
  dsimp only at h
  split_ifs at h
  · cases hfresh : S.fresh taken.file with
    | error error => rw [hfresh] at h; exact absurd h nofun
    | ok fresh =>
      rw [hfresh] at h
      obtain ⟨left, hleft, h⟩ := bind_ok h
      obtain rfl := Except.ok.inj hleft
      obtain ⟨rfl, -⟩ := Prod.mk.inj (Except.ok.inj h)
      exact ⟨hpages, hfile⟩
  · obtain ⟨left, hleft, h⟩ := bind_ok h
    obtain rfl := Except.ok.inj hleft
    obtain ⟨rfl, -⟩ := Prod.mk.inj (Except.ok.inj h)
    exact ⟨hpages, hfile⟩

variable {page : String}

theorem pageObject_ok (h : pageObject m page = .ok id) :
    pageId id = page ∧ ∃ known, m.pages.find? (·.id == page) = some known ∧ known.id = page := by
  have h := require_ok.mp h
  obtain ⟨known, hfind, h⟩ := Option.bind_eq_some_iff.mp h
  have hid : known.id = page := beq_iff_eq.mp (List.find?_some (p := fun known : Page R => known.id == page) hfind)
  have hname := (Option.filter_eq_some_iff.mp h).2
  exact ⟨(beq_iff_eq.mp hname).trans hid, known, hfind, hid⟩

theorem Held.mem_iff (h : Held S m d) : pageId id ∈ m.pages.map (·.id) ↔ id ∈ S.lopdf.getPages d := by
  rw [pages_ids h.pages, List.mem_map]
  exact ⟨fun ⟨other, hother, hsame⟩ => pageId_inj hsame ▸ hother, fun hid => ⟨id, hid, rfl⟩⟩

theorem pageObject_mem (h : Held S m d) (hpage : pageObject m page = .ok id) : id ∈ S.lopdf.getPages d := by
  obtain ⟨hid, known, hfind, hknown⟩ := pageObject_ok hpage
  rw [← h.mem_iff, hid, ← hknown]
  exact List.mem_map.mpr ⟨known, List.mem_of_find?_eq_some hfind, rfl⟩

/-- What page work has done to the document: the pages that it lists, and how it turns them. -/
structure Done (S : Setting File F O R N V) (d d' : Document F O) (root : ObjectId) (os : List ObjectId)
    (turned : ObjectId → Dictionary F O → Dictionary F O) : Prop where
  pagesRoot : d.pagesRoot = some root
  root_not : root ∉ os
  known : ∀ id ∈ os, id ∈ S.lopdf.getPages d
  onlyTurned : OnlyTurned turned
  arranged : Arranged d d' root os turned

theorem onlyTurned_id : OnlyTurned fun (_ : ObjectId) (x : Dictionary F O) => x := fun _ _ _ _ => rfl

/-- Work that lists pages of the document. -/
theorem listed_done (hL : S.lopdf.Lawful) (h : Held S m d) (hos : ∀ id ∈ os, id ∈ S.lopdf.getPages d)
    {change : List (Object F O) → List (Object F O)}
    (hbytes : pagesUpdate S.lopdf m.file (fun new order => some (new, change order)) = some bytes)
    (hchange : change ((S.lopdf.getPages d).map .reference) = os.map .reference) (hload : S.lopdf.load bytes = some d') :
    ∃ root, Done S d d' root os fun _ x => x := by
  have hsame : ∀ {new new' : Objects F O} {order' : List (Object F O)},
      some (new, change ((S.lopdf.getPages d).map .reference)) = some (new', order') → order' = os.map .reference ∧
        (∀ id ∈ os, new'.dictionary id = (new.dictionary id).map fun x => x) ∧ ∀ id, id ∉ os → new' id = new id := by
    intro new new' order' heq
    obtain ⟨rfl, rfl⟩ := Prod.mk.inj (Option.some.inj heq)
    exact ⟨hchange, fun id _ => by rw [Option.map_id'], fun _ _ => rfl⟩
  obtain ⟨out, root, hout, hpages, hroot, harranged⟩ := pagesUpdate_some hL h.loads hos hsame hbytes
  obtain rfl := Option.some.inj (hload.symm.trans hout)
  exact ⟨root, hpages, hroot, hos, onlyTurned_id, harranged⟩

variable {pages : List String}

theorem order_done (hL : S.lopdf.Lawful) (h : Held S m d) (hwork : doWork S m (.order pages) = .ok bytes)
    (hload : S.lopdf.load bytes = some d') :
    ∃ root os, pages = os.map pageId ∧ Done S d d' root os fun _ x => x := by
  obtain ⟨os, hos, hbytes⟩ := bind_ok hwork
  have hall : ∀ {ps : List String} {ids : List ObjectId}, ps.mapM (pageObject m) = .ok ids →
      ps = ids.map pageId ∧ ∀ id ∈ ids, id ∈ S.lopdf.getPages d := by
    intro ps
    induction ps with
    | nil =>
      intro ids hids
      obtain rfl := Except.ok.inj hids
      exact ⟨rfl, nofun⟩
    | cons page ps ih =>
      intro ids hids
      rw [List.mapM_cons] at hids
      obtain ⟨id, hid, hids⟩ := bind_ok hids
      obtain ⟨rest, hrest, hids⟩ := bind_ok hids
      obtain rfl := Except.ok.inj hids
      obtain ⟨hps, hmem⟩ := ih hrest
      refine ⟨by rw [List.map_cons, (pageObject_ok hid).1, ← hps], fun other hother => ?_⟩
      rcases List.mem_cons.mp hother with rfl | hother
      · exact pageObject_mem h hid
      · exact hmem other hother
  obtain ⟨hpages, hmem⟩ := hall hos
  obtain ⟨root, hdone⟩ := listed_done hL h hmem (require_ok.mp hbytes) rfl hload
  exact ⟨root, os, hpages, hdone⟩

/-- Sets the rotation of one page. -/
def turnOne (id : ObjectId) (rotation : Int64) (other : ObjectId) (page : Dictionary F O) : Dictionary F O :=
  if other = id then page.set "Rotate" (.integer rotation) else page

theorem onlyTurned_one (id : ObjectId) (rotation : Int64) :
    OnlyTurned (turnOne id rotation : ObjectId → Dictionary F O → _) := by
  intro other page key hkey
  rw [turnOne]
  split_ifs
  · exact Dictionary.set_other _ hkey _
  · rfl

theorem rotate_done (hL : S.lopdf.Lawful) (h : Held S m d) {degrees : Int64}
    (hwork : doWork S m (.rotate page degrees) = .ok bytes) (hload : S.lopdf.load bytes = some d') :
    ∃ root id known, pageId id = page ∧ known ∈ m.pages ∧ known.id = page ∧
      Done S d d' root (S.lopdf.getPages d) (turnOne id (remEuclid360 (known.rotation + degrees))) := by
  obtain ⟨_, -, hwork⟩ := bind_ok hwork
  obtain ⟨id, hid, hwork⟩ := bind_ok hwork
  obtain ⟨hname, known, hfind, hknown⟩ := pageObject_ok hid
  have hmem := pageObject_mem h hid
  have hbytes := require_ok.mp hwork
  rw [hfind] at hbytes
  have hturn : ∀ {new new' : Objects F O} {order' : List (Object F O)},
      ((new.set id "Rotate" (.integer (remEuclid360 (known.rotation + degrees)))).map fun new =>
        (new, (S.lopdf.getPages d).map Object.reference)) = some (new', order') →
      order' = (S.lopdf.getPages d).map .reference ∧
        (∀ other ∈ S.lopdf.getPages d, new'.dictionary other =
          (new.dictionary other).map (turnOne id (remEuclid360 (known.rotation + degrees)) other)) ∧
        ∀ other, other ∉ S.lopdf.getPages d → new' other = new other := by
    intro new new' order' heq
    obtain ⟨turned, hturned, heq⟩ := Option.map_eq_some_iff.mp heq
    obtain ⟨rfl, rfl⟩ := Prod.mk.inj heq
    obtain ⟨x, hx, rfl⟩ := Objects.set_some hturned
    refine ⟨rfl, fun other _ => ?_, fun other hother =>
      Function.update_of_ne (fun heq : other = id => hother (heq ▸ hmem)) ..⟩
    rw [Objects.dictionary_update]
    by_cases heq : other = id
    · rw [if_pos heq, heq, hx, Option.map_some, turnOne, if_pos rfl]
    · have hstay : turnOne id (remEuclid360 (known.rotation + degrees)) other = (fun x : Dictionary F O => x) :=
        funext fun x => if_neg heq
      rw [if_neg heq, hstay, Option.map_id']
  obtain ⟨out, root, hout, hpages, hroot, harranged⟩ := pagesUpdate_some hL h.loads (fun _ hid => hid) hturn hbytes
  obtain rfl := Option.some.inj (hload.symm.trans hout)
  exact ⟨root, id, known, hname, List.mem_of_find?_eq_some hfind, hknown, hpages, hroot, fun _ hid => hid,
    onlyTurned_one id _, harranged⟩

theorem remove_done (hL : S.lopdf.Lawful) (h : Held S m d) (hwork : doWork S m (.remove page) = .ok bytes)
    (hload : S.lopdf.load bytes = some d') :
    m.pages.length ≠ 1 ∧ ∃ root id, pageId id = page ∧ id ∈ S.lopdf.getPages d ∧
      Done S d d' root ((S.lopdf.getPages d).filter (· ≠ id)) fun _ x => x := by
  obtain ⟨⟨⟩, hlength, hwork⟩ := bind_ok hwork
  obtain ⟨id, hid, hwork⟩ := bind_ok hwork
  have hfilter : ((S.lopdf.getPages d).map Object.reference).filter (fun known : Object F O => known.asReference ≠ some id) =
      ((S.lopdf.getPages d).filter (· ≠ id)).map .reference := by
    rw [List.filter_map]
    congr 1
    refine List.filter_congr fun other _ => ?_
    simp [Object.asReference]
  obtain ⟨root, hdone⟩ :=
    listed_done hL h (fun _ hother => (List.mem_filter.mp hother).1) (require_ok.mp hwork) hfilter hload
  exact ⟨reject_ok.mp hlength, root, id, (pageObject_ok hid).1, pageObject_mem h hid, hdone⟩

/-! ### The pages that are left -/

namespace Done

variable (h : Done S d d' root os turned) (hL : S.lopdf.Lawful) (hrooted : d.Rooted)

include h

variable {before : List (Page R)}

/-- A page that is listed was found before. -/
theorem there (hbefore : S.pages d = .ok before) (hid : id ∈ os) :
    ∃ page, d.dictionary id = some page ∧ (S.pageAt d id).isSome := by
  have hmem : S.pageAt d id ∈ before.map some := by
    rw [Pdf.pages_some hbefore]
    exact List.mem_map.mpr ⟨id, h.known id hid, rfl⟩
  obtain ⟨known, -, hknown⟩ := List.mem_map.mp hmem
  obtain ⟨page, hpage, -⟩ := Option.bind_eq_some_iff.mp hknown.symm
  exact ⟨page, hpage, hknown ▸ rfl⟩

theorem others (hid : id ∉ S.lopdf.getPages d) (hroot : d.pagesRoot ≠ some id) : d'.objects id = d.objects id :=
  h.arranged.other id (fun heq => hroot (heq ▸ h.pagesRoot)) fun hos => hid (h.known id hos)

include hL

theorem getPages : S.lopdf.getPages d' = os :=
  h.arranged.getPages hL h.onlyTurned h.pagesRoot h.root_not h.known

variable {after : List (Page R)}

/-- Reading finds the listed pages. -/
theorem pages_some (hafter : S.pages d' = .ok after) : after.map some = os.map (S.pageAt d') := by
  rw [Pdf.pages_some hafter, h.getPages hL]

theorem pages_ids (hafter : S.pages d' = .ok after) : after.map (·.id) = os.map pageId := by
  rw [Pdf.pages_ids hafter, h.getPages hL]

include hrooted

/-- A page that is not turned is kept with its content exactly when it inherits nothing on the way to the root. -/
theorem settled_iff (hbefore : S.pages d = .ok before) (hid : id ∈ os) (hsame : ∀ page, turned id page = page) :
    S.pageAt d' id = S.pageAt d id ∧ SameContent d d' id ↔ Settled S d root False id := by
  obtain ⟨page, hpage, hthere⟩ := h.there hbefore hid
  rw [h.arranged.pageAt_eq hL h.pagesRoot hrooted hpage hid (hsame page) hthere,
    h.arranged.sameContent h.onlyTurned h.pagesRoot hrooted hpage hid, and_assoc]
  constructor
  · rintro ⟨hbox, hrotate, hresources⟩
    exact ⟨page, hpage, hbox, .inr hrotate, hresources⟩
  · rintro ⟨known, hknown, hbox, hrotate, hresources⟩
    obtain rfl := Option.some.inj (hpage.symm.trans hknown)
    exact ⟨hbox, hrotate.resolve_left not_false, hresources⟩

omit hrooted

/-- The content of all that is left, by page. -/
theorem content_iff (hafter : S.pages d' = .ok after) :
    (∀ page ∈ after, ∀ id, pageId id = page.id → SameContent d d' id) ↔ ∀ id ∈ os, SameContent d d' id := by
  have hids := h.pages_ids hL hafter
  constructor
  · intro hall id hid
    have hmem : pageId id ∈ after.map (·.id) := hids ▸ List.mem_map.mpr ⟨id, hid, rfl⟩
    obtain ⟨page, hpage, hname⟩ := List.mem_map.mp hmem
    exact hall page hpage id hname.symm
  · intro hall page hpage id hname
    have hmem : pageId id ∈ os.map pageId := by
      rw [← hids, hname]
      exact List.mem_map.mpr ⟨page, hpage, rfl⟩
    obtain ⟨other, hother, hsame⟩ := List.mem_map.mp hmem
    exact hall id (pageId_inj hsame ▸ hother)

/-- The new list is the old one in another order exactly when it names the same pages and each reads as before. -/
theorem perm_iff (hbefore : S.pages d = .ok before) (hafter : S.pages d' = .ok after) :
    after.Perm before ↔ (os.map pageId).Perm (before.map (·.id)) ∧ ∀ id ∈ os, S.pageAt d' id = S.pageAt d id := by
  have hsome := h.pages_some hL hafter
  have hold := Pdf.pages_some hbefore
  constructor
  · intro hperm
    refine ⟨h.pages_ids hL hafter ▸ hperm.map _, fun id hid => ?_⟩
    have hmem : S.pageAt d' id ∈ before.map some := by
      refine (hperm.map some).mem_iff.mp ?_
      rw [hsome]
      exact List.mem_map.mpr ⟨id, hid, rfl⟩
    rw [hold] at hmem
    obtain ⟨other, -, hother⟩ := List.mem_map.mp hmem
    obtain ⟨page, hpage, hthere⟩ := h.there hbefore hid
    have hafter' : S.pageAt d' id ∈ after.map some := by
      rw [hsome]
      exact List.mem_map.mpr ⟨id, hid, rfl⟩
    obtain ⟨known, -, hknown⟩ := List.mem_map.mp hafter'
    have hname : pageId other = pageId id := by
      rw [← pageAt_id (hother.trans hknown.symm), pageAt_id hknown.symm]
    rw [← hother, pageId_inj hname]
  · rintro ⟨hperm, hall⟩
    rw [Pdf.pages_ids hbefore] at hperm
    have hids : os.Perm (S.lopdf.getPages d) := (List.map_perm_map_iff fun _ _ => pageId_inj).mp hperm
    refine (List.map_perm_map_iff (Option.some_injective _)).mp ?_
    rw [hsome, hold, List.map_congr_left hall]
    exact hids.map _

end Done

theorem bmod_turns {x : Int} (h : -2 ^ 64 ≤ x) (h' : x < 2 ^ 64) :
    x.bmod (2 ^ 64) % 360 = x % 360 ↔ -2 ^ 63 ≤ x ∧ x < 2 ^ 63 := by
  -- a wrap is no number of full turns
  by_cases hlow : x < -2 ^ 63
  · have hwrap : x.bmod (2 ^ 64) = x + 2 ^ 64 := by
      rw [← Int.add_bmod_right, Int.bmod_eq_of_le] <;> omega
    rw [hwrap]
    omega
  by_cases hhigh : x < 2 ^ 63
  · rw [Int.bmod_eq_of_le (by omega) (by omega)]
    omega
  · have hwrap : x.bmod (2 ^ 64) = x - 2 ^ 64 := by
      rw [← Int.sub_bmod_right, Int.bmod_eq_of_le] <;> omega
    rw [hwrap]
    omega

/-- Degrees add up modulo 360 as long as the sum is a number. -/
theorem remEuclid360_iff (a b : Int64) : remEuclid360 (a + b) = .ofInt ((a.toInt + b.toInt) % 360) ↔
    -2 ^ 63 ≤ a.toInt + b.toInt ∧ a.toInt + b.toInt < 2 ^ 63 := by
  have ha := a.toInt_lt
  have ha' := a.le_toInt
  have hb := b.toInt_lt
  have hb' := b.le_toInt
  have hvalue : ∀ n : Int, (Int64.ofInt (n % 360)).toInt = n % 360 := fun n =>
    Int64.toInt_ofInt_of_le (by omega) (by omega)
  rw [remEuclid360, ← Int64.toInt_inj, hvalue, hvalue, Int64.toInt_add]
  exact bmod_turns (by omega) (by omega)

/-- A page that is turned is kept with its content and a new rotation exactly when it inherits nothing else on the way to the
    root. -/
theorem Done.turned_iff {rotation : Int64} (wanted : Int64) (h : Done S d d' root os (turnOne id rotation))
    (hL : S.lopdf.Lawful) (hrooted : d.Rooted) (hid : id ∈ os) {known : Page R} (hknown : S.pageAt d id = some known) :
    S.pageAt d' id = some { known with rotation := wanted } ∧ SameContent d d' id ↔
      Settled S d root True id ∧ rotation = wanted := by
  obtain ⟨page, hpage, hshown⟩ := Option.bind_eq_some_iff.mp hknown
  obtain ⟨size, hsize, rfl⟩ := Option.map_eq_some_iff.mp hshown
  have hbox : flat d root (turnOne id rotation id page) "MediaBox" = flat d root page "MediaBox" := by
    rw [flat, flat, onlyTurned_one _ _ _ _ _ (by decide)]
  have hrotate : rotationOf (flat d root (turnOne id rotation id page) "Rotate") = rotation := by
    rw [flat, turnOne, if_pos rfl, Dictionary.set_same]
    rfl
  rw [h.arranged.pageAt hL h.pagesRoot hrooted hpage hid, h.arranged.sameContent h.onlyTurned h.pagesRoot hrooted hpage hid,
    Setting.page, hbox, hrotate]
  constructor
  · rintro ⟨heq, hresources⟩
    obtain ⟨size', hsize', heq⟩ := Option.map_eq_some_iff.mp heq
    have hparts := Page.mk.inj heq
    refine ⟨⟨page, hpage, ?_, .inl trivial, hresources⟩, hparts.2.2.2⟩
    rw [hsize, hsize', Prod.ext hparts.2.1 hparts.2.2.1]
  · rintro ⟨⟨other, hother, hsame, -, hresources⟩, rfl⟩
    obtain rfl := Option.some.inj (hpage.symm.trans hother)
    refine ⟨?_, hresources⟩
    rw [hsame, hsize]
    rfl

/-! ### Each kind of work -/

theorem order_iff (hL : S.lopdf.Lawful) (h : Held S m d) (hwork : workOn S m (.order pages) = .ok (m', worked))
    (hload : S.lopdf.load m'.file = some d') (hroot : d.pagesRoot = some root) :
    PagesKept S m m' d d' (.order pages) ↔ WorkFits S m d root (.order pages) := by
  obtain ⟨bytes, out, hbytes, hout, hafter, rfl⟩ := workOn_ok hwork
  obtain rfl := Option.some.inj (hload.symm.trans hout)
  obtain ⟨root', os, rfl, hdone⟩ := order_done hL h hbytes hload
  obtain rfl := Option.some.inj (hroot.symm.trans hdone.pagesRoot)
  have hsettled : ∀ id ∈ os, (S.pageAt d' id = S.pageAt d id ∧ SameContent d d' id ↔ Settled S d root False id) :=
    fun id hid => hdone.settled_iff hL h.rooted h.pages hid fun _ => rfl
  have hmem : (os.map pageId).Perm (m.pages.map (·.id)) → ∀ id, pageId id ∈ m.pages.map (·.id) → id ∈ os := by
    intro hperm id hid
    obtain ⟨other, hother, hsame⟩ := List.mem_map.mp (hperm.mem_iff.mpr hid)
    exact pageId_inj hsame ▸ hother
  constructor
  · intro hkept
    obtain ⟨hperm, hall⟩ := (hdone.perm_iff hL h.pages hafter).mp hkept.listed
    have hcontent := (hdone.content_iff hL hafter).mp hkept.content
    refine ⟨fun hnil => hkept.nonempty (List.perm_nil.mp (hnil ▸ hkept.listed)), hperm, fun id hid => ?_⟩
    have hos := hmem hperm id hid
    exact (hsettled id hos).mp ⟨hall id hos, hcontent id hos⟩
  · rintro ⟨hsome, hperm, hall⟩
    have hkept : ∀ id ∈ os, S.pageAt d' id = S.pageAt d id ∧ SameContent d d' id := fun id hid =>
      (hsettled id hid).mpr (hall id (hperm.mem_iff.mp (List.mem_map.mpr ⟨id, hid, rfl⟩)))
    have hlisted := (hdone.perm_iff hL h.pages hafter).mpr ⟨hperm, fun id hid => (hkept id hid).1⟩
    exact ⟨fun hnil => hsome (List.nil_perm.mp (hnil ▸ hlisted)), hlisted,
      (hdone.content_iff hL hafter).mpr fun id hid => (hkept id hid).2, fun _ hid hne => hdone.others hid hne⟩

theorem settled_congr {p q : Prop} (h : p ↔ q) : Settled S d root p id ↔ Settled S d root q id := by
  rw [propext h]

theorem map_some_inj {α : Type} {as bs : List α} : as.map some = bs.map some ↔ as = bs :=
  (List.map_injective_iff.mpr (Option.some_injective α)).eq_iff

theorem rotate_iff (hL : S.lopdf.Lawful) (h : Held S m d) {degrees : Int64}
    (hwork : workOn S m (.rotate page degrees) = .ok (m', worked)) (hload : S.lopdf.load m'.file = some d')
    (hroot : d.pagesRoot = some root) :
    PagesKept S m m' d d' (.rotate page degrees) ↔ WorkFits S m d root (.rotate page degrees) := by
  obtain ⟨bytes, out, hbytes, hout, hafter, rfl⟩ := workOn_ok hwork
  obtain rfl := Option.some.inj (hload.symm.trans hout)
  obtain ⟨root', id, known, rfl, hknown, hname, hdone⟩ := rotate_done hL h hbytes hload
  obtain rfl := Option.some.inj (hroot.symm.trans hdone.pagesRoot)
  have hbefore := pages_some h.pages
  have hsome := hdone.pages_some hL hafter
  have hid : id ∈ S.lopdf.getPages d := by
    rw [← h.mem_iff, ← hname]
    exact List.mem_map.mpr ⟨known, hknown, rfl⟩
  -- all entries of the page are alike
  have hentry : ∀ {q}, q ∈ m.pages → q.id = pageId id → S.pageAt d id = some q := by
    intro q hq hqid
    have hmem : some q ∈ (S.lopdf.getPages d).map (S.pageAt d) := hbefore ▸ List.mem_map.mpr ⟨q, hq, rfl⟩
    obtain ⟨other, -, hother⟩ := List.mem_map.mp hmem
    rw [← pageId_inj ((pageAt_id hother).symm.trans hqid)]
    exact hother
  have hat := hentry hknown hname
  have hlisted : Listed m.pages m'.pages (.rotate (pageId id) degrees) ↔ ∀ other ∈ S.lopdf.getPages d, S.pageAt d' other =
      (S.pageAt d other).map (turnedPage (pageId id) degrees) := by
    rw [Listed, ← map_some_inj, hsome, List.map_map, ← List.map_inj_left]
    have hturn : ∀ {turn : Page R → Page R}, m.pages.map (some ∘ turn) =
        (S.lopdf.getPages d).map fun other => (S.pageAt d other).map turn := by
      intro turn
      have := congrArg (List.map (Option.map turn)) hbefore
      rw [List.map_map, List.map_map] at this
      exact this
    rw [hturn]
  have hrange : (∀ q ∈ m.pages, q.id = pageId id → -2 ^ 63 ≤ q.rotation.toInt + degrees.toInt ∧
      q.rotation.toInt + degrees.toInt < 2 ^ 63) ↔
      remEuclid360 (known.rotation + degrees) = .ofInt ((known.rotation.toInt + degrees.toInt) % 360) := by
    rw [remEuclid360_iff]
    refine ⟨fun hall => hall known hknown hname, fun hall q hq hqid => ?_⟩
    rwa [← Option.some.inj (hat.symm.trans (hentry hq hqid))]
  have hone := hdone.turned_iff (.ofInt ((known.rotation.toInt + degrees.toInt) % 360)) hL h.rooted hid hat
  have hrest : ∀ other ∈ S.lopdf.getPages d, other ≠ id →
      (S.pageAt d' other = S.pageAt d other ∧ SameContent d d' other ↔
        Settled S d root (pageId other = pageId id) other) := by
    intro other hother hne
    rw [hdone.settled_iff hL h.rooted h.pages hother fun _ => if_neg hne]
    exact settled_congr ⟨False.elim, fun heq => hne (pageId_inj heq)⟩
  have hkeep : ∀ other, other ≠ id → (S.pageAt d other).map (turnedPage (pageId id) degrees) = S.pageAt d other := by
    intro other hne
    cases hq : S.pageAt d other with
    | none => rfl
    | some q => rw [Option.map_some, turnedPage, if_neg fun heq => hne (pageId_inj ((pageAt_id hq).symm.trans heq))]
  have hself : (S.pageAt d id).map (turnedPage (pageId id) degrees) =
      some { known with rotation := .ofInt ((known.rotation.toInt + degrees.toInt) % 360) } := by
    rw [hat, Option.map_some, turnedPage, if_pos hname]
  rw [WorkFits, hrange]
  constructor
  · intro hkept
    have hall := hlisted.mp hkept.listed
    have hcontent := (hdone.content_iff hL hafter).mp hkept.content
    obtain ⟨hsettled, hsum⟩ := hone.mp ⟨(hall id hid).trans hself, hcontent id hid⟩
    refine ⟨hsum, fun other hother => ?_⟩
    have hmem := h.mem_iff.mp hother
    by_cases hne : other = id
    · rw [hne]
      exact (settled_congr (iff_of_true trivial rfl)).mp hsettled
    · exact (hrest other hmem hne).mp ⟨(hall other hmem).trans (hkeep other hne), hcontent other hmem⟩
  · rintro ⟨hsum, hall⟩
    have hself' := hone.mpr ⟨(settled_congr (iff_of_true rfl trivial)).mp (hall id (h.mem_iff.mpr hid)), hsum⟩
    have hboth : ∀ other ∈ S.lopdf.getPages d, S.pageAt d' other =
        (S.pageAt d other).map (turnedPage (pageId id) degrees) ∧ SameContent d d' other := by
      intro other hother
      by_cases hne : other = id
      · rw [hne, hself]
        exact hself'
      · rw [hkeep other hne]
        exact (hrest other hother hne).mpr (hall other (h.mem_iff.mpr hother))
    refine ⟨fun hnil => ?_, hlisted.mpr fun other hother => (hboth other hother).1,
      (hdone.content_iff hL hafter).mpr fun other hother => (hboth other hother).2, fun _ hid hne => hdone.others hid hne⟩
    rw [hnil, List.map_nil, eq_comm, List.map_eq_nil_iff] at hsome
    rw [hsome] at hid
    exact absurd hid List.not_mem_nil

/-- One entry of a list is taken out where it is the only one of its name. -/
theorem taken_out_iff {before after : List (Page R)} (hafter : ∀ q ∈ after, q.id ≠ page) :
    (∃ first known rest, before = first ++ known :: rest ∧ known.id = page ∧ after = first ++ rest) ↔
      (before.map (·.id)).count page = 1 ∧ after = before.filter (·.id ≠ page) := by
  have hsplit : ∀ {first rest : List (Page R)} {known : Page R}, known.id = page →
      ((first ++ known :: rest).map (·.id)).count page = ((first ++ rest).map (·.id)).count page + 1 := by
    intro first rest known hknown
    rw [List.map_append, List.map_cons, List.count_append, hknown, List.count_cons_self, List.map_append, List.count_append]
    omega
  have hnone : ∀ {pages : List (Page R)}, (pages.map (·.id)).count page = 0 ↔ ∀ q ∈ pages, q.id ≠ page := by
    intro pages
    rw [List.count_eq_zero, List.mem_map]
    exact ⟨fun h q hq heq => h ⟨q, hq, heq⟩, fun h ⟨q, hq, heq⟩ => h q hq heq⟩
  have hfilter : ∀ {first rest : List (Page R)} {known : Page R}, known.id = page → (∀ q ∈ first ++ rest, q.id ≠ page) →
      (first ++ known :: rest).filter (·.id ≠ page) = first ++ rest := by
    intro first rest known hknown hothers
    rw [List.filter_append, List.filter_cons_of_neg (by simp [hknown]), ← List.filter_append, List.filter_eq_self]
    exact fun q hq => decide_eq_true (hothers q hq)
  constructor
  · rintro ⟨first, known, rest, rfl, hknown, rfl⟩
    refine ⟨?_, (hfilter hknown hafter).symm⟩
    rw [hsplit hknown, hnone.mpr hafter]
  · rintro ⟨hcount, rfl⟩
    have hmem : page ∈ before.map (·.id) := List.count_pos_iff.mp (by omega)
    obtain ⟨known, hin, hknown⟩ := List.mem_map.mp hmem
    obtain ⟨first, rest, rfl⟩ := List.append_of_mem hin
    rw [hsplit hknown] at hcount
    exact ⟨first, known, rest, rfl, hknown, hfilter hknown (hnone.mp (by omega))⟩

theorem remove_iff (hL : S.lopdf.Lawful) (h : Held S m d) (hwork : workOn S m (.remove page) = .ok (m', worked))
    (hload : S.lopdf.load m'.file = some d') (hroot : d.pagesRoot = some root) :
    PagesKept S m m' d d' (.remove page) ↔ WorkFits S m d root (.remove page) := by
  obtain ⟨bytes, out, hbytes, hout, hafter, rfl⟩ := workOn_ok hwork
  obtain rfl := Option.some.inj (hload.symm.trans hout)
  obtain ⟨hlength, root', id, rfl, hid, hdone⟩ := remove_done hL h hbytes hload
  obtain rfl := Option.some.inj (hroot.symm.trans hdone.pagesRoot)
  have hsome := hdone.pages_some hL hafter
  have hleft : ∀ {other}, other ∈ (S.lopdf.getPages d).filter (· ≠ id) ↔ other ∈ S.lopdf.getPages d ∧ other ≠ id := by
    intro other
    rw [List.mem_filter, decide_eq_true_iff]
  have hsettled : ∀ other ∈ (S.lopdf.getPages d).filter (· ≠ id),
      (S.pageAt d' other = S.pageAt d other ∧ SameContent d d' other ↔ Settled S d root False other) :=
    fun other hother => hdone.settled_iff hL h.rooted h.pages hother fun _ => rfl
  have hothers : ∀ q ∈ m'.pages, q.id ≠ pageId id := by
    intro q hq heq
    have hmem : q.id ∈ ((S.lopdf.getPages d).filter (· ≠ id)).map pageId := by
      rw [← hdone.pages_ids hL hafter]
      exact List.mem_map.mpr ⟨q, hq, rfl⟩
    obtain ⟨other, hother, hname⟩ := List.mem_map.mp hmem
    exact (hleft.mp hother).2 (pageId_inj (hname.trans heq))
  have hkeep : (m.pages.filter (·.id ≠ pageId id)).map some =
      ((S.lopdf.getPages d).filter (· ≠ id)).map (S.pageAt d) := by
    have hboth := congrArg (List.filter fun o : Option (Page R) => o.all (·.id ≠ pageId id)) (pages_some h.pages)
    rw [List.filter_map, List.filter_map] at hboth
    refine hboth.trans (congrArg _ (List.filter_congr fun other hother => ?_))
    obtain ⟨q, -, hq⟩ := List.mem_map.mp (show S.pageAt d other ∈ m.pages.map some by
      rw [pages_some h.pages]
      exact List.mem_map.mpr ⟨other, hother, rfl⟩)
    have hsame : q.id ≠ pageId id ↔ other ≠ id := by
      rw [pageAt_id hq.symm]
      exact not_congr ⟨pageId_inj, congrArg pageId⟩
    show (S.pageAt d other).all _ = _
    rw [← hq, Option.all_some]
    exact decide_eq_decide.mpr hsame
  have hlisted : Listed m.pages m'.pages (.remove (pageId id)) ↔ (m.pages.map (·.id)).count (pageId id) = 1 ∧
      ∀ other ∈ (S.lopdf.getPages d).filter (· ≠ id), S.pageAt d' other = S.pageAt d other := by
    rw [Listed, taken_out_iff hothers, ← map_some_inj, hsome, hkeep, List.map_inj_left]
  constructor
  · intro hkept
    obtain ⟨hcount, hall⟩ := hlisted.mp hkept.listed
    have hcontent := (hdone.content_iff hL hafter).mp hkept.content
    refine ⟨hcount, fun other hother hne => ?_⟩
    have hmem := hleft.mpr ⟨h.mem_iff.mp hother, fun heq => hne (congrArg pageId heq)⟩
    exact (hsettled other hmem).mp ⟨hall other hmem, hcontent other hmem⟩
  · rintro ⟨hcount, hall⟩
    have hboth : ∀ other ∈ (S.lopdf.getPages d).filter (· ≠ id),
        S.pageAt d' other = S.pageAt d other ∧ SameContent d d' other := by
      intro other hother
      obtain ⟨hin, hne⟩ := hleft.mp hother
      exact (hsettled other hother).mpr (hall other (h.mem_iff.mpr hin) fun heq => hne (pageId_inj heq))
    have hlist := hlisted.mpr ⟨hcount, fun other hother => (hboth other hother).1⟩
    refine ⟨fun hnil => ?_, hlist, (hdone.content_iff hL hafter).mpr fun other hother => (hboth other hother).2,
      fun _ hid hne => hdone.others hid hne⟩
    -- the last page is never removed
    obtain ⟨first, known, rest, hpages, -, hrest⟩ := hlist
    obtain ⟨rfl, rfl⟩ := List.append_eq_nil_iff.mp (hrest.symm.trans hnil)
    exact hlength (by rw [hpages]; rfl)

/-! ### Runs of page work -/

variable (S) in
/-- One work after another, as long as each is accepted. -/
def workAll : Model File R N V → List (PageWork R) → Except Refused (Model File R N V)
  | m, [] => .ok m
  | m, work :: works => do
    let (m, _) ← workOn S m work
    workAll m works

/-- A redaction leaves the root of the page tree without a parent. -/
def Setting.RedactsRooted (S : Setting File F O R N V) : Prop :=
  ∀ {file id rects bytes d d'}, S.lopdf.load file = some d → d.Rooted → S.redact file id rects = some bytes →
    S.lopdf.load bytes = some d' → d'.Rooted

theorem read_held {file : File} (hread : read S file = .ok m) (hload : S.lopdf.load file = some d) (hrooted : d.Rooted) :
    Held S m d := by
  obtain ⟨d₀, hd₀, hread⟩ := bind_ok hread
  obtain rfl := Option.some.inj (hload.symm.trans (require_ok.mp hd₀))
  obtain ⟨pages, hpages, hread⟩ := bind_ok hread
  obtain ⟨fresh, -, hread⟩ := bind_ok hread
  obtain rfl := Except.ok.inj hread
  exact ⟨hload, hpages, hrooted⟩

/-- Accepted work leaves a live copy with the document of its file. -/
theorem workOn_held (hL : S.lopdf.Lawful) (hredact : S.RedactsRooted) (h : Held S m d)
    (hwork : workOn S m work = .ok (m', worked)) : ∃ d', Held S m' d' := by
  obtain ⟨bytes, d', hbytes, hload, hpages, rfl⟩ := workOn_ok hwork
  refine ⟨d', hload, hpages, ?_⟩
  cases work with
  | order pages =>
    obtain ⟨root, os, -, hdone⟩ := order_done hL h hbytes hload
    exact hdone.arranged.rooted hdone.onlyTurned hdone.pagesRoot h.rooted
  | rotate page degrees =>
    obtain ⟨root, id, known, -, -, -, hdone⟩ := rotate_done hL h hbytes hload
    exact hdone.arranged.rooted hdone.onlyTurned hdone.pagesRoot h.rooted
  | remove page =>
    obtain ⟨-, root, id, -, -, hdone⟩ := remove_done hL h hbytes hload
    exact hdone.arranged.rooted hdone.onlyTurned hdone.pagesRoot h.rooted
  | redact page rects =>
    obtain ⟨id, -, hbytes⟩ := bind_ok hbytes
    exact hredact h.loads h.rooted (require_ok.mp hbytes) hload

theorem workAll_held (hL : S.lopdf.Lawful) (hredact : S.RedactsRooted) {works : List (PageWork R)} (h : Held S m d)
    (hworks : workAll S m works = .ok m') : ∃ d', Held S m' d' := by
  induction works generalizing m d with
  | nil =>
    obtain rfl := Except.ok.inj hworks
    exact ⟨d, h⟩
  | cons work works ih =>
    obtain ⟨⟨next, worked⟩, hwork, hworks⟩ := bind_ok hworks
    obtain ⟨d', hnext⟩ := workOn_held hL hredact h hwork
    exact ih hnext hworks

/-- Work on the list or the rotation of the pages. -/
def PageWork.OnList : PageWork R → Prop
  | .redact _ _ => False
  | _ => True

/-- After any page work on a file whose page tree has a root without a parent, accepted work on the page list keeps the pages
    exactly when it fits. -/
theorem page_work_iff (hL : S.lopdf.Lawful) (hredact : S.RedactsRooted) {file : File} {m₀ : Model File R N V}
    (hread : read S file = .ok m₀) (hload : S.lopdf.load file = some d) (hrooted : d.Rooted) {works : List (PageWork R)}
    (hreached : workAll S m₀ works = .ok m) (hlist : work.OnList) (hwork : workOn S m work = .ok (m', worked)) :
    ∃ d d' root, S.lopdf.load m.file = some d ∧ S.lopdf.load m'.file = some d' ∧ d.pagesRoot = some root ∧
      (PagesKept S m m' d d' work ↔ WorkFits S m d root work) := by
  obtain ⟨d, h⟩ := workAll_held hL hredact (read_held hread hload hrooted) hreached
  obtain ⟨bytes, d', hbytes, hload', -, hfile⟩ := workOn_ok hwork
  have hafter : S.lopdf.load m'.file = some d' := hfile ▸ hload'
  cases work with
  | order pages =>
    obtain ⟨root, os, -, hdone⟩ := order_done hL h hbytes hload'
    exact ⟨d, d', root, h.loads, hafter, hdone.pagesRoot, order_iff hL h hwork hafter hdone.pagesRoot⟩
  | rotate page degrees =>
    obtain ⟨root, id, known, -, -, -, hdone⟩ := rotate_done hL h hbytes hload'
    exact ⟨d, d', root, h.loads, hafter, hdone.pagesRoot, rotate_iff hL h hwork hafter hdone.pagesRoot⟩
  | remove page =>
    obtain ⟨-, root, id, -, -, hdone⟩ := remove_done hL h hbytes hload'
    exact ⟨d, d', root, h.loads, hafter, hdone.pagesRoot, remove_iff hL h hwork hafter hdone.pagesRoot⟩
  | redact page rects => exact hlist.elim

/-! ### A page under a node with a size of its own -/

namespace Booklet

def kids (x : Dictionary Unit String) : List ObjectId :=
  match x "Kids" with
  | some (.array items) => items.filterMap Object.asReference
  | _ => []

/-- The pages under an object, to a depth. -/
def leaves (d : Document Unit String) : Nat → ObjectId → List ObjectId
  | 0, _ => []
  | n + 1, id =>
    match d.dictionary id with
    | none => []
    | some x =>
      match x "Type" with
      | some (.other "Page") => [id]
      | some (.other "Pages") => (kids x).flatMap (leaves d n)
      | _ => []

/-- A library whose files are documents. -/
def lopdf : Lopdf (Document Unit String) Unit String where
  load := some
  save file new := file.updated new
  getPages d := (d.pagesRoot.elim [] fun root =>
    (((d.dictionary root).elim [] kids).flatMap (leaves d 3)).filter (· ≠ root))
  array _ object :=
    match object with
    | .array items => some items
    | _ => none

theorem leaves_page {d : Document Unit String} : ∀ {n : Nat} {top id : ObjectId}, id ∈ leaves d n top →
    ∃ x, d.dictionary id = some x ∧ x "Type" = some (.other "Page")
  | 0, _, _, h => absurd h List.not_mem_nil
  | n + 1, top, id, h => by
    rw [leaves] at h
    split at h
    · exact absurd h List.not_mem_nil
    · rename_i x hx
      split at h
      · rename_i htype
        rw [List.mem_singleton.mp h]
        exact ⟨x, hx, htype⟩
      · obtain ⟨kid, -, hkid⟩ := List.mem_flatMap.mp h
        exact leaves_page hkid
      · exact absurd h List.not_mem_nil

theorem getPages_page {d : Document Unit String} (h : id ∈ lopdf.getPages d) :
    ∃ x, d.dictionary id = some x ∧ x "Type" = some (.other "Page") := by
  have h : id ∈ d.pagesRoot.elim [] fun root =>
      (((d.dictionary root).elim [] kids).flatMap (leaves d 3)).filter (· ≠ root) := h
  cases hroot : d.pagesRoot with
  | none => rw [hroot] at h; exact absurd h List.not_mem_nil
  | some root =>
    rw [hroot] at h
    obtain ⟨kid, -, hkid⟩ := List.mem_flatMap.mp (List.mem_filter.mp h).1
    exact leaves_page hkid

theorem lawful : lopdf.Lawful where
  load_save := by
    intro file d new h
    obtain rfl := Option.some.inj h
    rfl
  flat := by
    intro d d' root tree ids hroot htree hkids hnot hall
    have hleaves : ∀ id ∈ ids, leaves d' 3 id = [id] := by
      intro id hid
      obtain ⟨page, page', hmem, hpage, hpage', htype⟩ := hall id hid
      obtain ⟨x, hx, hx'⟩ := getPages_page hmem
      obtain rfl := Option.some.inj (hpage.symm.trans hx)
      rw [leaves, hpage']
      dsimp only
      rw [htype, hx']
      rfl
    have hlist : kids tree = ids := by
      rw [kids, hkids]
      show (ids.map Object.reference).filterMap Object.asReference = ids
      rw [List.filterMap_map]
      exact List.filterMap_some
    show (d'.pagesRoot.elim [] fun root =>
      (((d'.dictionary root).elim [] kids).flatMap (leaves d' 3)).filter (· ≠ root)) = ids
    rw [hroot, Option.elim_some, htree, Option.elim_some, hlist, List.flatMap_congr hleaves, List.flatMap_singleton',
      List.filter_eq_self]
    exact fun id hid => decide_eq_true fun heq => hnot (heq ▸ hid)
  root_not_page := by
    intro d root hroot hmem
    have hmem : root ∈ d.pagesRoot.elim [] fun root =>
        (((d.dictionary root).elim [] kids).flatMap (leaves d 3)).filter (· ≠ root) := hmem
    rw [hroot] at hmem
    exact absurd rfl (of_decide_eq_true (List.mem_filter.mp hmem).2)
  array_same := fun _ _ => rfl

/-- Sizes are whole numbers, and there are no notes or form values. -/
def setting : Setting (Document Unit String) Unit String Int Unit Unit where
  lopdf := lopdf
  floats := ⟨Int64.toInt, fun _ => 0, fun a b => a - b⟩
  broken := "broken"
  put _ := "asset"
  redact _ _ _ := none
  fresh _ := .ok ((), ())
  onPages _ notes := notes

def entries (list : List (String × Object Unit String)) : Indirect Unit String := .dictionary fun key => list.lookup key

def box (width height : Int64) : Object Unit String := .array [.integer 0, .integer 0, .integer width, .integer height]

/-- A page of 600 by 800 under the root. -/
def plain : Document Unit String where
  objects id :=
    match id.number with
    | 1 => some (entries [("Type", .other "Catalog"), ("Pages", .reference ⟨2, 0⟩)])
    | 2 => some (entries [("Type", .other "Pages"), ("Kids", .array [.reference ⟨3, 0⟩]), ("MediaBox", box 600 800)])
    | 3 => some (entries [("Type", .other "Page"), ("Parent", .reference ⟨2, 0⟩), ("Contents", .reference ⟨4, 0⟩)])
    | _ => none
  root := some ⟨1, 0⟩

/-- The same page under a node of 200 by 200. -/
def nested : Document Unit String where
  objects id :=
    match id.number with
    | 1 => some (entries [("Type", .other "Catalog"), ("Pages", .reference ⟨2, 0⟩)])
    | 2 => some (entries [("Type", .other "Pages"), ("Kids", .array [.reference ⟨5, 0⟩]), ("MediaBox", box 600 800)])
    | 3 => some (entries [("Type", .other "Page"), ("Parent", .reference ⟨5, 0⟩), ("Contents", .reference ⟨4, 0⟩)])
    | 5 => some (entries [("Type", .other "Pages"), ("Kids", .array [.reference ⟨3, 0⟩]), ("Parent", .reference ⟨2, 0⟩),
        ("MediaBox", box 200 200)])
    | _ => none
  root := some ⟨1, 0⟩

theorem plain_rooted : plain.Rooted := by
  intro root tree hroot htree
  obtain rfl : (⟨2, 0⟩ : ObjectId) = root := Option.some.inj hroot
  obtain rfl := Option.some.inj htree
  rfl

theorem redactsRooted : setting.RedactsRooted := fun {_ _ _ _ _ _} _ _ h => absurd h nofun

/-- The copy of a file with one page. -/
def held (file : Document Unit String) (page : Page Int) : Model (Document Unit String) Int Unit Unit :=
  ⟨file, "asset", [page], (), (), (), ()⟩

/-- Turning the page of the plain file keeps its size and its content. -/
theorem plain_turned : ∃ m m' worked d d', read setting plain = .ok m ∧
    workOn setting m (.rotate "3-0" 90) = .ok (m', worked) ∧ setting.lopdf.load m.file = some d ∧
    setting.lopdf.load m'.file = some d' ∧ PagesKept setting m m' d d' (.rotate "3-0" 90) := by
  have hread : read setting plain = .ok (held plain ⟨"3-0", 600, 800, 0⟩) := rfl
  have hwork : ∃ m' worked, workOn setting (held plain ⟨"3-0", 600, 800, 0⟩) (.rotate "3-0" 90) = .ok (m', worked) :=
    ⟨_, _, rfl⟩
  obtain ⟨m', worked, hwork⟩ := hwork
  have hreached : workAll setting (held plain ⟨"3-0", 600, 800, 0⟩) [] = .ok (held plain ⟨"3-0", 600, 800, 0⟩) := rfl
  have hlist : (PageWork.rotate "3-0" 90 : PageWork Int).OnList := trivial
  obtain ⟨d, d', root, hd, hd', hroot, hiff⟩ :=
    page_work_iff lawful redactsRooted hread rfl plain_rooted hreached hlist hwork
  obtain rfl : plain = d := Option.some.inj hd
  obtain rfl : (⟨2, 0⟩ : ObjectId) = root := Option.some.inj hroot
  refine ⟨_, m', worked, plain, d', hread, hwork, hd, hd', hiff.mpr ⟨?_, fun id hid => ?_⟩⟩
  · intro known hknown _
    rw [List.mem_singleton.mp hknown]
    decide
  · have hname : pageId id = pageId ⟨3, 0⟩ := List.mem_singleton.mp hid
    rw [pageId_inj hname]
    exact ⟨_, rfl, rfl, .inr rfl, rfl⟩

/-- Turning the page of the nested file gives it the size of the root. -/
theorem nested_resized : ∃ m m' worked d d', read setting nested = .ok m ∧
    workOn setting m (.rotate "3-0" 90) = .ok (m', worked) ∧ setting.lopdf.load m.file = some d ∧
    setting.lopdf.load m'.file = some d' ∧ ¬PagesKept setting m m' d d' (.rotate "3-0" 90) := by
  have hread : read setting nested = .ok (held nested ⟨"3-0", 200, 200, 0⟩) := rfl
  have hwork : ∃ m' worked, workOn setting (held nested ⟨"3-0", 200, 200, 0⟩) (.rotate "3-0" 90) = .ok (m', worked) ∧
      m'.pages.map (·.width) = [600] := ⟨_, _, rfl, rfl⟩
  obtain ⟨m', worked, hwork, hwidth⟩ := hwork
  refine ⟨_, m', worked, nested, m'.file, hread, hwork, rfl, rfl, fun hkept => ?_⟩
  have hlisted : m'.pages = [turnedPage "3-0" 90 ⟨"3-0", 200, 200, 0⟩] := hkept.listed
  rw [hlisted] at hwidth
  exact absurd hwidth (by decide)

end Booklet

end Kodosi.Pdf
