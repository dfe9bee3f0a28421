import Kodosi.Pdf.PageWork

/-! How pages read before and after an update that lists them under the root of the page tree. -/

namespace Kodosi.Pdf
open Kodosi.Lib
open Kodosi.Documents (Refused Unreadable)

variable {File F R O N V : Type} {L : Lopdf File F O} {floats : Floats F R} {broken : String}
  {d d' : Document F O} {root id : ObjectId} {os : List ObjectId} {turned : ObjectId → Dictionary F O → Dictionary F O}

/-- The root of the page tree has no parent. -/
def Document.Rooted (d : Document F O) : Prop :=
  ∀ {root tree}, d.pagesRoot = some root → d.dictionary root = some tree → tree "Parent" = none

/-- A page's own value, or the one of the root. -/
def flat (d : Document F O) (root : ObjectId) (page : Dictionary F O) (key : String) : Option (Object F O) :=
  (page key).or ((d.dictionary root).bind (· key))

/-- Turning a page sets its rotation and nothing else. -/
def OnlyTurned (turned : ObjectId → Dictionary F O → Dictionary F O) : Prop :=
  ∀ id page key, key ≠ "Rotate" → turned id page key = page key

namespace Arranged

/-- The keys that page work sets. -/
def touched : List String := ["Kids", "Count", "Parent", "Rotate"]

variable {page : Dictionary F O} {key : String}

theorem page_key (hturned : OnlyTurned turned) (hkey : key ∉ touched) :
    (turned id page).set "Parent" (.reference root) key = page key := by
  rw [Dictionary.set_other _ (fun h => hkey (by rw [h]; decide)), hturned _ _ _ fun h => hkey (by rw [h]; decide)]

theorem tree_key {tree : Dictionary F O} {kids count : Object F O} (hkids : key ≠ "Kids") (hcount : key ≠ "Count") :
    (tree.set "Kids" kids).set "Count" count key = tree key := by
  rw [Dictionary.set_other _ hcount, Dictionary.set_other _ hkids]

/-- Other keys stay, wherever they are. -/
theorem keeps (h : Arranged d d' root os turned) (hturned : OnlyTurned turned) (hkey : key ∉ touched) (id : ObjectId) :
    (d'.dictionary id).bind (· key) = (d.dictionary id).bind (· key) := by
  by_cases hroot : id = root
  · subst hroot
    obtain ⟨tree, count, htree, htree'⟩ := h.tree
    rw [htree, htree', Option.bind_some, Option.bind_some]
    exact tree_key (fun h => hkey (by rw [h]; decide)) fun h => hkey (by rw [h]; decide)
  by_cases hid : id ∈ os
  · obtain ⟨page, hpage, hpage'⟩ := h.page id hid
    rw [hpage, hpage', Option.bind_some, Option.bind_some]
    exact page_key hturned hkey
  · rw [Document.dictionary, Objects.dictionary, h.other id hroot hid]
    rfl

theorem pagesRoot (h : Arranged d d' root os turned) (hturned : OnlyTurned turned) (hpages : d.pagesRoot = some root) :
    d'.pagesRoot = some root := by
  have hsplit : ∀ d : Document F O, d.pagesRoot =
      (d.root.bind fun id => (d.dictionary id).bind (· "Pages")).bind Object.asReference := by
    intro d
    rw [Document.pagesRoot]
    cases d.root with
    | none => rfl
    | some id =>
      show ((d.dictionary id).bind fun catalog => (catalog "Pages").bind Object.asReference) =
        ((d.dictionary id).bind fun catalog => catalog "Pages").bind Object.asReference
      rw [Option.bind_assoc]
  rw [hsplit] at hpages ⊢
  rw [h.root_eq, ← hpages]
  congr 1
  exact congrArg _ (funext fun id => h.keeps hturned (by decide) id)

/-- The pages of the update are those that it lists. -/
theorem getPages (h : Arranged d d' root os turned) (hL : L.Lawful) (hturned : OnlyTurned turned)
    (hpages : d.pagesRoot = some root) (hroot : root ∉ os) (hos : ∀ id ∈ os, id ∈ L.getPages d) : L.getPages d' = os := by
  obtain ⟨tree, count, -, htree'⟩ := h.tree
  refine hL.flat (d := d) (h.pagesRoot hturned hpages) htree' ?_ hroot fun id hid => ?_
  · rw [Dictionary.set_other _ (by decide), Dictionary.set_same]
  · obtain ⟨page, hpage, hpage'⟩ := h.page id hid
    exact ⟨page, _, hos id hid, hpage, hpage', page_key hturned (by decide)⟩

theorem sameBesides (h : Arranged d d' root os turned) : d.objects.SameBesides d'.objects := by
  intro id
  by_cases hroot : id = root
  · subst hroot
    obtain ⟨tree, count, htree, htree'⟩ := h.tree
    exact .inr ⟨Option.isSome_of_eq_some htree, Option.isSome_of_eq_some htree'⟩
  by_cases hid : id ∈ os
  · obtain ⟨page, hpage, hpage'⟩ := h.page id hid
    exact .inr ⟨Option.isSome_of_eq_some hpage, Option.isSome_of_eq_some hpage'⟩
  · exact .inl (h.other id hroot hid).symm

theorem numbers (h : Arranged d d' root os turned) (hL : L.Lawful) (object : Object F O) :
    numbers L floats d' object = numbers L floats d object := by
  rw [Pdf.numbers, Pdf.numbers, hL.array_same h.sameBesides]

theorem rooted (h : Arranged d d' root os turned) (hturned : OnlyTurned turned) (hpages : d.pagesRoot = some root)
    (hrooted : d.Rooted) : d'.Rooted := by
  intro root' tree' hroot' htree'
  rw [h.pagesRoot hturned hpages] at hroot'
  obtain rfl := Option.some.inj hroot'
  obtain ⟨tree, count, htree, hset⟩ := h.tree
  rw [hset] at htree'
  obtain rfl := Option.some.inj htree'
  rw [tree_key (by decide) (by decide)]
  exact hrooted hpages htree

/-- A listed page inherits from the root alone. -/
theorem inherited (h : Arranged d d' root os turned) (hpages : d.pagesRoot = some root) (hrooted : d.Rooted)
    (hkids : key ≠ "Kids") (hcount : key ≠ "Count") (hparent : key ≠ "Parent") :
    inherited d' ((turned id page).set "Parent" (.reference root)) key = flat d root (turned id page) key := by
  obtain ⟨tree, count, htree, htree'⟩ := h.tree
  have hstep : ∀ (n : Nat) (x : Dictionary F O), inheritedFrom d' (n + 1) x key = (x key).or
      (((x "Parent").bind Object.asReference).bind fun parent => (d'.dictionary parent).bind fun next =>
        inheritedFrom d' n next key) := by
    intro n x
    rw [inheritedFrom]
    cases x key <;> rfl
  have htop : (tree.set "Kids" (.array (os.map .reference))).set "Count" count "Parent" = none := by
    rw [tree_key (by decide) (by decide)]
    exact hrooted hpages htree
  show inheritedFrom d' (30 + 1 + 1) _ key = _
  rw [hstep, Dictionary.set_other _ hparent, Dictionary.set_same]
  show (turned id page key).or ((d'.dictionary root).bind fun next => inheritedFrom d' (30 + 1) next key) = _
  rw [htree', Option.bind_some, hstep, tree_key hkids hcount, htop, flat, htree]
  simp

end Arranged

end Kodosi.Pdf
