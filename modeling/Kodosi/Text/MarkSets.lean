import Kodosi.Text.Valid

/-! The sets of marks on a node: a set stands in the order of the ranks, has nothing twice, and has no mark that excludes
    another one of it. -/

namespace Kodosi.Text

open Documents Lib

namespace Mark

variable {S : Schema} {mark : Mark} {set : List Mark}

/-- What a set of marks is. -/
structure Canonical (S : Schema) (set : List Mark) : Prop where
  ordered : set.Pairwise fun a b => a.kind ≤ b.kind
  once : set.Nodup
  apart : ∀ a ∈ set, ∀ b ∈ set, a ≠ b → S.excludes a.kind b.kind = false

/-- A mark of the set excludes this one, which does not exclude it. -/
def Blocked (S : Schema) (mark : Mark) (set : List Mark) : Prop :=
  ∃ other ∈ set, S.excludes mark.kind other.kind = false ∧ S.excludes other.kind mark.kind = true

/-- The marks that this one does not exclude. -/
def allowed (S : Schema) (mark : Mark) (set : List Mark) : List Mark := set.filter fun other => !S.excludes mark.kind other.kind

/-- A mark before the first one of a higher rank. -/
def place (mark : Mark) : List Mark → List Mark
  | [] => [mark]
  | other :: rest => if mark.kind < other.kind then mark :: other :: rest else other :: place mark rest

/-! ### What the loop gives -/

/-- A mark that is there, or that the set does not take, leaves the set. -/
theorem placeInSet_stays : ∀ {passed rest : List Mark} {copy : Option (List Mark)} {placed : Bool},
    (mark ∈ rest ∨ Blocked S mark rest) → placeInSet S mark set passed rest copy placed = set
  | _, [], _, _, h => by
    rcases h with h | ⟨other, h, -⟩ <;> exact absurd h List.not_mem_nil
  | passed, other :: rest, copy, placed, h => by
    rw [placeInSet]
    by_cases heq : mark = other
    · rw [if_pos heq]
    rw [if_neg heq]
    have hrest : S.excludes mark.kind other.kind = true ∨ S.excludes other.kind mark.kind = false →
        mark ∈ rest ∨ Blocked S mark rest := by
      intro hother
      rcases h with h | ⟨blocker, hblocker, hnot, hexcludes⟩
      · exact .inl ((List.mem_cons.mp h).resolve_left heq)
      · rcases List.mem_cons.mp hblocker with rfl | hblocker
        · rcases hother with hother | hother
          · rw [hnot] at hother
            exact absurd hother Bool.false_ne_true
          · rw [hexcludes] at hother
            exact absurd hother.symm Bool.false_ne_true
        · exact .inr ⟨blocker, hblocker, hnot, hexcludes⟩
    by_cases hout : S.excludes mark.kind other.kind = true
    · rw [if_pos hout]
      exact placeInSet_stays (hrest (.inl hout))
    rw [if_neg hout]
    by_cases hblocked : S.excludes other.kind mark.kind = true
    · rw [if_pos hblocked]
    · rw [if_neg hblocked]
      have hrest := hrest (.inr (Bool.eq_false_iff.mpr hblocked))
      split_ifs
      · exact placeInSet_stays hrest
      · exact placeInSet_stays hrest

/-- No mark of the rest stops the loop. -/
structure Open (S : Schema) (mark : Mark) (rest : List Mark) : Prop where
  absent : mark ∉ rest
  free : ¬Blocked S mark rest

theorem Open.head {other : Mark} {rest : List Mark} (h : Open S mark (other :: rest)) : mark ≠ other ∧
    (S.excludes mark.kind other.kind = false → S.excludes other.kind mark.kind = false) ∧ Open S mark rest := by
  refine ⟨fun heq => h.absent (heq ▸ List.mem_cons_self ..), fun hnot => ?_,
    fun hmem => h.absent (List.mem_cons_of_mem _ hmem), fun ⟨blocker, hblocker, hall⟩ =>
      h.free ⟨blocker, List.mem_cons_of_mem _ hblocker, hall⟩⟩
  by_contra hexcludes
  exact h.free ⟨other, List.mem_cons_self .., hnot, by simpa using hexcludes⟩

theorem placeInSet_placed : ∀ {passed rest copy : List Mark}, Open S mark rest →
    placeInSet S mark set passed rest (some copy) true = copy ++ allowed S mark rest
  | _, [], copy, _ => by simp [placeInSet, allowed]
  | passed, other :: rest, copy, h => by
    obtain ⟨hne, hfree, hrest⟩ := h.head
    rw [placeInSet, if_neg hne]
    by_cases hout : S.excludes mark.kind other.kind = true
    · rw [if_pos hout, Option.getD_some, placeInSet_placed hrest]
      simp [allowed, hout]
    · have hout := Bool.eq_false_iff.mpr hout
      simp only [hout, hfree hout, Bool.false_eq_true, if_false, Bool.not_true, Bool.false_and, Option.map_some]
      rw [placeInSet_placed hrest]
      simp [allowed, hout]

theorem placeInSet_place : ∀ {passed rest : List Mark} {copy : Option (List Mark)}, Open S mark rest →
    passed ++ rest = set → copy.getD passed = allowed S mark passed →
    placeInSet S mark set passed rest copy false = allowed S mark passed ++ place mark (allowed S mark rest)
  | passed, [], copy, _, hset, hcopy => by
    rw [List.append_nil] at hset
    subst hset
    rw [placeInSet, hcopy]
    simp [allowed, place]
  | passed, other :: rest, copy, h, hset, hcopy => by
    obtain ⟨hne, hfree, hrest⟩ := h.head
    have hset' : (passed ++ [other]) ++ rest = set := by rw [List.append_assoc, List.singleton_append, hset]
    rw [placeInSet, if_neg hne]
    by_cases hout : S.excludes mark.kind other.kind = true
    · have hskip : allowed S mark (passed ++ [other]) = allowed S mark passed := by simp [allowed, hout]
      rw [if_pos hout, placeInSet_place hrest hset' (by rw [Option.getD_some, hcopy, hskip]), hskip]
      simp [allowed, hout]
    · have hout := Bool.eq_false_iff.mpr hout
      have htake : allowed S mark (other :: rest) = other :: allowed S mark rest := by simp [allowed, hout]
      have hpassed : allowed S mark (passed ++ [other]) = allowed S mark passed ++ [other] := by simp [allowed, hout]
      simp only [hout, hfree hout, Bool.false_eq_true, if_false, Bool.not_false, Bool.true_and, decide_eq_true_eq]
      rw [htake, place]
      by_cases hrank : mark.kind < other.kind
      · rw [if_pos hrank, if_pos hrank, placeInSet_placed hrest, hcopy]
        simp
      · rw [if_neg hrank, if_neg hrank, placeInSet_place hrest hset' ?_, hpassed]
        · simp
        · rw [hpassed, ← hcopy]
          cases copy <;> rfl

/-- The set as it is, or without the marks that this one excludes and with this one in its place. -/
theorem addToSet_eq_self (h : mark ∈ set ∨ Blocked S mark set) : mark.addToSet S set = set := placeInSet_stays h

theorem addToSet_eq_place (habsent : mark ∉ set) (hfree : ¬Blocked S mark set) :
    mark.addToSet S set = place mark (allowed S mark set) :=
  placeInSet_place ⟨habsent, hfree⟩ rfl rfl

/-! ### Sets stay sets -/

theorem place_perm (mark : Mark) : ∀ set : List Mark, (place mark set).Perm (mark :: set)
  | [] => .refl _
  | other :: rest => by
    rw [place]
    split_ifs
    · exact .refl _
    · exact ((place_perm mark rest).cons other).trans (.swap mark other rest)

theorem place_ordered : ∀ {set : List Mark}, (set.Pairwise fun a b => a.kind ≤ b.kind) →
    (place mark set).Pairwise fun a b => a.kind ≤ b.kind
  | [], _ => List.pairwise_singleton _ _
  | other :: rest, h => by
    obtain ⟨hother, hrest⟩ := List.pairwise_cons.mp h
    rw [place]
    split_ifs with hrank
    · refine List.pairwise_cons.mpr ⟨fun x hx => ?_, h⟩
      rcases List.mem_cons.mp hx with rfl | hx
      · exact hrank.le
      · exact hrank.le.trans (hother x hx)
    · refine List.pairwise_cons.mpr ⟨fun x hx => ?_, place_ordered hrest⟩
      rcases List.mem_cons.mp ((place_perm mark rest).mem_iff.mp hx) with rfl | hx
      · exact not_lt.mp hrank
      · exact hother x hx

theorem mem_allowed {x : Mark} : x ∈ allowed S mark set ↔ x ∈ set ∧ S.excludes mark.kind x.kind = false := by
  simp [allowed]

theorem Canonical.sublist {less : List Mark} (h : Canonical S set) (hless : less.Sublist set) : Canonical S less :=
  ⟨h.ordered.sublist hless, h.once.sublist hless, fun a ha b hb => h.apart a (hless.subset ha) b (hless.subset hb)⟩

theorem Canonical.place (h : Canonical S set) (habsent : mark ∉ set) (hfree : ¬Blocked S mark set) :
    Canonical S (place mark (allowed S mark set)) := by
  have hless := h.sublist (List.filter_sublist (p := fun other => !S.excludes mark.kind other.kind))
  have hperm := place_perm mark (allowed S mark set)
  refine ⟨place_ordered hless.ordered, hperm.nodup_iff.mpr (List.nodup_cons.mpr ⟨?_, hless.once⟩), fun a ha b hb hne => ?_⟩
  · exact fun hmem => habsent (mem_allowed.mp hmem).1
  rcases List.mem_cons.mp (hperm.mem_iff.mp ha) with rfl | ha <;>
    rcases List.mem_cons.mp (hperm.mem_iff.mp hb) with rfl | hb
  · exact absurd rfl hne
  · exact (mem_allowed.mp hb).2
  · obtain ⟨hmem, hnot⟩ := mem_allowed.mp ha
    by_contra hexcludes
    exact hfree ⟨a, hmem, hnot, by simpa using hexcludes⟩
  · exact hless.apart a ha b hb hne

/-- Adding a mark to a set gives a set: the old one when it has the mark or does not take it, and else the mark and all
    that it does not exclude. Adding it again changes nothing, and removing it takes it and nothing else. -/
theorem sets_stay_sets (h : Canonical S set) :
    Canonical S (mark.addToSet S set) ∧ (Blocked S mark set → mark.addToSet S set = set) ∧
    (¬Blocked S mark set → ∀ x, x ∈ mark.addToSet S set ↔ x = mark ∨ (x ∈ set ∧ S.excludes mark.kind x.kind = false)) ∧
    mark.addToSet S (mark.addToSet S set) = mark.addToSet S set ∧
    Canonical S (mark.removeFromSet set) ∧ (mark.removeFromSet set).Sublist set ∧
    ∀ x, x ∈ mark.removeFromSet set ↔ x ≠ mark ∧ x ∈ set := by
  have hremoved : (mark.removeFromSet set).Sublist set := List.erase_sublist
  refine ⟨?_, fun hblocked => addToSet_eq_self (.inr hblocked), fun hfree x => ?_, ?_, h.sublist hremoved, hremoved,
    fun x => h.once.mem_erase_iff⟩
  · by_cases hstays : mark ∈ set ∨ Blocked S mark set
    · rw [addToSet_eq_self hstays]
      exact h
    · obtain ⟨habsent, hfree⟩ := not_or.mp hstays
      rw [addToSet_eq_place habsent hfree]
      exact h.place habsent hfree
  · by_cases hmem : mark ∈ set
    · rw [addToSet_eq_self (.inl hmem)]
      refine ⟨fun hx => ?_, fun hx => hx.elim (fun heq => heq ▸ hmem) And.left⟩
      by_cases heq : x = mark
      · exact .inl heq
      · exact .inr ⟨hx, h.apart mark hmem x hx fun he => heq he.symm⟩
    · rw [addToSet_eq_place hmem hfree, (place_perm mark _).mem_iff, List.mem_cons, mem_allowed]
  · by_cases hstays : mark ∈ set ∨ Blocked S mark set
    · rw [addToSet_eq_self hstays, addToSet_eq_self hstays]
    · obtain ⟨habsent, hfree⟩ := not_or.mp hstays
      rw [addToSet_eq_place habsent hfree]
      exact addToSet_eq_self (.inl ((place_perm mark _).mem_iff.mpr (List.mem_cons_self ..)))

/-- A page whose text may link to an address. -/
def linked : Schema := { page with marks := [⟨"link", [⟨"href", none⟩], [0]⟩] }

def link (address : String) : Mark := ⟨0, [("href", .string address)]⟩

theorem one_link (address : String) : Canonical linked [link address] := by
  refine ⟨List.pairwise_singleton _ _, List.nodup_singleton _, fun a ha b hb hne => ?_⟩
  rw [List.mem_singleton.mp ha, List.mem_singleton.mp hb] at hne
  exact absurd rfl hne

/-- A link of the set excludes another one, and still it is the old one that goes. -/
theorem new_link_stands : Canonical linked [link "a"] ∧
    (∃ other ∈ [link "a"], linked.excludes other.kind (link "b").kind = true) ∧
    (link "b").addToSet linked [link "a"] = [link "b"] ∧ [link "b"] ≠ [link "a"] :=
  ⟨one_link "a", ⟨link "a", List.mem_cons_self .., by decide⟩, by decide, by decide⟩

theorem sets_stay_sets_link : Canonical linked ((link "b").addToSet linked [link "a"]) :=
  (sets_stay_sets (one_link "a")).1

end Mark

end Kodosi.Text
