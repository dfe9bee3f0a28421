import Kodosi.Text.Moves

/-! Documents as the crate builds them, across the steps of a change that came as JSON, and a position in them. -/

namespace Kodosi.Text

open Lib Documents

variable {S : Schema} {doc out : Node} {json : Value} {step : Step}

/-! ### What JSON builds -/

theorem readWith_holds {read : Value → Out Node} (hread : ∀ json node, read json = .ok node → node.HoldsText S)
    {value : Option Value} {nodes : List Node} (h : Fragment.readWith read value = .ok nodes) : HoldsText S nodes := by
  obtain ⟨items, rfl, hitems⟩ := readWith_ok h
  refine (fromArray_tokens (holdsText_iff.mpr fun item hitem => ?_)).2
  obtain ⟨json, hjson⟩ := hitems item hitem
  exact hread json item hjson

/-- In what is read from JSON, the nodes of the text type are those that hold text. -/
theorem fromJsonAt_holds {left : Nat} {json : Value} {node : Node} (h : Node.fromJsonAt S left json = .ok node) :
    node.HoldsText S := by
  induction left generalizing json node with
  | zero => simp [Node.fromJsonAt, failed] at h
  | succ left ih =>
    rcases fromJsonAt_ok h with ⟨marks, units, rfl⟩ | ⟨kind, attrs, content, marks, value, rfl, hkind, hcontent⟩
    · exact ⟨⟨fun _ => rfl, fun _ => rfl⟩, trivial⟩
    · exact ⟨⟨by simp, fun htext => absurd htext hkind⟩, readWith_holds (fun _ _ => ih) hcontent⟩

theorem stepFromJson_holds (h : Step.fromJson S json = .ok step) : ∀ slice ∈ step.slice, HoldsText S slice.content := by
  intro slice hslice
  obtain ⟨content, hcontent⟩ := sliceFromJson_content (stepFromJson_slice h slice hslice)
  exact readWith_holds (fun _ _ => fromJsonAt_holds) hcontent

/-! ### One step -/

/-- A document as the crate builds it: the nodes of the text type are those that hold text, and a node is a leaf when its
    type is one. -/
structure Sound (S : Schema) (doc : Node) : Prop where
  holds : HoldsText S doc.content
  typed : Typed S (tokens doc.content)

/-- A step that came as JSON, that is what it says and that does not run backwards, keeps a document as the crate
    builds it. -/
theorem Sound.apply (hdoc : Sound S doc) (hstep : Step.fromJson S json = .ok step) (hforward : step.Forward)
    (hreal : step.Real doc) (h : step.apply S doc = .ok out) : Sound S out := by
  have hslice := stepFromJson_holds hstep
  have hadded : ∀ slice ∈ step.slice, Typed S (tokens slice.content) := fun slice hslice =>
    typed_of_built (stepFromJson_built hstep slice hslice)
  cases step with
  | replace lo hi slice structure_ =>
    obtain ⟨added, -, -, htokens, hholds, hmem⟩ := replace_parts hdoc.holds (hslice slice rfl) hreal h
    refine ⟨hholds, ?_⟩
    rw [htokens, typed_append, typed_append]
    exact ⟨⟨hdoc.typed.take lo, fun t ht => hadded slice rfl t (hmem t ht)⟩, hdoc.typed.drop hi⟩
  | replaceAround lo hi gapFrom gapTo slice insert structure_ =>
    obtain ⟨front, back, -, -, -, htokens, hholds, hfront, hback⟩ :=
      replaceAround_parts hdoc.holds (hslice slice rfl) hforward.2.1 hreal.1 hreal.2 h
    refine ⟨hholds, ?_⟩
    rw [htokens, typed_append, typed_append, typed_append, typed_append]
    exact ⟨⟨⟨⟨hdoc.typed.take lo, fun t ht => hadded slice rfl t (hfront t ht)⟩, (hdoc.typed.take gapTo).drop gapFrom⟩,
      fun t ht => hadded slice rfl t (hback t ht)⟩, hdoc.typed.drop hi⟩
  | addMark | removeMark | addNodeMark | removeNodeMark | attr | docAttr =>
    obtain ⟨hbare, hholds⟩ := same_bare hdoc.holds hdoc.typed hforward hreal rfl h
    exact ⟨hholds, (typed_congr hbare).mpr hdoc.typed⟩

/-- A position of a document moves to a position of the document after the step. -/
theorem Sound.moves (hdoc : Sound S doc) (hstep : Step.fromJson S json = .ok step) (hforward : step.Forward)
    (hreal : step.Real doc) (hsmall : Fragment.size doc.content < 2 ^ 63) (hsmall' : Fragment.size out.content < 2 ^ 63)
    (h : step.apply S doc = .ok out) {pos : Nat} (hpos : pos ≤ Fragment.size doc.content) (assoc : Int) :
    ∃ moved, step.move pos assoc = .ok moved ∧ moved ≤ Fragment.size out.content := by
  obtain ⟨move, hmove, hmoves⟩ := positions_move S doc out step hdoc.holds hdoc.typed (stepFromJson_holds hstep) hsmall
    hsmall' hforward hreal h
  exact ⟨move pos assoc, hmove pos assoc (by omega), hmoves.within assoc hpos⟩

end Kodosi.Text
