import Kodosi.Text.Step

/-! Trees whose every node keeps to its schema, and a small schema of pages for concrete runs. -/

namespace Kodosi.Text

open Lib

mutual

/-- Whether every node, at every depth, satisfies its content rule and its allowed marks. -/
def Node.valid (S : Schema) : Node → Bool
  | .mk kind _ content _ _ _ => S.validContent kind content && allValid S content

def allValid (S : Schema) : List Node → Bool
  | [] => true
  | node :: rest => node.valid S && allValid S rest

end

/-! ### A page -/

/-- A document of paragraphs, which hold text that may be strong. -/
def page : Schema where
  nodes :=
    [⟨"doc", [], true, false, 1, some []⟩, ⟨"paragraph", [], true, false, 3, none⟩,
      ⟨"text", [], false, false, 0, some []⟩]
  marks := [⟨"strong", [], [0]⟩]
  matchStates := [⟨true, []⟩, ⟨false, [(1, 2)]⟩, ⟨true, [(1, 2)]⟩, ⟨true, [(2, 3)]⟩]
  text := 2
  hasText := by decide
  hasEmpty := rfl

def words (s : String) : Node := .mk 2 [] [] [] (some (encodeUtf16 s)) true

def paragraph (content : Fragment) : Node := .mk 1 [] content [] none false

def pageOf (content : Fragment) : Node := .mk 0 [] content [] none false

def twoLines : Node := pageOf [paragraph [words "ab"], paragraph [words "cd"]]

theorem ok_of_toOption {α β : Type} {x : Out α} {f : α → β} {b : β}
    (h : x.toOption.map f = some b) : ∃ a, x = .ok a ∧ f a = b := by
  cases x with
  | error e => simp [Except.toOption] at h
  | ok a => exact ⟨a, rfl, Option.some.inj h⟩

end Kodosi.Text
