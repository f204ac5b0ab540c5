import Manvi.Encoding.JsonRoundTrip

/-! What encoding/json takes for a document, with its bound on nesting. -/
namespace Manvi.Encoding

namespace Json

mutual
/-- How deep the arrays and objects of a document nest. -/
def depth : Json → ℕ
  | .arr items => depthItems items+1
  | .obj members => depthMembers members+1
  | _ => 0

def depthItems : List Json → ℕ
  | [] => 0
  | x :: xs => max (depth x) (depthItems xs)

def depthMembers : List (String × Json) → ℕ
  | [] => 0
  | (_,v) :: ms => max (depth v) (depthMembers ms)
end

def maxNestingDepth : ℕ := 10000

/-- The document that a text decodes to: nesting too deep is an error of syntax. -/
def unmarshal (cs : List Char) : Option Json :=
  (parse cs).filter (fun j => j.depth ≤ maxNestingDepth)

def valid (cs : List Char) : Bool := (unmarshal cs).isSome

lemma unmarshal_some {cs : List Char} {j : Json} (h : unmarshal cs = some j) :
    parse cs = some j := by
  unfold unmarshal at h
  exact (Option.filter_eq_some_iff.mp h).1

lemma parse_value {cs : List Char} {j : Json} (h : parse cs = some j) :
    ∃ rest, parseValue (cs.length+1) cs = some (j,rest) ∧ skipSpace rest = [] := by
  unfold parse at h
  cases hv : parseValue (cs.length+1) cs with
  | none =>
    rw [hv] at h
    cases h
  | some r =>
    obtain ⟨k,rest⟩ := r
    rw [hv] at h
    dsimp only at h
    split at h
    next hrest =>
      cases h
      exact ⟨rest,rfl,hrest⟩
    next => cases h

end Json
end Manvi.Encoding
