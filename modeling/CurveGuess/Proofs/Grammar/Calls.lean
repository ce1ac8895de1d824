import CurveGuess.Proofs.Grammar.Completeness

/-!
# Shapes up to spelling, and calls in pieces

The two spellings of a formula differ in how they write products and calls, and a shape without
these differences is what they have in common. In a row of pieces a call is a name that a group
follows.
-/
namespace CurveGuess

/-- `log` and `ln` are one function. -/
def plainName (name : String) : String := if name = "log" then "ln" else name

namespace Shape

mutual

/-- A shape up to the spelling of products and calls. -/
def plain : Shape → Shape
  | .number n => .number n
  | .symbol s => .symbol s
  | .group d e => .group d e.plain
  | .call name _ _ es => .call (plainName name) false .paren (plains es)
  | .unary k e => .unary k e.plain
  | .binary k _ a b => .binary k false a.plain b.plain

def plains : List Shape → List Shape
  | [] => []
  | e :: es => e.plain :: plains es

end

mutual

/-- Every call has one argument. -/
def singleArgs : Shape → Bool
  | .number _ => true
  | .symbol _ => true
  | .group _ e => e.singleArgs
  | .call _ _ _ es => es.length = 1 && allSingleArgs es
  | .unary _ e => e.singleArgs
  | .binary _ _ a b => a.singleArgs && b.singleArgs

def allSingleArgs : List Shape → Bool
  | [] => true
  | e :: es => e.singleArgs && allSingleArgs es

end

end Shape

namespace Piece

/-- The number of names with a group right after them. -/
def callSites : List Piece → Nat
  | [] => 0
  | t :: ts => callSites ts + if t.isCallable && opens ts then 1 else 0

end Piece

open Piece

namespace Derivation

variable {p : Part} {i r : List Piece} {es : List Shape}

/-- A derivation takes no symbol. -/
theorem mem_of_symbol (d : Derivation p i r es) {t : Piece} (ht : t ∈ i) (hk : t.kind = .symbol) :
    t ∈ r := by
  induction d with
  | ofProduct _ ih | ofSigned _ ih | ofPower _ ih | ofPrimary _ ih => exact ih ht
  | add _ h _ ih₁ ih₂ | mul _ h _ ih₁ ih₂ =>
    rcases List.mem_cons.mp (ih₁ ht) with rfl | ht
    · rw [hk] at h
      cases h
    · exact ih₂ ht
  | juxtapose _ _ ih₁ ih₂ => exact ih₂ (ih₁ ht)
  | sign h _ ih =>
    rcases List.mem_cons.mp ht with rfl | ht
    · rw [hk] at h
      cases h
    · exact ih ht
  | raise _ h _ ih₁ ih₂ | nextArgument _ h _ ih₁ ih₂ =>
    rcases List.mem_cons.mp (ih₁ ht) with rfl | ht
    · rw [hk] at h
      cases h
    · exact ih₂ ht
  | number h =>
    rcases List.mem_cons.mp ht with rfl | ht
    · rw [hk] at h
      cases h
    · exact ht
  | @group _ _ _ _ _ k h _ h' ih =>
    rcases List.mem_cons.mp ht with rfl | ht
    · rw [hk] at h
      cases h
    · rcases List.mem_cons.mp (ih ht) with rfl | ht
      · rw [hk] at h'
        cases k <;> cases h'
      · exact ht
  | symbol h _ =>
    rcases List.mem_cons.mp ht with rfl | ht
    · simp [isName, hk] at h
    · exact ht
  | braceCall h h' _ h'' ih =>
    rcases List.mem_cons.mp ht with rfl | ht
    · simp [isCallable, hk] at h
    rcases List.mem_cons.mp ht with rfl | ht
    · rw [hk] at h'
      cases h'
    rcases List.mem_cons.mp (ih ht) with rfl | ht
    · rw [hk] at h''
      cases h''
    · exact ht
  | parenCall h h' _ ih =>
    rcases List.mem_cons.mp ht with rfl | ht
    · simp [isCallable, hk] at h
    rcases List.mem_cons.mp ht with rfl | ht
    · rw [hk] at h'
      cases h'
    · exact ih ht
  | lastArgument _ h ih =>
    rcases List.mem_cons.mp (ih ht) with rfl | ht
    · rw [hk] at h
      cases h
    · exact ht

end Derivation

end CurveGuess
