import CurveGuess.Spelling.Formal

/-!
# The readable spelling

Hints and answers show a formal text the way a player would write it: commands lose their backslash,
and braces become parentheses or go. A group of a single token needs no parentheses, and braces
without a partner are left out.
-/
namespace CurveGuess.Spelling

/-- How many tokens stand before the brace that closes a group, `depth` groups being open inside. -/
def closingBrace? (depth : Nat) : List Token → Option Nat
  | [] => none
  | t :: ts =>
    match t.kind, depth with
    | .openBrace, d => (closingBrace? (d + 1) ts).map (· + 1)
    | .closeBrace, 0 => some 0
    | .closeBrace, d + 1 => (closingBrace? d ts).map (· + 1)
    | _, d => (closingBrace? d ts).map (· + 1)

/-- A brace group that is open: left out, or written with parentheses. -/
inductive ReadableGroup where
  | flat
  | paren
  deriving DecidableEq, Repr, Inhabited

/-- Does a brace group with a partner come next? -/
def opensGroup (ts : List Token) : Bool :=
  comes .openBrace ts && (closingBrace? 0 (skipSpace ts).tail).isSome

/-- What is written for a token: some text, the groups that are open after it and the tokens that
are still to be written. -/
structure ReadableStep where
  text : List Char
  groups : List ReadableGroup
  rest : List Token

/-- Writes the token `t`, which stands before `ts`, inside the brace groups `groups`, the innermost
first. The opening brace of a square root is written together with its name. -/
def readableStep (groups : List ReadableGroup) (t : Token) (ts : List Token) : ReadableStep :=
  match t.kind with
  | .command =>
    if t.bareName = "sqrt" ∧ opensGroup ts then
      ⟨['s', 'q', 'r', 't', '('], .paren :: groups, (skipSpace ts).tail⟩
    else ⟨(if t.bareName = "ln" then "log" else t.bareName).toList, groups, ts⟩
  | .cdot => ⟨['*'], groups, ts⟩
  | .openBrace =>
    match closingBrace? 0 ts with
    | none => ⟨[], groups, ts⟩
    | some n =>
      if ((ts.take n).filter (!·.isSpace)).length = 1 then ⟨[], .flat :: groups, ts⟩
      else ⟨['('], .paren :: groups, ts⟩
  | .closeBrace => ⟨if groups.head? = some .paren then [')'] else [], groups.tail, ts⟩
  | _ => ⟨t.lexeme.toList, groups, ts⟩

theorem length_readableStep_le (groups : List ReadableGroup) (t : Token) (ts : List Token) :
    (readableStep groups t ts).rest.length ≤ ts.length := by
  have h := length_tail_skipSpace_le ts
  unfold readableStep
  split <;> (try split) <;> (try split) <;> simp_all

/-- The readable text of tokens inside the brace groups `groups`. -/
def readableFrom (groups : List ReadableGroup) : List Token → List Char
  | [] => []
  | t :: ts =>
    let s := readableStep groups t ts
    s.text ++ readableFrom s.groups s.rest
  termination_by ts => ts.length
  decreasing_by
    have h := length_readableStep_le groups t ts
    simp
    omega

/-- The readable spelling of a text. -/
def toReadable (source : String) : String := String.ofList (readableFrom [] (tokens source))

end CurveGuess.Spelling
