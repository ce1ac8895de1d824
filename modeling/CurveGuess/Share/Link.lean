import CurveGuess.Diagnostic
import CurveGuess.Journal
import CurveGuess.Share.Base64
import CurveGuess.Text.Blank

/-!
# Share links

A formula is shared as a token, which is base 64 of its formal text, or as a link that holds the
token in its query.
-/
namespace CurveGuess

/-- Why nothing was shared by a token or a link. -/
inductive ShareCause where
  | notBase64 (fault : Base64.Fault)
  | notText
  | missing
  deriving DecidableEq, Repr, Inhabited

/-- A cause with the token or, if that is missing, the link. -/
structure ShareFault where
  cause : ShareCause
  subject : String
  deriving DecidableEq, Repr, Inhabited

def ShareFault.diagnostic (f : ShareFault) : Diagnostic where
  message := "invalid share link"
  label := "this token " ++ match f.cause with
    | .notBase64 _ => "is not base64"
    | .notText => "does not decode to text"
    | .missing => "is missing"
  help := some "ask for the link to be shared again"
  span := ⟨0, f.subject.utf8ByteSize⟩

namespace Share

/-- The parameter that holds the token. -/
def parameter : String := "f"

/-- The remark on a fault. -/
def remark (f : ShareFault) : Note :=
  ⟨.warn, match f.cause with
    | .notBase64 why => "share token `" ++ f.subject ++ "` is not base64: " ++ why.text
    | .notText => "share token `" ++ f.subject ++ "` does not decode to text"
    | .missing => "link `" ++ f.subject ++ "` has no `" ++ parameter ++ "` parameter"⟩

/-- The token of a formal text. -/
def encode (formal : String) : String :=
  String.ofList (Base64.encode .urlSafe formal.toUTF8.data.toList)

/-- The bytes of a token, in the spelling that links have or else padded, in either alphabet. -/
def bytes (token : String) : Except Base64.Fault (List UInt8) :=
  let text := token.toUTF8.data.toList
  match Base64.decode .urlSafe .refused text with
  | .ok bs => .ok bs
  | .error _ =>
    match Base64.decode .urlSafe .required text with
    | .ok bs => .ok bs
    | .error _ => Base64.decode .standard .required text

/-- The formal text of a token. Blanks around it do not count. -/
def decode (token : String) : Except ShareFault String :=
  let token := trim token
  match bytes token with
  | .error f => .error ⟨.notBase64 f, token⟩
  | .ok bs =>
    match String.fromUTF8? ⟨bs.toArray⟩ with
    | some s => .ok s
    | none => .error ⟨.notText, token⟩

def link (origin path formal : String) : String :=
  origin ++ path ++ "?" ++ parameter ++ "=" ++ encode formal

/-- The pieces between separators. -/
def pieces (separator : Char) : List Char → List (List Char)
  | [] => [[]]
  | c :: cs =>
    match pieces separator cs with
    | [] => [[c]]
    | p :: ps => if c = separator then [] :: p :: ps else (c :: p) :: ps

/-- What stands after the first question mark, up to a fragment. -/
def query? (link : List Char) : Option (List Char) :=
  match link.dropWhile (· ≠ '?') with
  | [] => none
  | _ :: rest => some (rest.takeWhile (· ≠ '#'))

/-- The value of an item of a query if it has the given key. -/
def valueOf? (key item : List Char) : Option (List Char) :=
  match item.dropWhile (· ≠ '=') with
  | [] => none
  | _ :: value => if item.takeWhile (· ≠ '=') = key then some value else none

/-- The token in a link. -/
def token? (link : String) : Option String :=
  (query? link.toList).bind fun query =>
    ((pieces '&' query).findSome? (valueOf? parameter.toList)).map String.ofList

/-- The formal text that a link shares. -/
def target (link : String) : Except ShareFault String :=
  match token? link with
  | some token => decode token
  | none => .error ⟨.missing, link⟩

end Share

end CurveGuess
