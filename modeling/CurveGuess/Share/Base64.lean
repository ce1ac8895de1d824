/-!
# Base 64

Bytes as text. Three bytes are four symbols of six bits each; one or two bytes that are left are two
or three symbols, whose unused bits are zero and after which equals signs may fill up the block of
four. There are two alphabets, which differ in their last two symbols.
-/
namespace CurveGuess.Base64

inductive Alphabet where
  | standard
  | urlSafe
  deriving DecidableEq, Repr, Inhabited

namespace Alphabet

/-- The symbols for 62 and 63. -/
def last : Alphabet → List Char
  | standard => ['+', '/']
  | urlSafe => ['-', '_']

/-- The symbols, each at the place of its value. -/
def symbols (a : Alphabet) : List Char :=
  "ABCDEFGHIJKLMNOPQRSTUVWXYZabcdefghijklmnopqrstuvwxyz0123456789".toList ++ a.last

def symbol (a : Alphabet) (value : Nat) : Char := a.symbols[value]?.getD 'A'

/-- The value of the symbol that a byte is. -/
def value? (a : Alphabet) (b : UInt8) : Option Nat :=
  a.symbols.findIdx? fun c => c.toNat = b.toNat

end Alphabet

/-- The byte of an equals sign. -/
def pad : UInt8 := 61

/-- May equals signs fill up the last block? -/
inductive Padding where
  | refused
  | required
  deriving DecidableEq, Repr, Inhabited

/-- Cuts bytes into values of six bits, the unused bits of the last one being zero. -/
def sextets : List UInt8 → List Nat
  | [] => []
  | [x] => [x.toNat / 4, x.toNat % 4 * 16]
  | [x, y] => [x.toNat / 4, x.toNat % 4 * 16 + y.toNat / 16, y.toNat % 16 * 4]
  | x :: y :: z :: rest =>
    x.toNat / 4 :: (x.toNat % 4 * 16 + y.toNat / 16) :: (y.toNat % 16 * 4 + z.toNat / 64)
      :: z.toNat % 64 :: sextets rest

/-- The unpadded text of some bytes. -/
def encode (a : Alphabet) (bytes : List UInt8) : List Char := (sextets bytes).map a.symbol

/-- Puts values of six bits together again, with the unused bits of the last one. -/
def unite : List Nat → List UInt8 × Nat
  | [] => ([], 0)
  | [a] => ([], a)
  | [a, b] => ([(a * 4 + b / 16).toUInt8], b % 16)
  | [a, b, c] => ([(a * 4 + b / 16).toUInt8, (b % 16 * 16 + c / 4).toUInt8], c % 4)
  | a :: b :: c :: d :: rest =>
    let (bytes, unused) := unite rest
    ((a * 4 + b / 16).toUInt8 :: (b % 16 * 16 + c / 4).toUInt8 :: (c % 4 * 64 + d).toUInt8 :: bytes,
      unused)

/-- Why a text is not base 64. -/
inductive Fault where
  | invalidByte (byte : UInt8) (offset : Nat)
  | invalidLength
  | invalidLastSymbol (byte : UInt8) (offset : Nat)
  | invalidPadding
  deriving DecidableEq, Repr, Inhabited

def Fault.text : Fault → String
  | invalidByte b i => "Invalid byte " ++ toString b.toNat ++ ", offset " ++ toString i ++ "."
  | invalidLength => "Encoded text cannot have a 6-bit remainder."
  | invalidLastSymbol b i =>
    "Invalid last symbol " ++ toString b.toNat ++ ", offset " ++ toString i ++ "."
  | invalidPadding => "Invalid padding"

/-- The values of the symbols of a text that goes on at offset `i`. Equals signs stand at the end,
and only where a block lacks two symbols or one; `first?` is where the first of them stood. -/
def values (a : Alphabet) (i : Nat) (first? : Option Nat) : List UInt8 → Except Fault (List Nat)
  | [] => .ok []
  | b :: rest =>
    if b = pad then
      if i % 4 < 2 then .error (.invalidByte pad (first?.getD i))
      else values a (i + 1) (first?.or (some i)) rest
    else match first?, a.value? b with
      | some j, _ => .error (.invalidByte pad j)
      | none, none => .error (.invalidByte b i)
      | none, some v => (values a (i + 1) none rest).map (v :: ·)

/-- A single symbol does not make a byte, whatever it is. -/
def checkLength (a : Alphabet) (text : List UInt8) : Except Fault Unit :=
  if text.length % 4 = 1 then
    match text.getLast? with
    | none => .error .invalidLength
    | some b =>
      if b = pad ∨ (a.value? b).isSome then .error .invalidLength
      else .error (.invalidByte b (text.length - 1))
  else .ok ()

/-- Is the padding of a text as it has to be, if `symbols` symbols stand before it? -/
def Padding.admits (p : Padding) (length symbols : Nat) : Bool :=
  match p with
  | refused => length == symbols
  | required => length % 4 == 0

/-- The bytes of a text. -/
def decode (a : Alphabet) (p : Padding) (text : List UInt8) : Except Fault (List UInt8) := do
  checkLength a text
  let vs ← values a 0 none text
  if p.admits text.length vs.length then
    let (bytes, unused) := unite vs
    if unused = 0 then return bytes
    else throw (.invalidLastSymbol (text[vs.length - 1]?.getD pad) (vs.length - 1))
  else throw .invalidPadding

end CurveGuess.Base64
