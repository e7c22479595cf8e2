import LoxLanguage.Text.Quoted

/-! Texts from bytes. Decoding stops at the first bytes that are no character and says where they stand and
what is wrong with them: the longest start of a character that the bytes have is the part at fault. -/

namespace LoxLanguage.Text

/-- What is wrong with a row of bytes. -/
inductive Utf8Cause where
  | invalidStart
  | invalidContinuation
  | endOfData
  deriving DecidableEq

/-- The wording of each cause. -/
def Utf8Cause.message : Utf8Cause → String
  | .invalidStart => "invalid start byte"
  | .invalidContinuation => "invalid continuation byte"
  | .endOfData => "unexpected end of data"

/-- Bytes that are no character: where they start, what they are, and what is wrong. -/
structure Utf8Error where
  position : Nat
  bytes : List UInt8
  cause : Utf8Cause
  deriving DecidableEq

/-- One byte is shown, several are given by their places. -/
def Utf8Error.message (e : Utf8Error) : String :=
  "'utf-8' codec can't decode " ++
    (match e.bytes with
      | [b] => "byte 0x" ++ String.ofList (hex 2 b.toNat) ++ " in position " ++ toString e.position
      | bytes =>
        "bytes in position " ++ toString e.position ++ "-" ++ toString (e.position + bytes.length - 1)) ++
    ": " ++ e.cause.message

/-- The bytes that start a character of several bytes: how many follow, and the range of the first of
    them. -/
def continuations? (b : UInt8) : Option (Nat × UInt8 × UInt8) :=
  if b < 0xc2 then none
  else if b < 0xe0 then some (1, 0x80, 0xbf)
  else if b = 0xe0 then some (2, 0xa0, 0xbf)
  else if b = 0xed then some (2, 0x80, 0x9f)
  else if b < 0xf0 then some (2, 0x80, 0xbf)
  else if b = 0xf0 then some (3, 0x90, 0xbf)
  else if b < 0xf4 then some (3, 0x80, 0xbf)
  else if b = 0xf4 then some (3, 0x80, 0x8f)
  else none

/-- The bits of the character that its first byte holds, `count` bytes following it. -/
def leadBits (b : UInt8) (count : Nat) : Nat :=
  b.toNat % Nat.pow 2 (6 - count)

/-- Reads the bytes that follow a first one. The bytes read so far are held in reverse. -/
def readContinuations (count : Nat) (low high : UInt8) (code : Nat) (read rest : List UInt8) :
    Except (List UInt8 × Utf8Cause) (Nat × List UInt8) :=
  match count, rest with
  | 0, rest => .ok (code, rest)
  | _ + 1, [] => .error (read.reverse, .endOfData)
  | count + 1, b :: rest =>
    if low ≤ b && b ≤ high then
      readContinuations count 0x80 0xbf (code * 64 + b.toNat % 64) (b :: read) rest
    else .error (read.reverse, .invalidContinuation)

/-- Decodes at most `fuel` characters from a place on, behind those decoded before. -/
def decodeFrom (fuel position : Nat) (done : List Char) (bytes : List UInt8) : Except Utf8Error (List Char) :=
  match fuel, bytes with
  | fuel + 1, b :: rest =>
    if b < 0x80 then decodeFrom fuel (position + 1) (Char.ofNat b.toNat :: done) rest
    else
      match continuations? b with
      | none => .error ⟨position, [b], .invalidStart⟩
      | some (count, low, high) =>
        match readContinuations count low high (leadBits b count) [b] rest with
        | .ok (code, rest) => decodeFrom fuel (position + 1 + count) (Char.ofNat code :: done) rest
        | .error (bad, cause) => .error ⟨position, bad, cause⟩
  | _, _ => .ok done.reverse

/-- The text that bytes encode. Each character takes a byte or more. -/
def decodeUtf8 (bytes : List UInt8) : Except Utf8Error String :=
  (decodeFrom bytes.length 0 [] bytes).map String.ofList

end LoxLanguage.Text
