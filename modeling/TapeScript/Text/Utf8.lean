/-! UTF-8 in both directions. Encoding is exact; decoding never fails and shows every maximal
ill-formed part as one replacement character. -/
namespace TapeScript.Text

/-- The UTF-8 bytes of a text. -/
def utf8 (text : String) : List UInt8 := text.toList.flatMap String.utf8EncodeChar

/-- Bytes as characters of the same number. -/
def latin1 (bytes : List UInt8) : String := String.ofList (bytes.map fun byte => Char.ofNat byte.toNat)

namespace Utf8

/-- A sequence that has begun: the bits so far, how many bytes are missing, and the range of the next. -/
structure Partial where
  bits : Nat
  missing : Nat
  low : UInt8 := 0x80
  high : UInt8 := 0xBF

inductive Lead where
  | char (c : Char)
  | sequence (start : Partial)
  | invalid

def replacement : Char := Char.ofNat 0xFFFD

/-- What the first byte of a character announces. The narrower ranges of the second byte keep out
overlong forms, surrogates and numbers beyond the last code point. -/
def lead (byte : UInt8) : Lead :=
  let code := byte.toNat
  if code < 0x80 then .char (Char.ofNat code)
  else if code < 0xC2 then .invalid
  else if code < 0xE0 then .sequence { bits := code - 0xC0, missing := 1 }
  else if code = 0xE0 then .sequence { bits := 0, missing := 2, low := 0xA0 }
  else if code = 0xED then .sequence { bits := 0xD, missing := 2, high := 0x9F }
  else if code < 0xF0 then .sequence { bits := code - 0xE0, missing := 2 }
  else if code = 0xF0 then .sequence { bits := 0, missing := 3, low := 0x90 }
  else if code < 0xF4 then .sequence { bits := code - 0xF0, missing := 3 }
  else if code = 0xF4 then .sequence { bits := 4, missing := 3, high := 0x8F }
  else .invalid

/-- Decoding state: the characters found, last first, and the sequence under way. -/
structure Decoder where
  found : List Char := []
  open? : Option Partial := none

def Decoder.start (decoder : Decoder) (byte : UInt8) : Decoder :=
  match lead byte with
  | .char c => { found := c :: decoder.found }
  | .sequence start => { found := decoder.found, open? := some start }
  | .invalid => { found := replacement :: decoder.found }

def Decoder.feed (decoder : Decoder) (byte : UInt8) : Decoder :=
  match decoder.open? with
  | none => decoder.start byte
  | some sequence =>
    if sequence.low ≤ byte ∧ byte ≤ sequence.high then
      let bits := sequence.bits * 64 + (byte.toNat - 0x80)
      if sequence.missing ≤ 1 then { found := Char.ofNat bits :: decoder.found }
      else { found := decoder.found, open? := some { bits, missing := sequence.missing - 1 } }
    else Decoder.start { found := replacement :: decoder.found } byte

def Decoder.finish (decoder : Decoder) : List Char :=
  match decoder.open? with
  | none => decoder.found.reverse
  | some _ => (replacement :: decoder.found).reverse

end Utf8

/-- The text of any bytes at all. -/
def ofUtf8 (bytes : List UInt8) : String :=
  String.ofList (bytes.foldl Utf8.Decoder.feed {}).finish

end TapeScript.Text
