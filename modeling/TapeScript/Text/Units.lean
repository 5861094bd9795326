/-! UTF-16 code units, the measure of text lengths: characters beyond the basic plane count twice. -/
namespace TapeScript.Text

/-- The code units of one character. -/
def charUnits (c : Char) : List UInt16 :=
  let code := c.toNat
  if code < 0x10000 then [UInt16.ofNat code]
  else [UInt16.ofNat (0xD800 + (code - 0x10000) / 0x400), UInt16.ofNat (0xDC00 + (code - 0x10000) % 0x400)]

def units (text : String) : List UInt16 := text.toList.flatMap charUnits

/-- Length in code units. -/
def length16 (text : String) : Nat := (units text).length

end TapeScript.Text
