/-
# Bytes as text

Bytes are written as decimal numbers in a list, `[1, 2]`, or, one at a time, as
two hexadecimal digits, `0x0a`.
-/
import RadixIndex.Key

namespace RadixIndex

/-- A list of bytes in decimal. -/
def Key.text (key : Key) : String :=
  "[" ++ ", ".intercalate (key.map fun b => b.toNat.repr) ++ "]"

/-- The hexadecimal digit of a number below sixteen. -/
def hexDigit (n : Nat) : Char := Nat.digitChar n

/-- Two hexadecimal digits. -/
def hexPair (b : UInt8) : String :=
  String.ofList [hexDigit (b.toNat / 16), hexDigit (b.toNat % 16)]

/-- A byte in hexadecimal. -/
def hexByte (b : UInt8) : String := "0x" ++ hexPair b

/-- The bytes of a key in hexadecimal, without anything between them. -/
def Key.hex (key : Key) : String := String.join (key.map hexPair)

end RadixIndex
