/-!
# Quoted text

Text between double quotes, with escapes for quotes, backslashes and control characters.
-/

namespace Nodeless.Text

/-- How a character is written between quotes. -/
def escape (c : Char) : List Char :=
  if c = '\x22' then ['\\', '\x22']
  else if c = '\\' then ['\\', '\\']
  else if c = '\x08' then ['\\', 'b']
  else if c = '\t' then ['\\', 't']
  else if c = '\n' then ['\\', 'n']
  else if c = '\x0c' then ['\\', 'f']
  else if c = '\r' then ['\\', 'r']
  else if c.toNat < 0x20 then
    ['\\', 'u', '0', '0', Nat.digitChar (c.toNat / 16), Nat.digitChar (c.toNat % 16)]
  else [c]

def quoteChars (text : List Char) : List Char := '\x22' :: text.flatMap escape ++ ['\x22']

def quote (text : String) : String := String.ofList (quoteChars text.toList)

end Nodeless.Text
