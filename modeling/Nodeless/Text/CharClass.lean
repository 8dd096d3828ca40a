import Nodeless.Text.IdentifierRanges

/-!
# Character classes

Which characters are blank, and which may start or continue an identifier. ASCII is decided
without the tables.
-/

namespace Nodeless.Text

def inRanges (ranges : List (Nat × Nat)) (c : Char) : Bool :=
  ranges.any fun range => range.1 ≤ c.toNat && c.toNat ≤ range.2

/-- The property `White_Space`, and the byte order mark. -/
def isBlank (c : Char) : Bool :=
  inRanges
    [(0x09, 0x0d), (0x20, 0x20), (0x85, 0x85), (0xa0, 0xa0), (0x1680, 0x1680), (0x2000, 0x200a),
     (0x2028, 0x2029), (0x202f, 0x202f), (0x205f, 0x205f), (0x3000, 0x3000), (0xfeff, 0xfeff)] c

def isIdentifierStart (c : Char) : Bool :=
  if c.toNat < 128 then c.isAlpha || c = '_' || c = '$' else inRanges startRanges c

def isIdentifierContinue (c : Char) : Bool :=
  isIdentifierStart c || c.isDigit || (128 ≤ c.toNat && inRanges continueRanges c)

/-- Where a line comment and a hashbang line end. -/
def endsLine (c : Char) : Bool := c = '\n' || c = '\r'

end Nodeless.Text
