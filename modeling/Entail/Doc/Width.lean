/-!
# Display width of text

Columns that a text takes on a terminal. ASCII text takes one column per character; in other text
some characters take two columns or none.
-/

namespace Entail.Doc

/-- First and last code points of the blocks whose characters are two columns wide. -/
def wideBlocks : List (Nat × Nat) :=
  [(0x1100, 0x115F), (0x231A, 0x231B), (0x2329, 0x232A), (0x23E9, 0x23EC), (0x2E80, 0x303E),
    (0x3041, 0x33FF),
    (0x3400, 0x4DBF), (0x4E00, 0x9FFF), (0xA000, 0xA4CF), (0xA960, 0xA97C), (0xAC00, 0xD7A3),
      (0xF900, 0xFAFF),
    (0xFE10, 0xFE19), (0xFE30, 0xFE6F), (0xFF01, 0xFF60), (0xFFE0, 0xFFE6), (0x16FE0, 0x18CFF),
      (0x1AFF0, 0x1B2FB),
    (0x1F300, 0x1F64F), (0x1F680, 0x1F6FF), (0x1F900, 0x1F9FF), (0x20000, 0x2FFFD),
      (0x30000, 0x3FFFD)]

/-- First and last code points of the blocks whose characters take no column of their own. -/
def zeroBlocks : List (Nat × Nat) :=
  [(0x0300, 0x036F), (0x0483, 0x0489), (0x0591, 0x05BD), (0x1AB0, 0x1AFF), (0x1DC0, 0x1DFF),
    (0x200B, 0x200F),
    (0x20D0, 0x20FF), (0xFE00, 0xFE0F), (0xFE20, 0xFE2F), (0xE0100, 0xE01EF)]

/-- Whether a code point lies in one of the blocks. -/
def inBlocks (blocks : List (Nat × Nat)) (n : Nat) : Bool := blocks.any fun b => b.1 ≤ n && n ≤ b.2

/-- Columns of one character of a text that is not ASCII. -/
def charColumns (c : Char) : Nat :=
  if inBlocks zeroBlocks c.toNat then 0 else if inBlocks wideBlocks c.toNat then 2 else 1

/-- Columns of a text. -/
def columns (s : String) : Nat :=
  let cs := s.toList
  if cs.all fun c => c.toNat < 128 then cs.length else (cs.map charColumns).foldr (· + ·) 0

end Entail.Doc
