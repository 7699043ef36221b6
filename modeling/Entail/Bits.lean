/-!
# Words of a given width

Bitvector values are natural numbers below `2 ^ width`; no word is wider than 64 bits. This file
holds the arithmetic on such values: truncation, negation, the signed reading and the binary text.
-/

namespace Entail.Bits

/-- Number of words of `width` bits. Widths above 64 count as 64, the widest word there is. -/
def modulus (width : Nat) : Nat := Nat.pow 2 (min width 64)

/-- The greatest word of `width` bits: all its bits are one. -/
def mask (width : Nat) : Nat := modulus width - 1

/-- The low `width` bits of `value`. -/
def trunc (width value : Nat) : Nat := value % modulus width

/-- The word that sums with `value` to zero modulo `2 ^ width`. -/
def neg (width value : Nat) : Nat := trunc width (modulus width - trunc width value)

/-- Number of bits that are left after shifting a word of 64 bits by `64 - width` places, where
places are counted modulo 64. A width from 1 to 64 is left as it is. -/
def span (width : Nat) : Nat := if width % 64 = 0 then 64 else width % 64

/-- Two's complement reading of the low `width` bits of `value`. -/
def signed (width value : Nat) : Int :=
  let v := trunc (span width) value
  if 2 * v < modulus (span width) then v else (v : Int) - modulus (span width)

/-- Bits of `value` from the least significant one on, `width` of them. After the last bit of a word
of 64 bits comes the first one again. -/
def bits (width value : Nat) : List Bool := (List.range width).map fun i => value.testBit (i % 64)

/-- The word whose bits, from the least significant one on, are `bs`. -/
def ofBits (bs : List Bool) : Nat := bs.foldr (fun b acc => b.toNat + 2 * acc) 0

/-- Bits as text, a digit `0` or `1` for each. -/
def text (bs : List Bool) : String := String.ofList (bs.map fun b => if b then '1' else '0')

/-- Bits of a text; everything but the digit `1` is a zero. -/
def ofText (s : String) : List Bool := s.toList.map (· == '1')

/-- Binary text of a word, most significant bit first, after the mark `0b`. -/
def literal (width value : Nat) : String := "0b" ++ text (bits width value).reverse

/-! ## Bounds -/

theorem modulus_pos (width : Nat) : 0 < modulus width := Nat.two_pow_pos _

theorem trunc_lt (width value : Nat) : trunc width value < modulus width :=
  Nat.mod_lt _ (modulus_pos width)

theorem neg_lt (width value : Nat) : neg width value < modulus width := trunc_lt _ _

end Entail.Bits
