/-!
# Binary floating-point numbers as text

A double is kept as its 64 bits: the sign, eleven bits of exponent and 52 bits of fraction. This
file reads a double from decimal text, rounding to nearest with ties to even, and writes one
with the fewest digits that read back as the same number. Both work in exact arithmetic on
natural numbers.
-/

namespace Entail

/-- A double-precision number, as its bits. -/
structure Binary64 where
  bits : UInt64
deriving DecidableEq, Inhabited

namespace Binary64

/-- Bits of positive infinity, right above those of the greatest finite number. -/
def infinityBits : Nat := 2047 * Nat.pow 2 52

/-- Bits of the quiet number that is none. -/
def nanBits : Nat := infinityBits + Nat.pow 2 51

/-- The number with the given magnitude bits and sign. -/
def ofMagnitude (negative : Bool) (magnitude : Nat) : Binary64 :=
  ⟨UInt64.ofNat (magnitude + if negative then Nat.pow 2 63 else 0)⟩

/-- The number itself, for arithmetic. -/
def toFloat (x : Binary64) : Float := Float.ofBits x.bits

/-- Bits without the sign. -/
def magnitude (x : Binary64) : Nat := x.bits.toNat % Nat.pow 2 63

/-- Whether the sign bit is set. -/
def isNegative (x : Binary64) : Bool := x.bits.toNat ≥ Nat.pow 2 63

/-! ## Reading -/

/-- Quotient rounded to the nearest natural number, a tie to the even one. -/
def divEven (num den : Nat) : Nat :=
  let q := num / den
  let r := num % den
  if 2 * r < den then q
  else if 2 * r > den then q + 1
  else if q % 2 = 0 then q else q + 1

/-- Quotient of `num * 2 ^ s` by `den`, rounded as `divEven` does; `s` may be negative. -/
def scaledDiv (num den : Nat) (s : Int) : Nat :=
  divEven (num * Nat.pow 2 s.toNat) (den * Nat.pow 2 (-s).toNat)

/-- Magnitude bits of the double nearest to the positive number `num / den`.

A double is `m * 2 ^ e` with `m < 2 ^ 53` and `e ≥ -1074`, and its bits are `(e + 1074) * 2 ^
52 + m` when `m` is as large as it can be. The formula also holds when rounding carries `m`
to `2 ^ 53`. -/
def ofQuotient (num den : Nat) : Nat :=
  let low : Int := (num.log2 : Int) - den.log2 - 53
  -- The quotient lies between `2 ^ (low + 52)` and `2 ^ (low + 54)`.
  let e := if num * Nat.pow 2 (-low).toNat < den * Nat.pow 2 (low.toNat + 53) then low else low + 1
  let e := max e (-1074)
  min infinityBits ((e + 1074).toNat * Nat.pow 2 52 + scaledDiv num den (-e))

/-- Magnitude bits of the double nearest to `mantissa * 10 ^ exponent`. Exponents far out of range
are not computed with. -/
def ofDecimal (mantissa : Nat) (exponent : Int) : Nat :=
  if mantissa = 0 then 0
  else
    let top := exponent + (Nat.toDigits 10 mantissa).length
    if top > 310 then infinityBits
    else if top < -330 then 0
    else ofQuotient (mantissa * Nat.pow 10 exponent.toNat) (Nat.pow 10 (-exponent).toNat)

/-- The double nearest to an integer. -/
def ofInt (n : Int) : Binary64 := ofMagnitude (n < 0) (ofDecimal n.natAbs 0)

/-- Value of a row of decimal digits. -/
def digitsValue (cs : List Char) : Nat := cs.foldl (fun n c => 10 * n + (c.toNat - '0'.toNat)) 0

/-- Reads a natural number below `bound`: digits after an optional plus sign. -/
def natBelow? (bound : Nat) (s : String) : Option Nat :=
  let ds := match s.toList with
    | '+' :: ds => ds
    | ds => ds
  if ds.isEmpty || !ds.all Char.isDigit then none
  else
    let n := digitsValue ds
    if n < bound then some n else none

/-- Splits off a leading sign and says whether it is a minus. -/
def splitSign : List Char → Bool × List Char
  | '-' :: cs => (true, cs)
  | '+' :: cs => (false, cs)
  | cs => (false, cs)

/-- Value of an exponent without its mark: an optional sign and at least one digit. -/
def exponent? (cs : List Char) : Option Int :=
  let (negative, ds) := splitSign cs
  if ds.isEmpty || !ds.all Char.isDigit then none
  else some (if negative then -(digitsValue ds : Int) else digitsValue ds)

/-- Reads an unsigned decimal number: digits with at most one point among them, at least one digit
in all, and an optional exponent. -/
def decimal? (cs : List Char) : Option (Nat × Int) :=
  let whole := cs.takeWhile Char.isDigit
  let (fraction, rest) := match cs.dropWhile Char.isDigit with
    | '.' :: r => (r.takeWhile Char.isDigit, r.dropWhile Char.isDigit)
    | r => ([], r)
  if whole.isEmpty && fraction.isEmpty then none
  else
    let mantissa := digitsValue (whole ++ fraction)
    match rest with
    | [] => some (mantissa, -(fraction.length : Int))
    | c :: r => if c = 'e' || c = 'E' then (exponent? r).map fun e =>
      (mantissa, e - fraction.length) else none

/-- Reads a number: an optional sign before a decimal number or, in any case of letters, `inf`,
`infinity` or `nan`. -/
def ofText? (s : String) : Option Binary64 :=
  let (negative, cs) := splitSign s.toList
  match decimal? cs with
  | some (m, e) => some (ofMagnitude negative (ofDecimal m e))
  | none =>
    let word := String.ofList (cs.map Char.toLower)
    if word = "inf" || word = "infinity" then some (ofMagnitude negative infinityBits)
    else if word = "nan" then some (ofMagnitude negative nanBits)
    else none

/-! ## Writing -/

/-- Significand and exponent of a finite number: it is `m * 2 ^ e`. -/
def decode (magnitude : Nat) : Nat × Int :=
  let e : Nat := magnitude / Nat.pow 2 52
  let f : Nat := magnitude % Nat.pow 2 52
  if e = 0 then (f, -1074) else (f + Nat.pow 2 52, (e : Int) - 1075)

/-- Of the decimals `d * 10 ^ k` nearest to `4m * num / den`, the nearest one that lies between
`low * num / den` and `high * num / den`. The bounds count iff `m` is even, as rounding would then
choose `m`. -/
def candidate? (m low high num den : Nat) (k : Int) : Option Nat :=
  let num := num * Nat.pow 10 (-k).toNat
  let den := den * Nat.pow 10 k.toNat
  let inside (d : Nat) : Bool :=
    if m % 2 = 0 then low * num ≤ d * den && d * den ≤ high * num
      else low * num < d * den && d * den < high * num
  let d := 4 * m * num / den
  let nearest := divEven (4 * m * num) den
  if inside nearest then some nearest else if inside d then some d
    else if inside (d + 1) then some (d + 1) else none

/-- The greatest `k` with `10 ^ k ≤ num / den`, for a positive number of ordinary size. -/
def decimalExponent (num den : Nat) : Int :=
  if den ≤ num then ((Nat.toDigits 10 (num / den)).length : Int) - 1
  else -(((List.range 400).find? fun j => den ≤ num * Nat.pow 10 j).getD 400 : Nat)

/-- The shortest decimal that reads back as the positive number `m * 2 ^ e`, as digits
and exponent. -/
def shortest (m : Nat) (e : Int) : Nat × Int :=
  let num := Nat.pow 2 (e - 2).toNat
  let den := Nat.pow 2 (2 - e).toNat
  -- Below a power of two the next double is only half as far away.
  let low := if m = Nat.pow 2 52 && e > -1074 then 4 * m - 1 else 4 * m - 2
  let top := decimalExponent (4 * m * num) den
  let grids := (List.range 17).map fun (n : Nat) => top - (n : Int)
  (grids.findSome? fun k => (candidate? m low (4 * m + 2) num den k).map (·, k)).getD (0, 0)

/-- `digits * 10 ^ k` without an exponent: trailing zeros are written out, and a point is set where
there is a fraction. -/
def positional (digits : Nat) (k : Int) : String :=
  let ds := Nat.toDigits 10 digits
  let places := (-k).toNat
  if places = 0 then String.ofList (ds ++ List.replicate k.toNat '0')
  else
    let ds := List.replicate (places + 1 - ds.length) '0' ++ ds
    String.ofList (ds.take (ds.length - places) ++ '.' :: ds.drop (ds.length - places))

/-- Text of a number: the fewest digits that read back, never with an exponent. -/
def toText (x : Binary64) : String :=
  let sign := if x.isNegative then "-" else ""
  if x.magnitude > infinityBits then "NaN"
  else if x.magnitude = infinityBits then sign ++ "inf"
  else if x.magnitude = 0 then sign ++ "0"
  else
    let (m, e) := decode x.magnitude
    let (d, k) := shortest m e
    sign ++ positional d k

/-- The bits in sixteen hexadecimal digits. -/
def hex (x : Binary64) : String :=
  let ds := Nat.toDigits 16 x.bits.toNat
  String.ofList (List.replicate (16 - ds.length) '0' ++ ds)

end Binary64
end Entail
