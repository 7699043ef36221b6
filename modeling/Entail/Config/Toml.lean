import Entail.Binary64

/-!
# Flat TOML

Reads configuration texts of lines `key = value` with comments. Values are strings, truth values,
integers and floats. A key may stand once.
-/

namespace Entail.Toml

/-- A value of a configuration text. -/
inductive Value where
  | string (s : String)
  | bool (b : Bool)
  | integer (n : Int)
  | float (x : Binary64)

/-- Keys with their values, in the order of the text. -/
abbrev Table := List (String × Value)

/-- Space and tab; ends of line are no blanks. -/
def isBlank (c : Char) : Bool := c = ' ' || c = '\t'

/-- Characters of a key without quotes. -/
def isBare (c : Char) : Bool := c.isAlphanum || c = '_' || c = '-'

/-- Control characters other than tab, which may stand nowhere. -/
def isControl (c : Char) : Bool := (c.toNat < 32 && c ≠ '\t') || c.toNat = 127

/-- Value of a hexadecimal digit. -/
def hexValue? (c : Char) : Option Nat :=
  if c.isDigit then some (c.toNat - '0'.toNat)
  else if 'a' ≤ c ∧ c ≤ 'f' then some (c.toNat - 'a'.toNat + 10)
  else if 'A' ≤ c ∧ c ≤ 'F' then some (c.toNat - 'A'.toNat + 10)
  else none

/-- Value of a row of digits in a base up to sixteen. -/
def ofDigits? (base : Nat) (cs : List Char) : Option Nat :=
  cs.foldlM (fun n c => do
    let d ← hexValue? c
    if d < base then some (base * n + d) else none) 0

/-- Drops single underscores that stand between two digits; any other underscore is an error. -/
def dropUnderscores? (isDigit : Char → Bool) : List Char → Option (List Char)
  | [] => some []
  | '_' :: _ => none
  | [c] => some [c]
  | c :: '_' :: d :: rest =>
    if isDigit c && isDigit d then do return c :: (← dropUnderscores? isDigit (d :: rest)) else none
  | c :: rest => do return c :: (← dropUnderscores? isDigit rest)

/-- Reads a row of at least one digit in a base up to sixteen, with underscores between digits. -/
def digitRow? (base : Nat) (cs : List Char) : Option Nat := do
  let ds ← dropUnderscores? (fun c => (hexValue? c).isSome) cs
  if ds.isEmpty then none else ofDigits? base ds

/-- The character with a given code point. -/
def scalar? (n : Nat) : Option Char := if n.isValidChar then some (Char.ofNat n) else none

/-- Reads the inside of a string in double quotes, up to the closing quote, and answers what
follows it. -/
def basicString? : List Char → List Char → Option (List Char × List Char)
  | acc, '"' :: rest => some (acc.reverse, rest)
  | acc, '\\' :: 'b' :: rest => basicString? ('\x08' :: acc) rest
  | acc, '\\' :: 't' :: rest => basicString? ('\t' :: acc) rest
  | acc, '\\' :: 'n' :: rest => basicString? ('\n' :: acc) rest
  | acc, '\\' :: 'f' :: rest => basicString? ('\x0c' :: acc) rest
  | acc, '\\' :: 'r' :: rest => basicString? ('\r' :: acc) rest
  | acc, '\\' :: '"' :: rest => basicString? ('"' :: acc) rest
  | acc, '\\' :: '\\' :: rest => basicString? ('\\' :: acc) rest
  | acc, '\\' :: 'u' :: a :: b :: c :: d :: rest => do
    basicString? ((← scalar? (← ofDigits? 16 [a, b, c, d])) :: acc) rest
  | acc, '\\' :: 'U' :: a :: b :: c :: d :: e :: f :: g :: h :: rest => do
    basicString? ((← scalar? (← ofDigits? 16 [a, b, c, d, e, f, g, h])) :: acc) rest
  | _, '\\' :: _ => none
  | acc, c :: rest => if isControl c then none else basicString? (c :: acc) rest
  | _, [] => none

/-- Reads the inside of a string in single quotes, in which nothing is escaped. -/
def literalString? (cs : List Char) : Option (List Char × List Char) :=
  match cs.dropWhile (· ≠ '\'') with
  | '\'' :: rest =>
    let inside := cs.takeWhile (· ≠ '\'')
    if inside.any isControl then none else some (inside, rest)
  | _ => none

/-- Reads an unsigned decimal integer: no zero stands before another digit. -/
def decimalInteger? (cs : List Char) : Option Nat := do
  let ds ← dropUnderscores? Char.isDigit cs
  if ds.isEmpty || !ds.all Char.isDigit || (ds.head? = some '0' && ds.length > 1) then none
  else some (Binary64.digitsValue ds)

/-- Reads an integer, which has to fit 64 bits with a sign. -/
def integer? (cs : List Char) : Option Int := do
  let n ← match cs with
    | '0' :: 'x' :: ds => do pure ((← digitRow? 16 ds) : Int)
    | '0' :: 'o' :: ds => do pure ((← digitRow? 8 ds) : Int)
    | '0' :: 'b' :: ds => do pure ((← digitRow? 2 ds) : Int)
    | '-' :: ds => do pure (-((← decimalInteger? ds) : Int))
    | '+' :: ds => do pure ((← decimalInteger? ds) : Int)
    | ds => do pure ((← decimalInteger? ds) : Int)
  if -(Nat.pow 2 63 : Int) ≤ n && n < Nat.pow 2 63 then some n else none

/-- Reads a float: an integer part as in `integer?`, then a fraction, an exponent or both. -/
def float? (cs : List Char) : Option Binary64 := do
  let (negative, cs) := Binary64.splitSign cs
  if cs = "inf".toList then some (Binary64.ofMagnitude negative Binary64.infinityBits)
  else if cs = "nan".toList then some (Binary64.ofMagnitude negative Binary64.nanBits)
  else
    let whole := cs.takeWhile fun c => c.isDigit || c = '_'
    let rest := cs.drop whole.length
    let _ ← decimalInteger? whole
    match rest with
    | [] => none
    | '.' :: c :: _ => if c.isDigit then pure () else none
    | '.' :: [] => none
    | _ => pure ()
    let (m, e) ← Binary64.decimal? (← dropUnderscores? Char.isDigit cs)
    some (Binary64.ofMagnitude negative (Binary64.ofDecimal m e))

/-- Reads a value that is no string. -/
def scalarValue? (cs : List Char) : Option Value :=
  if cs = "true".toList then some (.bool true)
  else if cs = "false".toList then some (.bool false)
  else
    match integer? cs with
    | some n => some (.integer n)
    | none => (float? cs).map .float

/-- Whether nothing but a comment stands in the rest of a line. -/
def isTrailing (cs : List Char) : Bool :=
  match cs.dropWhile isBlank with
  | [] => true
  | '#' :: comment => !comment.any isControl
  | _ => false

/-- Reads a key and answers what follows it. -/
def key? (cs : List Char) : Option (List Char × List Char) :=
  match cs with
  | '"' :: rest => basicString? [] rest
  | '\'' :: rest => literalString? rest
  | _ =>
    let bare := cs.takeWhile isBare
    if bare.isEmpty then none else some (bare, cs.drop bare.length)

/-- Reads a value and what follows it on its line. -/
def value? (cs : List Char) : Option Value :=
  match cs with
  | '"' :: rest => do
    let (s, rest) ← basicString? [] rest
    if isTrailing rest then some (.string (String.ofList s)) else none
  | '\'' :: rest => do
    let (s, rest) ← literalString? rest
    if isTrailing rest then some (.string (String.ofList s)) else none
  | _ =>
    let word := cs.takeWhile fun c => !isBlank c && c ≠ '#'
    if isTrailing (cs.drop word.length) then scalarValue? word else none

/-- Reads one line; a line without a key gives nothing. -/
def line? (cs : List Char) : Option (Option (String × Value)) :=
  if isTrailing cs then some none
  else do
    let (k, rest) ← key? (cs.dropWhile isBlank)
    match rest.dropWhile isBlank with
    | '=' :: rest => do return some (String.ofList k, ← value? (rest.dropWhile isBlank))
    | _ => none

/-- Lines of a text, without the ends of line. -/
def splitLines (cs : List Char) : List (List Char) :=
  let lines := cs.splitOn '\n'
  let strip (l : List Char) : List Char := if l.getLast? = some '\r' then l.dropLast else l
  -- Only an end of line may be made of two characters, so the last line keeps a lone return.
  lines.dropLast.map strip ++ lines.getLast?.toList

/-- Reads a configuration text. -/
def parse? (s : String) : Option Table :=
  (splitLines s.toList).foldlM (fun (table : Table) l => do
    match ← line? l with
    | none => some table
    | some (k, v) => if table.any (·.1 = k) then none else some (table ++ [(k, v)])) []

/-- The value of a key. -/
def Table.find? (t : Table) (key : String) : Option Value :=
  (List.find? (fun e => e.1 = key) t).map (·.2)

end Entail.Toml
