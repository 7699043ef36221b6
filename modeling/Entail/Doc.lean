import Entail.Doc.Width

/-!
# Documents and their layout

A document is text with places where a line may end. A group is laid out on one line when it fits
the width that is left, together with what follows it up to the next possible end of line; otherwise
its breaks become ends of line. Laying out gives a list of pieces, which are written plainly or with
terminal colours.
-/

namespace Entail

/-- What a piece of text is, for colouring. -/
inductive Style where
  /-- Parentheses are coloured by nesting, so that a pair shares its colour. -/
  | paren (depth : Nat)
  | keyword
  | operator
  | ident
  | constant
  | type
deriving DecidableEq

namespace Style

/-- Escape sequence that switches a terminal attribute on. -/
def escape (n : Nat) : String := s!"\x1b[{n}m"

/-- Escape sequence that switches all attributes off. -/
def reset : String := escape 0

/-- Terminal attributes of a style, weight before colour. -/
def attributes : Style → List Nat
  | .paren depth =>
    let colour := match depth % 4 with
      | 0 => 34
      | 1 => 32
      | 2 => 33
      | _ => 35
    [2, colour]
  | .keyword => [1, 36]
  | .operator => [1, 33]
  | .ident => [32]
  | .constant => [31]
  | .type => [35]

/-- Escape sequence that switches a style on, whatever was on before. -/
def start (s : Style) : String := reset ++ String.join (s.attributes.map escape)

end Style

/-- Text with possible ends of line. -/
inductive Doc where
  | nil
  | text (s : String) (style : Option Style)
  /-- A space on one line, an end of line otherwise. -/
  | line
  /-- Always an end of line. -/
  | hardline
  | append (a b : Doc)
  /-- Adds to the indentation of the ends of line within. -/
  | nest (columns : Nat) (d : Doc)
  /-- Laid out on one line if that fits. -/
  | group (d : Doc)
deriving Inhabited

namespace Doc

instance : Append Doc := ⟨append⟩

/-- Number of constructors of a document. -/
def size : Doc → Nat
  | .nil | .text .. | .line | .hardline => 1
  | .append a b => a.size + b.size + 1
  | .nest _ d | .group d => d.size + 1

/-- Text without a style. -/
def plain (s : String) : Doc := .text s none

/-- Text with a style. -/
def styled (style : Style) (s : String) : Doc := .text s (some style)

/-- An operator. -/
def op (s : String) : Doc := styled .operator s

/-- A keyword. -/
def keyword (s : String) : Doc := styled .keyword s

/-- A constant. -/
def constant (s : String) : Doc := styled .constant s

/-- `(head arg₁ arg₂ …)`, with the arguments indented when they do not fit on one line. -/
def sexp (head : Doc) (args : List Doc) (depth : Nat) : Doc :=
  let body := args.foldl (fun acc a => acc ++ .line ++ a) head
  .group (styled (.paren depth) "(" ++ .nest 2 body ++ styled (.paren depth) ")")

/-- Documents with an end of line between any two. -/
def lines : List Doc → Doc
  | [] => .nil
  | d :: ds => ds.foldl (fun acc d => acc ++ .hardline ++ d) d

/-! ## Layout -/

/-- Whether the text of `d`, with its breaks as ends of line, stays within `width` from column `pos`
up to its first end of line, where `k` says so of what follows `d`. -/
def fitsBroken (width : Nat) : Doc → (k : Nat → Bool) → (pos : Nat) → Bool
  | .nil, k, pos => k pos
  | .text s _, k, pos => pos + columns s ≤ width && k (pos + columns s)
  | .line, _, _ | .hardline, _, _ => true
  | .append a b, k, pos => a.fitsBroken width (b.fitsBroken width k) pos
  | .nest _ d, k, pos | .group d, k, pos => d.fitsBroken width k pos

/-- Whether what is still to be laid out stays within `width` up to its first end of line. -/
def fitsRest (width : Nat) : List Doc → (pos : Nat) → Bool
  | [], _ => true
  | d :: rest, pos => d.fitsBroken width (fitsRest width rest) pos

/-- Whether `d` fits on one line from column `pos` on, where `k` says so of what follows `d`. -/
def fitsFlat (width : Nat) : Doc → (k : Nat → Bool) → (pos : Nat) → Bool
  | .nil, k, pos => k pos
  | .text s _, k, pos => pos + columns s ≤ width && k (pos + columns s)
  | .line, k, pos => pos + 1 ≤ width && k (pos + 1)
  | .hardline, _, _ => false
  | .append a b, k, pos => a.fitsFlat width (b.fitsFlat width k) pos
  | .nest _ d, k, pos | .group d, k, pos => d.fitsFlat width k pos

/-- What a layout consists of. -/
inductive Piece where
  | text (s : String) (style : Option Style)
  | newline (indent : Nat)

/-- A document that waits to be laid out, with its indentation and whether it stands on one line. -/
structure Item where
  indent : Nat
  flat : Bool
  doc : Doc

/-- Number of nodes of the documents that wait. Every step of the layout takes one off. -/
def Item.weight : List Item → Nat
  | [] => 0
  | i :: rest => i.doc.size + weight rest

/-- Lays out the items one after the other from column `pos` on. An end of line is indented as the
item after it, or as itself when nothing follows. -/
def layoutItems (width : Nat) (items : List Item) (pos : Nat) (out : Array Piece) : Array Piece :=
  match items with
  | [] => out
  | ⟨_, _, .nil⟩ :: rest => layoutItems width rest pos out
  | ⟨_, _, .text s style⟩ :: rest =>
    layoutItems width rest (pos + columns s) (out.push (.text s style))
  | ⟨_, true, .line⟩ :: rest => layoutItems width rest (pos + 1) (out.push (.text " " none))
  | ⟨indent, false, .line⟩ :: rest =>
    let column := (rest.head?.map (·.indent)).getD indent
    layoutItems width rest column (out.push (.newline column))
  | ⟨indent, _, .hardline⟩ :: rest =>
    let column := (rest.head?.map (·.indent)).getD indent
    layoutItems width rest column (out.push (.newline column))
  | ⟨indent, flat, .append a b⟩ :: rest =>
    layoutItems width (⟨indent, flat, a⟩ :: ⟨indent, flat, b⟩ :: rest) pos out
  | ⟨indent, flat, .nest n d⟩ :: rest => layoutItems width (⟨indent + n, flat, d⟩ :: rest) pos out
  | ⟨indent, flat, .group d⟩ :: rest =>
    let flat := flat || d.fitsFlat width (fitsRest width (rest.map (·.doc))) pos
    layoutItems width (⟨indent, flat, d⟩ :: rest) pos out
termination_by Item.weight items
decreasing_by all_goals simp only [Item.weight, size]; omega

/-- The pieces of a document laid out within `width` columns. -/
def layout (width : Nat) (d : Doc) : List Piece := (layoutItems width [⟨0, false, d⟩] 0 #[]).toList

namespace Piece

/-- A piece without colours. -/
def toPlain : Piece → String
  | .text s _ => s
  | .newline n => "\n" ++ "".pushn ' ' n

/-- A piece for a terminal; only styled text has escape sequences around it. -/
def toColoured : Piece → String
  | .text s (some style) => style.start ++ s ++ Style.reset
  | p => p.toPlain

end Piece

/-- Text of a document within `width` columns. -/
def render (width : Nat) (d : Doc) : String := String.join ((d.layout width).map (·.toPlain))

/-- Text of a document within `width` columns, coloured for a terminal. -/
def renderColoured (width : Nat) (d : Doc) : String :=
  String.join ((d.layout width).map (·.toColoured))

end Doc
end Entail
