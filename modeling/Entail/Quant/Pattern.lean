import Entail.Store.Explore

/-!
# Instantiation patterns

A pattern is an application with variables. Finding instances of it in an e-graph tells which terms
to put for the variables. Patterns for a quantified formula are taken from its body.
-/

namespace Entail.Quant

/-- An application that instances are looked for by. -/
structure Pattern where
  term : Term
  /-- Function that is applied. -/
  head : Term
  /-- Variables of the application, in increasing order. -/
  vars : List Term
deriving DecidableEq, Inhabited

/-- Variables that occur in a term, in increasing order. -/
def variablesOf (s : Store) (t : Term) : List Term :=
  Term.sort ((s.subterms t).filter fun u => (s.shape u).isVariable)

/-- Numbered patterns; no application is there twice. -/
structure PatternTable where
  patterns : Array Pattern := #[]
  index : Std.HashMap Term Nat := ∅
deriving Inhabited

namespace PatternTable

/-- Number of patterns. -/
def size (p : PatternTable) : Nat := p.patterns.size

/-- Number of an application, which is entered if it is new; other terms are no patterns. -/
def add (p : PatternTable) (s : Store) (t : Term) : Option Nat × PatternTable :=
  match p.index[t]? with
  | some i => (some i, p)
  | none =>
    match s.shape t with
    | .app head _ =>
      let i := p.patterns.size
      (some i, { patterns := p.patterns.push ⟨t, head, variablesOf s t⟩, index := p.index.insert t i
        })
    | _ => (none, p)

/-- Enters terms one after the other and answers the numbers of those that are patterns. -/
def addAll (s : Store) : List Term → PatternTable → List Nat × PatternTable
  | [], p => ([], p)
  | t :: rest, p =>
    let (i, p) := p.add s t
    let (is, p) := addAll s rest p
    (i.toList ++ is, p)

/-- Keeps the first `count` patterns. -/
def take (p : PatternTable) (count : Nat) : PatternTable :=
  { patterns := p.patterns.take count
    index := (p.patterns.toList.drop count).foldl (fun m q => m.erase q.term) p.index }

end PatternTable

/-! ## Inference -/

/-- An application in the body of a quantifier, with its variables and the number of its
subterms. -/
structure Candidate where
  term : Term
  vars : List Term
  size : Nat

/-- Applications of a body that have variables. -/
def candidates (s : Store) (body : Term) : List Candidate :=
  (s.subterms body).filterMap fun u =>
    match s.shape u with
    | .app .. =>
      let vars := variablesOf s u
      if vars.isEmpty then none else some ⟨u, vars, (s.subterms u).length⟩
    | _ => none

/-- Whether all of `vars` are among `vs`. -/
def covers (vars vs : List Term) : Bool := vars.all vs.contains

/-- Smaller candidates first. -/
def Candidate.le (a b : Candidate) : Bool :=
  a.size < b.size || (a.size = b.size && a.term.le b.term)

/-- Candidates with more variables first, then smaller ones. -/
def Candidate.greedyLe (a b : Candidate) : Bool :=
  a.vars.length > b.vars.length || (a.vars.length = b.vars.length && a.le b)

/-- Chooses candidates with variables that are not covered yet until all are; none if that
never happens. -/
def greedyCover (vars : List Term) : List Candidate → (covered chosen : List Term) → List Term
  | [], _, _ => []
  | c :: rest, covered, chosen =>
    if covers c.vars covered then greedyCover vars rest covered chosen
    else
      let covered := covered ++ c.vars
      let chosen := chosen ++ [c.term]
      if covers vars covered then chosen else greedyCover vars rest covered chosen

/-- Patterns for a quantifier: the smallest application with all its variables or, failing that,
several that together have them all. -/
def infer (s : Store) (vars : List Term) (body : Term) : List Term :=
  let cs := candidates s body
  match (cs.filter fun c => covers vars c.vars).mergeSort Candidate.le with
  | c :: _ => [c.term]
  | [] => greedyCover vars (cs.mergeSort Candidate.greedyLe) [] []

end Entail.Quant
