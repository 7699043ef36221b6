import Entail.Config.Params
import Entail.Quant.Match
import Entail.Store.Subst

/-!
# Quantifier instantiation

Quantified assertions are kept as constraints. When an assignment is complete, the patterns of each
constraint are matched in the e-graph, and every match gives an instance of the body: a ground
formula that follows from the constraint. No instance is produced twice in a scope, and the number
of instances is bounded.
-/

namespace Entail

/-- Outcome of the last look at a complete assignment. -/
inductive FinalCheck where
  /-- There are new formulas, so the search goes on. -/
  | continue
  /-- There is nothing to object. -/
  | done
  /-- There may be more to say, but the bound is reached. -/
  | incomplete
deriving DecidableEq

namespace FinalCheck

/-- Published name of an outcome. -/
def name : FinalCheck → String
  | .continue => "continue"
  | .done => "done"
  | .incomplete => "incomplete"

/-- Joint outcome: going on wins over giving up, which wins over being done. -/
def join : FinalCheck → FinalCheck → FinalCheck
  | .continue, _ | _, .continue => .continue
  | .incomplete, _ | _, .incomplete => .incomplete
  | .done, .done => .done

end FinalCheck

namespace Quant

/-- A quantified assertion. -/
structure Constraint where
  formula : Term
  vars : List Term
  body : Term
  /-- Numbers of the patterns, which are matched together; none if there are no instances. -/
  patterns : List Nat
deriving DecidableEq, Inhabited

/-- Sizes of the tables when a scope was opened. -/
structure Mark where
  constraints : Nat
  patterns : Nat
  log : Nat
  numInstances : Nat

/-- Constraints, patterns and the instances produced so far. -/
structure Solver where
  constraints : Array Constraint := #[]
  patterns : PatternTable := {}
  instances : Std.HashSet Term := ∅
  /-- Instances in the order of their production. -/
  log : Array Term := #[]
  /-- Open scopes, innermost first. -/
  scopes : List Mark := []
  maxInstances : Nat := 1000
  maxTotalInstances : Nat := 100000
  /-- Instances produced by the present check. -/
  checkInstances : Nat := 0
  /-- Instances produced in the open scopes. -/
  numInstances : Nat := 0
deriving Inhabited

namespace Solver

/-- Whether a term occurs in a constraint. -/
def mentions (q : Solver) (s : Store) (t : Term) : Bool :=
  q.constraints.any fun c => s.occurs t c.formula

/-- Terms that the solver refers to, in the order of its tables. -/
def roots (q : Solver) : List Term :=
  (q.constraints.map (·.formula)).toList ++ (q.patterns.patterns.map (·.term)).toList ++
    q.log.toList

/-- Whether being done means that the constraints hold: only when there are none. -/
def isComplete (q : Solver) : Bool := q.constraints.isEmpty

/-! ## Constraints -/

/-- Variables of explicit patterns, which have to be applications over the variables of the
quantifier. -/
def checkPatterns (s : Store) (vars : List Term) : List Term → Except Failure (List Term)
  | [] => .ok []
  | p :: rest => do
    (s.check p).mapError .term
    match p.isNegated, s.shape p with
    | false, .app .. =>
      let pvars := variablesOf s p
      if pvars.any fun v => !vars.contains v then throw (.freeVariable p)
      return pvars ++ (← checkPatterns s vars rest)
    | _, _ => throw (.notSupported p)

/-- Patterns of a quantifier: the explicit ones, which together have to have all variables, or
inferred ones. -/
def choosePatterns (s : Store) (vars : List Term) (body : Term) (explicit : List Term) :
    Except Failure (List Term) :=
  if explicit.isEmpty then .ok (infer s vars body)
  else do
    let covered ← checkPatterns s vars explicit
    match vars.find? fun v => !covered.contains v with
    | some v => throw (.notSupported v)
    | none => return explicit

/-- Registers a quantified formula. -/
def addConstraint (q : Solver) (s : Store) (formula : Term) (explicit : List Term) :
    Except Failure Solver :=
  match s.shape formula with
  | .all vars body => do
    let terms ← choosePatterns s vars body explicit
    let (ids, patterns) := q.patterns.addAll s terms
    return { q with patterns, constraints := q.constraints.push ⟨formula, vars, body, ids⟩ }
  | _ => .error (.notSupported formula)

/-! ## Instances -/

/-- Takes over the bounds of a check. -/
def startSearch (q : Solver) (p : Params) : Solver :=
  { q with maxInstances := p.maxInstances, maxTotalInstances :=
    p.maxTotalInstances, checkInstances := 0 }

/-- Instances that one final check has produced. -/
structure Round where
  solver : Solver
  formulas : Array Term

/-- Whether another instance may be produced. -/
def Round.hasBudget (r : Round) : Bool :=
  r.formulas.size < r.solver.maxInstances && r.solver.checkInstances < r.solver.maxTotalInstances

/-- Notes a new instance. -/
def Round.add (r : Round) (t : Term) : Round :=
  { solver := { r.solver with
      instances := r.solver.instances.insert t
      log := r.solver.log.push t
      checkInstances := r.solver.checkInstances + 1
      numInstances := r.solver.numInstances + 1 }
    formulas := r.formulas.push t }

/-- Replacement of variables by the terms of their classes, if all are bound. -/
def replacement? (g : Egraph) (vars : List Term) (b : Binding) : Option Subst :=
  (vars.zip b).foldlM (fun σ (v, n) => n.map fun n => σ.insert v (g.node (g.root n)).term) ∅

/-- Produces the instances of a constraint for bindings, as far as the budget goes. An instance that
cannot be built, that is true or that was produced before is passed over. -/
def instantiate (g : Egraph) (c : Constraint) : List Binding → Round → StateM Store Round
  | [], r => return r
  | b :: rest, r =>
    if !r.hasBudget then return r
    else
      match replacement? g c.vars b with
      | none => instantiate g c rest r
      | some σ => fun s =>
        match Store.subst σ c.body s with
        | .error _ s => instantiate g c rest r s
        | .ok t s =>
          if t = .top || r.solver.instances.contains t then instantiate g c rest r s
          else instantiate g c rest (r.add t) s

/-- Bindings of the patterns of a constraint. -/
def bindings (q : Solver) (g : Egraph) (s : Store) (c : Constraint) : List Binding :=
  matchAll g s c.vars (c.patterns.map fun i =>
    let p := q.patterns.patterns.getD i default
    (p.term, g.appsOf p.head))

/-- Produces the instances of constraints one after the other, as far as the budget goes. -/
def instantiateAll (g : Egraph) : List Constraint → Round → StateM Store Round
  | [], r => return r
  | c :: rest, r => do
    if !r.hasBudget then return r
    if c.patterns.isEmpty then instantiateAll g rest r
    else
      let bs ← modifyGet fun s => (r.solver.bindings g s c, s)
      let r ← instantiate g c bs r
      instantiateAll g rest r

/-- Looks at a complete assignment; there is nothing to see without an e-graph. Answers the outcome
and the new instances. -/
def finalCheck (q : Solver) (g : Option Egraph) :
    StateM Store (FinalCheck × List Term × Solver) := do
  match g with
  | none => return (.done, [], q)
  | some g =>
    if q.constraints.isEmpty then return (.done, [], q)
    let r ← instantiateAll g q.constraints.toList ⟨q, #[]⟩
    let outcome : FinalCheck :=
      if r.formulas.size > 0 then .continue
      else if r.solver.checkInstances ≥ r.solver.maxTotalInstances then .incomplete
      else .done
    return (outcome, r.formulas.toList, r.solver)

/-! ## Scopes -/

/-- Opens a scope. -/
def push (q : Solver) : Solver :=
  { q with scopes := ⟨q.constraints.size, q.patterns.size, q.log.size, q.numInstances⟩ :: q.scopes }

/-- Closes the innermost scope with its constraints, patterns and instances. -/
def pop (q : Solver) : Solver :=
  match q.scopes with
  | [] => q
  | m :: scopes =>
    { q with
      scopes
      constraints := q.constraints.take m.constraints
      patterns := q.patterns.take m.patterns
      instances := (q.log.toList.drop m.log).foldl (fun set t => set.erase t) q.instances
      log := q.log.take m.log
      numInstances := m.numInstances }

/-- Closes the innermost scope, keeping what it holds. -/
def mergeScope (q : Solver) : Solver := { q with scopes := q.scopes.tail }

end Solver
end Quant
end Entail
