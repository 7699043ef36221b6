import Entail.Proofs.Search.Clauses

/-!
# What a search goes by

Activities, phases, candidates and counters only steer a search. What is left of a core without them
is its *state*: the clauses with their watched literals, and the trail with what is known of each
variable. This file says what every operation of the core does to the state.
-/

namespace Entail

namespace Search

/-- What a search goes by of one variable. -/
structure Cell where
  value : Option Bool
  level : Nat
  reason : Option Nat
  seen : Bool
  live : Bool

/-- What a search goes by of one variable. -/
def VarInfo.cell (x : VarInfo) : Cell := ⟨x.value, x.level, x.reason, x.seen, x.live⟩

/-- A core without what only steers the search. -/
@[ext] structure State where
  cell : Nat → Cell
  /-- Number of variables there is room for. -/
  size : Nat
  db : Database
  /-- The two watched literals of a clause. -/
  watched : Nat → Option (Literal × Literal)
  /-- Clauses that are noted to watch a literal, by its code. -/
  watchers : Nat → List Nat
  /-- Number of literals there is room for. -/
  room : Nat
  trail : List Literal
  starts : List Nat
  head : Nat
  conflict : Bool

namespace State

/-- Changes what is known of a variable. -/
def set (s : State) (v : Nat) (f : Cell → Cell) : State :=
  { s with cell := fun u => if u = v ∧ u < s.size then f (s.cell u) else s.cell u }

/-- Makes a literal true at the present level. -/
def assign (s : State) (l : Literal) (reason : Option Nat) : State :=
  { s.set l.var fun x => { x with value := some !l.isNegated, level := s.starts.length, reason }
      with
    trail := s.trail ++ [l] }

/-- Takes back what is assigned to the variables that `p` holds of. -/
def unassign (s : State) (p : Nat → Prop) [DecidablePred p] : State :=
  { s with cell := fun u => if p u ∧ u < s.size then { s.cell u with value := none, reason := none }
    else s.cell u }

/-- Takes back the trail from position `start` on. -/
def cut (s : State) (start : Nat) : State :=
  { s.unassign (· ∈ (s.trail.drop start).map Literal.var) with
    trail := s.trail.take start, head := min s.head start }

/-- Goes back to a level. -/
def back (s : State) (level : Nat) : State :=
  match s.starts[level]? with
  | none => s
  | some start => { s.cut start with starts := s.starts.take level }

/-- Takes everything on the trail back. -/
def clear (s : State) : State := { s.cut 0 with starts := [], head := 0, conflict := false }

/-- Opens a level with a decision. -/
def decide (s : State) (l : Literal) : State :=
  { s with starts := s.starts ++ [s.trail.length] }.assign l none

/-- Makes room for a variable and takes it into use. -/
def ensure (s : State) (v : Nat) : State :=
  { s with
    cell := fun u => if u = v then { s.cell u with live := true } else s.cell u
    size := max s.size (v + 1)
    room := if v < s.size then s.room else max s.room (2 * (v + 1)) }

/-- Notes that a clause watches a literal. -/
def watch (s : State) (l : Literal) (n : Nat) : State :=
  { s with watchers := fun code => if code = l.code ∧ code < s.room then s.watchers code ++ [n]
    else s.watchers code }

/-- Replaces the note of the clauses that watch a literal. -/
def setWatchers (s : State) (l : Literal) (ns : List Nat) : State :=
  { s with watchers := fun code => if code = l.code ∧ code < s.room then ns else s.watchers code }

/-- Replaces the watched literals of a clause. -/
def setWatched (s : State) (n : Nat) (x y : Literal) : State :=
  { s with watched := fun m => if m = n then some (x, y) else s.watched m }

/-- Stores a clause under a free number. -/
def store (s : State) (n : Nat) (cl : Clause) : State :=
  ((({ s with db := s.db.store cl.content }.setWatched n cl.first cl.second).watch cl.first n).watch
    cl.second n)

theorem unassign_congr (s : State) {p q : Nat → Prop} [DecidablePred p] [DecidablePred q]
    (h : ∀ u, p u ↔ q u) :
    s.unassign p = s.unassign q := by
  unfold unassign
  simp only [h]

/-- What is taken back may be taken back in parts. -/
theorem unassign_unassign (s : State) (p q : Nat → Prop) [DecidablePred p] [DecidablePred q] :
    (s.unassign p).unassign q = s.unassign fun u => p u ∨ q u := by
  refine State.ext (funext fun u => ?_) rfl rfl rfl rfl rfl rfl rfl rfl rfl
  simp only [unassign]
  by_cases hsize : u < s.size
  · by_cases hp : p u
    · by_cases hq : q u
      · simp [hp, hq, hsize]
      · simp [hp, hq, hsize]
    · simp [hp, hsize]
  · simp [hsize]

end State

end Search

namespace Core

open Search

variable {c : Core}

/-- What a core goes by. -/
def state (c : Core) : State where
  cell v := (c.info v).cell
  size := c.vars.size
  db := c.db
  watched n := ((c.clauses[n]?).join).map fun cl => (cl.first, cl.second)
  watchers code := (c.watches.getD code #[]).toList
  room := c.watches.size
  trail := c.trail.toList
  starts := c.levelStarts.toList
  head := c.head
  conflict := c.rootConflict

/-! ## Variables -/

theorem info_modifyVar (c : Core) (v : Nat) (f : VarInfo → VarInfo) (u : Nat) :
    (c.modifyVar v f).info u = if u = v ∧ u < c.vars.size then f (c.info u) else c.info u := by
  simp only [info, modifyVar, Array.getD_eq_getD_getElem?, Array.getElem?_modify]
  by_cases huv : v = u
  · subst huv
    by_cases hu : v < c.vars.size
    · simp [hu]
    · simp [hu]
  · have hvu : ¬ u = v := fun h => huv h.symm
    simp [huv, hvu]

/-- A change of a variable is a change of its cell. -/
theorem state_modifyVar (c : Core) (v : Nat) (f : VarInfo → VarInfo) (g : Cell → Cell)
    (h : ∀ x, (f x).cell = g x.cell) : (c.modifyVar v f).state = c.state.set v g := by
  refine State.ext (funext fun u => ?_) (Array.size_modify ..) rfl rfl rfl rfl rfl rfl rfl rfl
  show ((c.modifyVar v f).info u).cell = if u = v ∧ u < c.vars.size then g (c.info u).cell
    else (c.info u).cell
  rw [info_modifyVar]
  split
  · exact h _
  · rfl

/-- What only steers the search does not show in the state. -/
theorem state_of_cells {c c' : Core} (hcell : ∀ v, (c'.info v).cell = (c.info v).cell)
    (hsize : c'.vars.size = c.vars.size)
    (hclauses : c'.clauses = c.clauses ∧ c'.freeClauses = c.freeClauses ∧ c'.watches = c.watches)
    (hunits : c'.units = c.units ∧ c'.emptyClause = c.emptyClause ∧
      c'.rootConflict = c.rootConflict)
    (htrail : c'.trail = c.trail ∧ c'.levelStarts = c.levelStarts ∧ c'.head = c.head) :
    c'.state = c.state := by
  obtain ⟨h₁, h₂, h₃⟩ := hclauses
  obtain ⟨h₄, h₅, h₆⟩ := hunits
  obtain ⟨h₇, h₈, h₉⟩ := htrail
  unfold state db
  rw [h₁, h₂, h₃, h₄, h₅, h₆, h₇, h₈, h₉, hsize, funext hcell]

@[simp] theorem state_enter (c : Core) (v : Nat) : (c.enter v).state = c.state := rfl

@[simp] theorem state_rebuildOrder (c : Core) : c.rebuildOrder.state = c.state := rfl

@[simp] theorem state_setSeen (c : Core) (v : Nat) (seen : Bool) :
    (c.setSeen v seen).state = c.state.set v ({ · with seen }) :=
  state_modifyVar c v ({ · with seen }) ({ · with seen }) fun _ => rfl

@[simp] theorem state_releaseVar (c : Core) (v : Nat) :
    (c.releaseVar v).state = c.state.set v ({ · with live := false }) :=
  state_modifyVar c v ({ · with live := false, activity := 0.0, phase := false })
    ({ · with live := false }) fun _ => rfl

theorem state_bump_modify (c : Core) (v : Nat) (x : Float) :
    (c.modifyVar v fun i => { i with activity := i.activity + x }).state = c.state := by
  refine (state_modifyVar c v (fun i => { i with activity := i.activity + x }) id fun _ =>
    rfl).trans ?_
  unfold State.set
  simp

@[simp] theorem state_bump (c : Core) (v : Nat) : (c.bump v).state = c.state := by
  have hmodify := state_bump_modify c v c.increment
  simp only [bump]
  split
  · -- scaling all activities is no change of any cell
    rw [state_rebuildOrder, ← hmodify]
    refine state_of_cells (fun u => ?_) (Array.size_map ..) ⟨rfl, rfl, rfl⟩ ⟨rfl, rfl, rfl⟩
      ⟨rfl, rfl, rfl⟩
    simp only [info, Array.getD_eq_getD_getElem?, Array.getElem?_map]
    cases (modifyVar c v _).vars[u]? <;> rfl
  · rw [state_enter, hmodify]

theorem info_append_replicate (c : Core) (k u : Nat) :
    (c.vars ++ Array.replicate k ({} : VarInfo)).getD u {} = c.info u := by
  simp only [info, Array.getD_eq_getD_getElem?, Array.getElem?_append, Array.getElem?_replicate]
  split
  · rfl
  next h =>
    rw [Array.getElem?_eq_none (Nat.not_lt.mp h)]
    split <;> rfl

theorem watches_append_replicate (as : Array (Array Nat)) (k code : Nat) :
    (as ++ Array.replicate k #[]).getD code #[] = as.getD code #[] := by
  simp only [Array.getD_eq_getD_getElem?, Array.getElem?_append, Array.getElem?_replicate]
  split
  · rfl
  next h =>
    rw [Array.getElem?_eq_none (Nat.not_lt.mp h)]
    split <;> rfl

/-- Room for one more variable, which is not in use. -/
theorem state_makeRoom (c : Core) {v : Nat} (h : ¬ v < c.vars.size) :
    ({ c with
      vars := c.vars ++ Array.replicate (v + 1 - c.vars.size) {}
      watches := c.watches ++ Array.replicate (2 * (v + 1) - c.watches.size) #[] } : Core).state =
      { c.state with size := v + 1, room := max c.state.room (2 * (v + 1)) } := by
  refine State.ext (funext fun u => ?_) ?_ rfl rfl (funext fun code => ?_) ?_ rfl rfl rfl rfl
  · exact congrArg VarInfo.cell (info_append_replicate c _ u)
  · show (c.vars ++ Array.replicate (v + 1 - c.vars.size) _).size = v + 1
    rw [Array.size_append, Array.size_replicate]
    omega
  · exact congrArg Array.toList (watches_append_replicate c.watches _ code)
  · show (c.watches ++ Array.replicate (2 * (v + 1) - c.watches.size) _).size = max c.watches.size
      (2 * (v + 1))
    rw [Array.size_append, Array.size_replicate]
    omega

/-- Taking a variable into use makes room for it. -/
theorem state_ensureVar (c : Core) (v : Nat) : (c.ensureVar v).state = c.state.ensure v := by
  have hlive {c₁ : Core} (hv : v < c₁.vars.size) :
      (if (c₁.info v).live then c₁
        else { c₁ with
          vars := c₁.vars.modify v ({ · with live := true })
          order := c₁.order.push ((0.0 : Float).toBits, v) } :
          Core).state = { c₁.state with cell := fun u =>
            if u = v then { c₁.state.cell u with live := true } else c₁.state.cell u } := by
    split
    next h =>
      refine State.ext (funext fun u => ?_) rfl rfl rfl rfl rfl rfl rfl rfl rfl
      show (c₁.info u).cell = if u = v then { (c₁.info u).cell with live := true }
        else (c₁.info u).cell
      split
      next huv =>
        subst huv
        rw [← h]
        rfl
      · rfl
    · refine (state_modifyVar c₁ v ({ · with live := true }) ({ · with live := true }) fun _ =>
        rfl).trans ?_
      refine State.ext (funext fun u => ?_) rfl rfl rfl rfl rfl rfl rfl rfl rfl
      show (if u = v ∧ u < c₁.vars.size then _ else _) = if u = v then _ else _
      by_cases huv : u = v
      · rw [if_pos ⟨huv, huv ▸ hv⟩, if_pos huv]
      · rw [if_neg fun h => huv h.1, if_neg huv]
  unfold ensureVar
  by_cases hv : v < c.vars.size
  · simp only [if_pos hv]
    rw [hlive hv]
    refine State.ext rfl ?_ rfl rfl rfl ?_ rfl rfl rfl rfl
    · show c.vars.size = max c.vars.size (v + 1)
      omega
    · show c.watches.size = if v < c.vars.size then _ else _
      rw [if_pos hv]
      rfl
  · have hroom := state_makeRoom c hv
    simp only [if_neg hv]
    rw [hlive, hroom]
    · refine State.ext rfl ?_ rfl rfl rfl ?_ rfl rfl rfl rfl
      · show v + 1 = max c.vars.size (v + 1)
        omega
      · show _ = if v < c.vars.size then _ else _
        rw [if_neg hv]
    · show v < (c.vars ++ Array.replicate (v + 1 - c.vars.size) _).size
      rw [Array.size_append, Array.size_replicate]
      omega

/-! ## The trail -/

@[simp] theorem state_enqueue (c : Core) (l : Literal) (r : Option Nat) :
    (c.enqueue l r).state = c.state.assign l r := by
  have h := state_modifyVar c l.var
    ({ · with value := some !l.isNegated, level := c.decisionLevel, reason := r })
    ({ · with value := some !l.isNegated, level := c.decisionLevel, reason := r }) fun _ => rfl
  have hlevel : c.state.starts.length = c.decisionLevel := Array.length_toList
  refine State.ext ?_ (Array.size_modify ..) rfl rfl rfl rfl Array.toList_push rfl rfl rfl
  refine (congrArg State.cell h).trans ?_
  unfold State.assign
  rw [hlevel]

@[simp] theorem state_decide (c : Core) (l : Literal) : (c.decide l).state = c.state.decide l := by
  unfold decide State.decide
  rw [state_enqueue]
  congr 1
  refine State.ext rfl rfl rfl rfl rfl rfl rfl ?_ rfl rfl
  show (c.levelStarts.push c.trail.size).toList = c.levelStarts.toList ++ [c.trail.toList.length]
  rw [Array.toList_push, Array.length_toList]

theorem state_unassign (c : Core) (l : Literal) :
    (c.unassign l).state = c.state.unassign (· = l.var) :=
  state_modifyVar c l.var ({ · with phase := !l.isNegated, value := none, reason := none })
    ({ · with value := none, reason := none }) fun _ => rfl

theorem state_foldl_unassign (ls : List Literal) (c : Core) :
    (ls.foldl unassign c).state = c.state.unassign (· ∈ ls.map Literal.var) := by
  induction ls generalizing c with
  | nil =>
    refine State.ext (funext fun u => ?_) rfl rfl rfl rfl rfl rfl rfl rfl rfl
    simp [State.unassign]
  | cons l ls ih =>
    rw [List.foldl_cons, ih, state_unassign, State.unassign_unassign]
    exact State.unassign_congr _ fun u => by rw [List.map_cons, List.mem_cons]

theorem state_unassignFrom (c : Core) (start : Nat) :
    (c.unassignFrom start).state = c.state.cut start := by
  let undone := (c.trail.extract start c.trail.size).toList.reverse
  have hundone : undone.reverse = c.state.trail.drop start := by
    show (c.trail.extract start c.trail.size).toList.reverse.reverse = c.trail.toList.drop start
    rw [List.reverse_reverse, Array.toList_extract, List.extract_eq_take_drop,
      List.take_of_length_le (by simp)]
  have hcut : (c.unassignFrom start).state = { (undone.foldl unassign c).state with
      trail := (undone.foldl unassign c).state.trail.take start
      head := min (undone.foldl unassign c).state.head start } :=
    State.ext rfl rfl rfl rfl rfl rfl Array.toList_shrink rfl rfl rfl
  have hmem (u : Nat) : u ∈ undone.map Literal.var ↔
      u ∈ (c.state.trail.drop start).map Literal.var := by
    rw [← hundone]
    simp only [List.mem_map, List.mem_reverse]
  rw [hcut, state_foldl_unassign, State.unassign_congr _ hmem]
  rfl

/-- Going back to a level takes the trail back to where the next level starts. -/
theorem state_backtrack (c : Core) (level : Nat) :
    (c.backtrack level).state = c.state.back level := by
  have hstart : c.state.starts[level]? = c.levelStarts[level]? := Array.getElem?_toList
  unfold backtrack State.back
  rw [hstart]
  cases c.levelStarts[level]? with
  | none => rfl
  | some start =>
    have h := state_unassignFrom c start
    have hstarts : ((c.unassignFrom start).levelStarts.shrink level).toList =
        c.state.starts.take level := by
      have hsame : (c.unassignFrom start).levelStarts.toList = c.levelStarts.toList :=
        congrArg State.starts h
      rw [Array.toList_shrink, hsame]
      rfl
    have hback :
      ({ c.unassignFrom start with levelStarts := (c.unassignFrom start).levelStarts.shrink level
        } :
        Core).state = { c.state.cut start with starts := c.state.starts.take level } := by
      rw [← h, ← hstarts]
      rfl
    simp only
    split
    · exact hback
    · exact hback

@[simp] theorem state_resetTrail (c : Core) : c.resetTrail.state = c.state.clear := by
  have h := state_unassignFrom c 0
  unfold State.clear
  rw [← h]
  rfl

/-! ## Clauses -/

@[simp] theorem state_addUnit (c : Core) (l : Literal) (scope : Nat) :
    ({ c with units := c.units.push (l, scope) } : Core).state =
      { c.state with db := c.db.addUnit l scope } := rfl

@[simp] theorem state_watch (c : Core) (l : Literal) (n : Nat) :
    (c.watch l n).state = c.state.watch l n := by
  refine State.ext rfl rfl rfl rfl (funext fun code => ?_) (Array.size_modify ..) rfl rfl rfl rfl
  show ((c.watches.modify l.code (·.push n)).getD code #[]).toList =
    if code = l.code ∧ code < c.watches.size then (c.watches.getD code #[]).toList ++ [n]
      else (c.watches.getD code #[]).toList
  simp only [Array.getD_eq_getD_getElem?, Array.getElem?_modify]
  by_cases hcode : code = l.code
  · subst hcode
    by_cases hroom : l.code < c.watches.size
    · simp [hroom]
    · simp [hroom]
  · simp [hcode, Ne.symm hcode]

theorem state_setWatches (c : Core) (l : Literal) (ns : Array Nat) :
    ({ c with watches := c.watches.setIfInBounds l.code ns } : Core).state =
      c.state.setWatchers l ns.toList := by
  refine State.ext rfl rfl rfl rfl (funext fun code => ?_) Array.size_setIfInBounds rfl rfl rfl rfl
  show ((c.watches.setIfInBounds l.code ns).getD code #[]).toList =
    if code = l.code ∧ code < c.watches.size then ns.toList else (c.watches.getD code #[]).toList
  simp only [Array.getD_eq_getD_getElem?, Array.getElem?_setIfInBounds]
  by_cases hcode : code = l.code
  · subst hcode
    by_cases hroom : l.code < c.watches.size
    · simp [hroom]
    · simp [hroom]
  · simp [hcode, Ne.symm hcode]

/-- Putting the literals of a clause into another order changes at most which of them are
watched. -/
theorem state_setClause {n : Nat} {cl cl' : Clause} (h : (c.clauses[n]?).join = some cl)
    (hcl : cl'.content = cl.content) :
    ({ c with clauses := c.clauses.setIfInBounds n (some cl') } : Core).state =
      c.state.setWatched n cl'.first cl'.second := by
  refine State.ext rfl rfl (db_setClause h hcl) (funext fun m => ?_) rfl rfl rfl rfl rfl rfl
  have hn : n < c.clauses.size := by
    apply Nat.lt_of_not_le
    intro hle
    simp [Array.getElem?_eq_none hle] at h
  show (((c.clauses.setIfInBounds n (some cl'))[m]?).join).map _ = if m = n then some
    (cl'.first, cl'.second) else _
  rw [Array.getElem?_setIfInBounds]
  by_cases hm : m = n
  · subst hm
    simp [hn]
  · simp only [if_neg hm, if_neg (Ne.symm hm)]
    rfl

/-- A clause is stored under the first free number. -/
theorem state_storeClause {depth : Nat} (h : c.db.Ok depth) (cl : Clause) :
    (c.storeClause cl).1 = c.db.slot ∧ (c.storeClause cl).2.state = c.state.store c.db.slot cl := by
  have hstore {c₁ : Core} {n : Nat} (hdb : c₁.db = c.db.store cl.content)
      (hsame : c₁.state = { c.state.setWatched n cl.first cl.second with db := c₁.db }) :
      ((c₁.watch cl.first n).watch cl.second n).state = c.state.store n cl := by
    rw [state_watch, state_watch, hsame, hdb]
    rfl
  have hdb := db_storeClause c cl
  unfold storeClause at hdb ⊢
  unfold Database.slot
  cases hfree : c.freeClauses with
  | nil =>
    have hslot : c.db.free = [] := hfree
    rw [hfree] at hdb
    simp only [hslot, List.headD_nil]
    have hsize : c.db.clauses.size = c.clauses.size := Array.size_map ..
    refine ⟨hsize.symm, ?_⟩
    rw [hsize]
    refine hstore hdb (State.ext rfl rfl rfl (funext fun m => ?_) rfl rfl rfl rfl rfl rfl)
    show ((c.clauses.push (some cl))[m]?.join).map _ = if m = c.clauses.size then _ else _
    rw [Array.getElem?_push]
    split
    · rfl
    · rfl
  | cons n free =>
    have hslot : c.db.free = n :: free := hfree
    rw [hfree] at hdb
    simp only [hslot, List.headD_cons]
    have hn : n < c.clauses.size := by
      have hget := h.free (n := n) (by rw [hslot]; exact List.mem_cons_self)
      obtain ⟨hlt, -⟩ := Array.getElem?_eq_some_iff.mp hget
      exact lt_of_lt_of_eq hlt (Array.size_map ..)
    refine ⟨trivial, hstore hdb (State.ext rfl rfl rfl
      (funext fun m => ?_) rfl rfl rfl rfl rfl rfl)⟩
    show ((c.clauses.setIfInBounds n (some cl))[m]?.join).map _ = if m = n then _ else _
    rw [Array.getElem?_setIfInBounds]
    by_cases hm : m = n
    · subst hm
      simp [hn]
    · simp only [if_neg hm, if_neg (Ne.symm hm)]
      rfl

@[simp] theorem state_mergeScopes (c : Core) (depth : Nat) :
    (c.mergeScopes depth).state = { c.state with db := c.db.merge depth } := by
  refine State.ext rfl rfl (db_mergeScopes c depth) (funext fun m => ?_) rfl rfl rfl rfl rfl rfl
  show ((c.clauses.map (·.map fun cl => { cl with scope := min cl.scope depth }))[m]?.join).map _ =
    ((c.clauses[m]?).join).map _
  rw [Array.getElem?_map]
  rcases c.clauses[m]? with _ | _ | _ <;> rfl

theorem join_freeClause (depth : Nat) (c : Core) (n m : Nat) :
    ((freeClause depth c n).clauses[m]?).join = (c.clauses[m]?).join ∨
    ((freeClause depth c n).clauses[m]?).join = none := by
  unfold freeClause
  split
  · exact .inl rfl
  · split
    · simp only [Array.getElem?_setIfInBounds]
      split
      · split
        · exact .inr rfl
        · exact .inr rfl
      · exact .inl rfl
    · exact .inl rfl

/-- Freeing clauses leaves a clause or takes it away. -/
theorem join_foldl_freeClause (depth : Nat) (ns : List Nat) (c : Core) (m : Nat) :
    ((ns.foldl (freeClause depth) c).clauses[m]?).join = (c.clauses[m]?).join ∨
      ((ns.foldl (freeClause depth) c).clauses[m]?).join = none := by
  induction ns generalizing c with
  | nil => exact .inl rfl
  | cons n ns ih =>
    rw [List.foldl_cons]
    rcases ih (freeClause depth c n) with h | h
    · rw [h]
      exact join_freeClause depth c n m
    · exact .inr h

/-- What dropping scopes leaves of the clauses. -/
theorem db_popScopes {top : Nat} (h : c.db.Ok top) (depth : Nat) :
    (∀ n, (c.popScopes depth).db.clause? n = (c.db.clause? n).filter (·.2.1 ≤ depth)) ∧
      (c.popScopes depth).db.units.toList = c.db.units.toList.filter (·.2 ≤ depth) ∧
      (c.popScopes depth).db.empty = c.db.empty.filter (· ≤ depth) := by
  obtain ⟨hok, hupTo⟩ := popScopes_spec h depth
  have hsame := hok.upTo_eq.symm.trans (hupTo (Nat.le_refl depth))
  exact ⟨fun n => congrFun (congrArg Kept.clauses hsame) n, congrArg Kept.units hsame,
    congrArg Kept.empty hsame⟩

theorem foldl_unassign_eq (ls : List Literal) (c : Core) :
    ∃ vars order, ls.foldl unassign c = { c with vars, order } := by
  induction ls generalizing c with
  | nil => exact ⟨c.vars, c.order, rfl⟩
  | cons l ls ih =>
    obtain ⟨vars, order, h⟩ := ih (c.unassign l)
    exact ⟨vars, order, by rw [List.foldl_cons, h]; rfl⟩

theorem clauses_resetTrail (c : Core) :
    c.resetTrail.clauses = c.clauses ∧ c.resetTrail.watches = c.watches := by
  obtain ⟨vars, order, h⟩ := foldl_unassign_eq (c.trail.extract 0 c.trail.size).toList.reverse c
  simp only [resetTrail, unassignFrom, h, and_self]

theorem foldl_freeClause_eq (depth : Nat) (ns : List Nat) (c : Core) :
    ∃ clauses freeClauses, ns.foldl (freeClause depth) c = { c with clauses, freeClauses } := by
  induction ns generalizing c with
  | nil => exact ⟨c.clauses, c.freeClauses, rfl⟩
  | cons n ns ih =>
    have hone : ∃ clauses freeClauses, freeClause depth c n = { c with clauses, freeClauses } := by
      unfold freeClause
      split
      · exact ⟨c.clauses, c.freeClauses, rfl⟩
      · split
        · exact ⟨_, _, rfl⟩
        · exact ⟨c.clauses, c.freeClauses, rfl⟩
    obtain ⟨clauses, freeClauses, hone⟩ := hone
    obtain ⟨clauses', freeClauses', hrest⟩ := ih (freeClause depth c n)
    refine ⟨clauses', freeClauses', ?_⟩
    rw [List.foldl_cons, hrest, hone]

/-- Dropping scopes clears the trail and forgets the clauses that are gone. -/
theorem state_popScopes (c : Core) (depth : Nat) :
    (c.popScopes depth).state = { c.state.clear with
      db := (c.popScopes depth).db
      watched := fun m => if ((c.popScopes depth).db.clause? m).isSome then c.state.watched m
        else none
      watchers := fun code => (c.state.watchers code).filter fun n =>
        ((c.popScopes depth).db.clause? n).isSome } := by
  obtain ⟨clauses, freeClauses, heq⟩ :=
    foldl_freeClause_eq depth (List.range c.clauses.size) c.resetTrail
  obtain ⟨hclauses, hwatches⟩ := clauses_resetTrail c
  have hjoin (m : Nat) : (clauses[m]?).join = (c.clauses[m]?).join ∨ (clauses[m]?).join = none := by
    have h := join_foldl_freeClause depth (List.range c.clauses.size) c.resetTrail m
    rw [heq, hclauses] at h
    exact h
  have hpop : c.popScopes depth = { c.resetTrail with
      clauses
      freeClauses
      watches := c.watches.map (·.filter fun n => ((clauses[n]?).join).isSome)
      units := c.resetTrail.units.filter fun u => u.2 ≤ depth
      emptyClause := c.resetTrail.emptyClause.filter (· ≤ depth)
      rootConflict := false } := by
    unfold popScopes
    rw [heq, ← hwatches]
  have hlive (m : Nat) : ((c.popScopes depth).db.clause? m).isSome =
      ((clauses[m]?).join).isSome := by
    rw [clause?_db, Option.isSome_map, hpop]
  have hclear : c.resetTrail.state = c.state.clear := state_resetTrail c
  simp only [hlive]
  rw [← hclear]
  rw [hpop]
  refine State.ext rfl rfl rfl (funext fun m => ?_) (funext fun code => ?_) ?_ rfl rfl rfl ?_
  · show ((clauses[m]?).join).map _ = if ((clauses[m]?).join).isSome then ((c.clauses[m]?).join).map
      _ else none
    rcases hjoin m with h | h
    · rw [h]
      cases (c.clauses[m]?).join <;> rfl
    · rw [h]
      rfl
  · show ((c.watches.map _).getD code #[]).toList = (c.watches.getD code #[]).toList.filter _
    simp only [Array.getD_eq_getD_getElem?, Array.getElem?_map]
    cases c.watches[code]? with
    | none => rfl
    | some ns => exact Array.toList_filter
  · show (c.watches.map _).size = c.resetTrail.watches.size
    rw [Array.size_map, hwatches]
  · rfl

end Core
end Entail
