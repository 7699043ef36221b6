import Entail.Model.Print
import Entail.Proofs.Names
import Entail.Proofs.Moves
import Mathlib

/-!
# Printing models: what depends on the order of the tables

The lines of a model are collected table by table, in whatever order the tables are gone through,
and sorted by their keys. Lines with different keys end up in the order of the keys; lines of one
table with the same key stay in the order of the table. So the document does not depend on the
orders exactly when such lines are the same.
-/

namespace Entail

/-! ## Documents are made of their parts -/

namespace Doc

theorem foldl_separated_inj {sep : Doc} {ds ds' : List Doc} (hlen : ds.length = ds'.length)
    {a a' : Doc}
    (h : ds.foldl (fun acc d => acc ++ sep ++ d) a = ds'.foldl (fun acc d => acc ++ sep ++ d) a') :
    a = a' ∧ ds = ds' := by
  induction ds generalizing ds' a a' with
  | nil =>
    obtain rfl := List.length_eq_zero_iff.mp hlen.symm
    exact ⟨h, rfl⟩
  | cons d ds ih =>
    cases ds' with
    | nil => cases hlen
    | cons d' ds' =>
      obtain ⟨hfirst, rfl⟩ := ih (Nat.succ.inj hlen) h
      obtain ⟨hleft, rfl⟩ := Doc.append.inj hfirst
      exact ⟨(Doc.append.inj hleft).1, rfl⟩

theorem lines_inj {ds ds' : List Doc} (hlen : ds.length = ds'.length) (h : lines ds = lines ds') :
    ds = ds' := by
  cases ds with
  | nil => exact (List.length_eq_zero_iff.mp hlen.symm).symm
  | cons d ds =>
    cases ds' with
    | nil => cases hlen
    | cons d' ds' =>
      obtain ⟨rfl, rfl⟩ := foldl_separated_inj (Nat.succ.inj hlen) h
      rfl

theorem sexp_inj {head : Doc} {ds ds' : List Doc} {depth : Nat} (hlen : ds.length = ds'.length)
    (h : sexp head ds depth = sexp head ds' depth) : ds = ds' := by
  have hopen := (Doc.append.inj (Doc.group.inj h)).1
  exact (foldl_separated_inj hlen (Doc.nest.inj (Doc.append.inj hopen).2).2).2

end Doc

open Doc

namespace Model

/-! ## Sorting by key -/

variable {ls ls' : List (String × Doc)}

/-- The order of lines. -/
def keyLe (a b : String × Doc) : Bool := a.1 ≤ b.1

theorem keyLe_trans (a b c : String × Doc) (hab : keyLe a b = true) (hbc : keyLe b c = true) :
    keyLe a c = true :=
  decide_eq_true (le_trans (of_decide_eq_true hab) (of_decide_eq_true hbc))

theorem keyLe_total (a b : String × Doc) : (keyLe a b || keyLe b a) = true := by
  rw [Bool.or_eq_true]
  exact (le_total a.1 b.1).imp decide_eq_true decide_eq_true

theorem pairwise_keyLe (ls : List (String × Doc)) :
    (ls.mergeSort keyLe).Pairwise fun a b => keyLe a b = true :=
  List.pairwise_mergeSort keyLe_trans keyLe_total ls

/-- Sorting leaves the lines of one key as they are. -/
theorem filter_mergeSort (ls : List (String × Doc)) (k : String) :
    (ls.mergeSort keyLe).filter (fun x => x.1 == k) = ls.filter fun x => x.1 == k := by
  have htied : (ls.filter fun x => x.1 == k).Pairwise fun a b => keyLe a b = true := by
    refine List.pairwise_of_forall_mem_list fun a ha b hb => ?_
    have hak := eq_of_beq (List.mem_filter.mp ha).2
    have hbk := eq_of_beq (List.mem_filter.mp hb).2
    exact decide_eq_true (le_of_eq (hak.trans hbk.symm))
  have hsub := (List.sublist_mergeSort keyLe_trans keyLe_total htied List.filter_sublist).filter
    fun x => x.1 == k
  rw [List.filter_filter] at hsub
  simp only [Bool.and_self] at hsub
  exact (hsub.eq_of_length ((List.mergeSort_perm ls keyLe).filter _).length_eq.symm).symm

/-- Sorted lines are determined by the lines of each key. -/
theorem eq_of_filter_eq (hls : ls.Pairwise fun a b => keyLe a b = true)
    (hls' : ls'.Pairwise fun a b => keyLe a b = true)
    (h : ∀ k, (ls.filter fun x => x.1 == k) = ls'.filter fun x => x.1 == k) : ls = ls' := by
  have hmem (x : String × Doc) : x ∈ ls ↔ x ∈ ls' := by
    have hx := congrArg (x ∈ ·) (h x.1)
    simpa using hx
  induction ls generalizing ls' with
  | nil => exact (List.eq_nil_iff_forall_not_mem.mpr fun x hx =>
    List.not_mem_nil ((hmem x).mpr hx)).symm
  | cons a ls ih =>
    cases ls' with
    | nil => exact absurd ((hmem a).mp List.mem_cons_self) List.not_mem_nil
    | cons b ls' =>
      rw [List.pairwise_cons] at hls hls'
      have hab : keyLe a b = true := by
        rcases List.mem_cons.mp ((hmem b).mpr List.mem_cons_self) with rfl | hb
        · exact decide_eq_true le_rfl
        · exact hls.1 b hb
      have hba : keyLe b a = true := by
        rcases List.mem_cons.mp ((hmem a).mp List.mem_cons_self) with rfl | ha
        · exact decide_eq_true le_rfl
        · exact hls'.1 a ha
      have hkey : a.1 = b.1 := le_antisymm (of_decide_eq_true hab) (of_decide_eq_true hba)
      -- both heads come first among the lines of their key
      have hheads := h a.1
      rw [List.filter_cons_of_pos (by simp), List.filter_cons_of_pos (by simp [hkey])] at hheads
      obtain ⟨rfl, htails⟩ := List.cons.inj hheads
      have hrest (k : String) : (ls.filter fun x => x.1 == k) = ls'.filter fun x => x.1 == k := by
        have hk := h k
        by_cases heq : a.1 = k
        · exact heq ▸ htails
        · rwa [List.filter_cons_of_neg (by simpa using heq),
            List.filter_cons_of_neg (by simpa using heq)] at hk
      congr 1
      refine ih hls.2 hls'.2 hrest fun x => ?_
      have hx := congrArg (x ∈ ·) (hrest x.1)
      simpa using hx

theorem byKey_eq (ls : List (String × Doc)) : byKey ls = (ls.mergeSort keyLe).map (·.2) := rfl

/-- Lines with the same keys are sorted to the same documents exactly when they agree on every
single key. -/
theorem byKey_eq_iff (hkeys : (ls.map (·.1)).Perm (ls'.map (·.1))) :
    byKey ls = byKey ls' ↔ ∀ k, (ls.filter fun x => x.1 == k) = ls'.filter fun x => x.1 == k := by
  rw [byKey_eq, byKey_eq]
  constructor
  · intro hdocs k
    have hsorted (ls : List (String × Doc)) : ((ls.mergeSort keyLe).map (·.1)).Pairwise (· ≤ ·) :=
      List.pairwise_map.mpr ((pairwise_keyLe ls).imp fun h => of_decide_eq_true h)
    have hperm : ((ls.mergeSort keyLe).map (·.1)).Perm ((ls'.mergeSort keyLe).map (·.1)) :=
      (((List.mergeSort_perm ls keyLe).map _).trans hkeys).trans
        ((List.mergeSort_perm ls' keyLe).map _).symm
    have hfst := hperm.eq_of_pairwise (fun a b _ _ => le_antisymm) (hsorted ls) (hsorted ls')
    rw [← filter_mergeSort ls, ← filter_mergeSort ls', List.zip_of_prod hfst hdocs,
      ← List.zip_of_prod rfl rfl]
  · intro h
    congr 1
    refine eq_of_filter_eq (pairwise_keyLe ls) (pairwise_keyLe ls') fun k => ?_
    rw [filter_mergeSort, filter_mergeSort, h]

/-! ## Listings -/

/-- Two models with the same values, function tables and definitions, however these are kept. -/
structure Same (m m' : Model) : Prop where
  values (t : Term) : m.values[t]? = m'.values[t]?
  definitions (t : Term) : m.definitions[t]? = m'.definitions[t]?
  functions (f : Term) : f ∈ m.functions ↔ f ∈ m'.functions
  rows (f : Term) (args : List Value) :
    (m.functions.getD f ∅)[args]? = (m'.functions.getD f ∅)[args]?

/-- The entries of the tables of a model, gone through in some order. -/
structure Listing where
  values : List (Term × Value)
  definitions : List Term
  functions : List (Term × List (List Value × Value))

/-- The listing in the order in which the tables are kept. -/
def listing (m : Model) : Listing :=
  ⟨m.values.toList, m.definitions.keys, m.functions.toList.map fun (f, table) => (f, table.toList)⟩

/-- The line of a constant that gets its value from a definition. -/
def definitionLine? (m : Model) (s : Store) (x : Term) : Option (String × Doc) :=
  if m.values.contains x then none
  else
    match m.eval s x with
    | .ok v => line? s x v
    | .error _ => none

/-- The rows of a function, under their texts on one line. -/
def rowLines (s : Store) (f : Term) (rows : List (List Value × Value)) : List (String × Doc) :=
  rows.map fun r => row s f r.1 r.2

/-- The table of a function with these rows, under its name if it has one. -/
def tableLine? (s : Store) (f : Term) (rows : List (List Value × Value)) : Option (String × Doc) :=
  (s.termNames.nameOf? f).map fun name =>
    (name, sexp (op "function") (s.termDoc f :: byKey (rowLines s f rows)) 0)

namespace Listing

/-- The listing is one of the model `m`. -/
structure Of (L : Listing) (m : Model) : Prop where
  values : L.values.Perm m.values.toList
  definitions : L.definitions.Perm m.definitions.keys
  functions : ∃ tables, tables.Perm m.functions.toList ∧
    List.Forall₂ (fun f g => f.1 = g.1 ∧ f.2.Perm g.2.toList) L.functions tables

variable (L : Listing) (m : Model) (s : Store)

/-- Lines of constants with a value. -/
def valueLines : List (String × Doc) := L.values.filterMap fun (t, v) => line? s t v

/-- Lines of constants with a definition. -/
def definitionLines : List (String × Doc) := L.definitions.filterMap (m.definitionLine? s)

/-- Lines of functions. -/
def functionLines : List (String × Doc) := L.functions.filterMap fun f => tableLine? s f.1 f.2

/-- The document of the model when its tables are gone through as listed. -/
def doc : Doc :=
  lines (byKey (L.valueLines s ++ L.definitionLines m s) ++ byKey (L.functionLines s))

end Listing

/-- Lines with the same key are the same. -/
def Determinate (ls : List (String × Doc)) : Prop := ∀ x ∈ ls, ∀ y ∈ ls, x.1 = y.1 → x = y

/-- Within every table, lines with the same key are the same. -/
structure Unambiguous (m : Model) (s : Store) : Prop where
  values : Determinate (m.listing.valueLines s)
  definitions : Determinate (m.listing.definitionLines m s)
  rows (f : Term) (table : FunctionTable) : m.functions[f]? = some table →
    (s.termNames.nameOf? f).isSome →
    Determinate (rowLines s f table.toList)
  functions : Determinate (m.listing.functionLines s)

variable {m m' : Model} {s : Store} {L : Listing}

/-- The document of a model comes from the listing in which its tables are kept. -/
theorem doc_listing (m : Model) (s : Store) : m.listing.doc m s = m.doc s := by
  have hfunctions : m.listing.functionLines s =
      m.functions.toList.filterMap fun (f, table) => functionLine? s f table := by
    unfold Listing.functionLines listing
    rw [List.filterMap_map]
    rfl
  unfold Listing.doc
  rw [hfunctions]
  rfl

theorem of_listing (m : Model) : m.listing.Of m := by
  refine ⟨.rfl, .rfl, _, .rfl, ?_⟩
  exact List.forall₂_map_left_iff.mpr (List.forall₂_same.mpr fun _ _ => ⟨rfl, .rfl⟩)

/-! ## Models with the same tables -/

/-- Evaluation only looks up the tables. -/
theorem Same.evalNode (h : m.Same m') (s : Store) (eval : Term → EvalOp Value) (p : Term) :
    m.evalNode s eval p = m'.evalNode s eval p := by
  unfold Model.evalNode
  simp only [h.values, h.definitions, h.rows]

theorem Same.evalAt (h : m.Same m') (s : Store) (depth : Nat) (t : Term) :
    m.evalAt s depth t = m'.evalAt s depth t := by
  induction depth generalizing t with
  | zero => rfl
  | succ depth ih =>
    have heval : m.evalAt s depth = m'.evalAt s depth := funext ih
    unfold Model.evalAt
    rw [heval]
    simp only [h.evalNode]

theorem Same.eval (h : m.Same m') (s : Store) (t : Term) : m.eval s t = m'.eval s t := by
  unfold Model.eval
  simp only [h.evalAt]

theorem Same.definitionLine? (h : m.Same m') (s : Store) (x : Term) :
    m.definitionLine? s x = m'.definitionLine? s x := by
  have hcontains : m.values.contains x = m'.values.contains x := by
    rw [Std.HashMap.contains_eq_isSome_getElem?, Std.HashMap.contains_eq_isSome_getElem?, h.values]
  unfold Model.definitionLine?
  rw [hcontains, h.eval]

/-- A listing of a model lists every model with the same tables. -/
theorem Same.listing_of (h : m.Same m') : m'.listing.Of m := by
  have hvalues : m'.values.Equiv m.values := .of_forall_getElem?_eq fun t => (h.values t).symm
  have hdefinitions : m'.definitions.Equiv m.definitions := .of_forall_getElem?_eq fun t =>
    (h.definitions t).symm
  refine ⟨hvalues.toList_perm, hdefinitions.keys_perm,
    m'.functions.toList.map fun f => (f.1, m.functions.getD f.1 ∅), ?_, ?_⟩
  · have hnodup : (m'.functions.toList.map fun f => (f.1, m.functions.getD f.1 ∅)).Nodup := by
      refine List.Nodup.of_map Prod.fst ?_
      rw [List.map_map]
      exact List.pairwise_map.mpr (Std.HashMap.distinct_keys_toList.imp fun hne =>
        beq_eq_false_iff_ne.mp hne)
    have hnodup' : m.functions.toList.Nodup :=
      Std.HashMap.distinct_keys_toList.imp fun hne heq =>
        beq_eq_false_iff_ne.mp hne (congrArg Prod.fst heq)
    refine (List.perm_ext_iff_of_nodup hnodup hnodup').mpr fun ⟨f, table⟩ => ?_
    rw [List.mem_map, Std.HashMap.mem_toList_iff_getElem?_eq_some]
    constructor
    · rintro ⟨⟨g, table'⟩, hg, heq⟩
      obtain ⟨rfl, rfl⟩ := Prod.mk.inj heq
      have hmem : g ∈ m'.functions := Std.HashMap.isSome_getElem?_iff_mem.mp
        (Option.isSome_iff_exists.mpr ⟨_, Std.HashMap.mem_toList_iff_getElem?_eq_some.mp hg⟩)
      rw [Std.HashMap.getD_eq_getD_getElem?]
      obtain ⟨table, htable⟩ := Option.isSome_iff_exists.mp
        (Std.HashMap.isSome_getElem?_iff_mem.mpr ((h.functions g).mpr hmem))
      rw [htable, Option.getD_some]
    · intro hf
      have hmem : f ∈ m'.functions :=
        (h.functions f).mp (Std.HashMap.isSome_getElem?_iff_mem.mp (by rw [hf]; rfl))
      obtain ⟨table', htable'⟩ := Option.isSome_iff_exists.mp
        (Std.HashMap.isSome_getElem?_iff_mem.mpr hmem)
      refine ⟨(f, table'), Std.HashMap.mem_toList_iff_getElem?_eq_some.mpr htable', ?_⟩
      rw [Std.HashMap.getD_eq_getD_getElem?, hf, Option.getD_some]
  · refine List.forall₂_map_left_iff.mpr (List.forall₂_map_right_iff.mpr (List.forall₂_same.mpr ?_))
    rintro ⟨f, table'⟩ hf
    have htable' : m'.functions.getD f ∅ = table' := by
      rw [Std.HashMap.getD_eq_getD_getElem?, Std.HashMap.mem_toList_iff_getElem?_eq_some.mp hf,
        Option.getD_some]
    have hrows : table'.Equiv (m.functions.getD f ∅) :=
      .of_forall_getElem?_eq fun args => by rw [h.rows, htable']
    exact ⟨rfl, hrows.toList_perm⟩

/-! ## Unambiguous models -/

/-- Lines that are the same under each key may be permuted. -/
theorem Determinate.filter_eq (h : Determinate ls) (hperm : ls'.Perm ls) (k : String) :
    (ls'.filter fun x => x.1 == k) = ls.filter fun x => x.1 == k := by
  have hany (ks : List (String × Doc)) : ks.Pairwise fun _ _ => True :=
    List.pairwise_of_forall fun _ _ => trivial
  refine (hperm.filter _).eq_of_pairwise (fun a b ha hb _ _ => ?_) (hany _) (hany _)
  rw [List.mem_filter] at ha hb
  exact h a (hperm.mem_iff.mp ha.1) b hb.1 ((eq_of_beq ha.2).trans (eq_of_beq hb.2).symm)

theorem Listing.Of.valueLines (hL : L.Of m) (s : Store) :
    (L.valueLines s).Perm (m.listing.valueLines s) :=
  hL.values.filterMap _

theorem Listing.Of.definitionLines (hL : L.Of m) (s : Store) :
    (L.definitionLines m s).Perm (m.listing.definitionLines m s) :=
  hL.definitions.filterMap _

/-- The names of functions do not depend on the order of their rows. -/
theorem Listing.Of.keys_functionLines (hL : L.Of m) (s : Store) :
    ((L.functionLines s).map (·.1)).Perm ((m.listing.functionLines s).map (·.1)) := by
  have hkeys (L : Listing) : (L.functionLines s).map (·.1) = (L.functions.map (·.1)).filterMap
      s.termNames.nameOf? := by
    rw [Listing.functionLines, List.map_filterMap, List.filterMap_map]
    congr 1
    funext f
    simp [tableLine?, Function.comp_def]
  rw [hkeys, hkeys]
  refine List.Perm.filterMap _ ?_
  obtain ⟨tables, hperm, hall⟩ := hL.functions
  have hsame : L.functions.map (·.1) = tables.map (·.1) := by
    clear hperm
    generalize L.functions = fs at hall ⊢
    induction hall with
    | nil => rfl
    | cons hfirst _ ih => rw [List.map_cons, List.map_cons, hfirst.1, ih]
  rw [hsame, listing, List.map_map]
  exact hperm.map _

theorem tableLine?_perm {f : Term} {rows rows' : List (List Value × Value)}
    (hperm : rows'.Perm rows)
    (h : (s.termNames.nameOf? f).isSome → Determinate (rowLines s f rows)) :
    tableLine? s f rows' = tableLine? s f rows := by
  unfold tableLine?
  cases hname : s.termNames.nameOf? f with
  | none => rfl
  | some name =>
    have hlines : (rowLines s f rows').Perm (rowLines s f rows) := hperm.map _
    have hdocs : byKey (rowLines s f rows') = byKey (rowLines s f rows) :=
      (byKey_eq_iff (hlines.map _)).mpr ((h (by rw [hname]; rfl)).filter_eq hlines)
    rw [hdocs]

theorem Unambiguous.functionLines (h : m.Unambiguous s) (hL : L.Of m) :
    (L.functionLines s).Perm (m.listing.functionLines s) := by
  obtain ⟨tables, hperm, hall⟩ := hL.functions
  have hlines : L.functionLines s = tables.filterMap fun f => tableLine? s f.1 f.2.toList := by
    have hmem : ∀ f ∈ tables, m.functions[f.1]? = some f.2 := fun f hf =>
      Std.HashMap.mem_toList_iff_getElem?_eq_some.mp (hperm.mem_iff.mp hf)
    clear hperm
    unfold Listing.functionLines
    generalize L.functions = fs at hall ⊢
    induction hall with
    | nil => rfl
    | @cons f g fs gs hfirst _ ih =>
      have hline : tableLine? s f.1 f.2 = tableLine? s g.1 g.2.toList := by
        rw [hfirst.1]
        exact tableLine?_perm hfirst.2 (h.rows g.1 g.2 (hmem g List.mem_cons_self))
      rw [List.filterMap_cons, List.filterMap_cons, hline, ih fun f hf =>
        hmem f (List.mem_cons_of_mem g hf)]
  rw [hlines, Listing.functionLines, listing, List.filterMap_map]
  exact hperm.filterMap _

/-- In whatever order the tables of an unambiguous model are gone through, the document
is the same. -/
theorem Unambiguous.doc_eq (h : m.Unambiguous s) (hL : L.Of m) : L.doc m s = m.doc s := by
  have hvalues := hL.valueLines s
  have hdefinitions := hL.definitionLines s
  have hfunctions := h.functionLines hL
  have hconstants : byKey (L.valueLines s ++ L.definitionLines m s) =
      byKey (m.listing.valueLines s ++ m.listing.definitionLines m s) := by
    refine (byKey_eq_iff ((hvalues.append hdefinitions).map _)).mpr fun k => ?_
    rw [List.filter_append, List.filter_append, h.values.filter_eq hvalues,
      h.definitions.filter_eq hdefinitions]
  rw [← doc_listing, Listing.doc, Listing.doc, hconstants,
    (byKey_eq_iff (hfunctions.map _)).mpr (h.functions.filter_eq hfunctions)]

/-- A model is unambiguous when no name is shared and no two rows of a function read the same. -/
theorem unambiguous_of_injective
    (hnames : ∀ t u name, s.termNames.nameOf? t = some name → s.termNames.nameOf? u = some name →
      t = u)
    (hrows : ∀ f table, m.functions[f]? = some table → ∀ r ∈ table.toList, ∀ r' ∈ table.toList,
      (row s f r.1 r.2).1 = (row s f r'.1 r'.2).1 → r = r') : m.Unambiguous s := by
  refine ⟨?_, ?_, fun f table htable _ => ?_, ?_⟩
  · rintro x hx y hy hkey
    obtain ⟨⟨t, v⟩, ht, hx⟩ := List.mem_filterMap.mp hx
    obtain ⟨⟨u, w⟩, hu, hy⟩ := List.mem_filterMap.mp hy
    obtain ⟨name, hname, rfl⟩ := Option.map_eq_some_iff.mp hx
    obtain ⟨name', hname', rfl⟩ := Option.map_eq_some_iff.mp hy
    obtain rfl := hnames t u name hname (hname'.trans (congrArg some hkey.symm))
    have hv := Std.HashMap.mem_toList_iff_getElem?_eq_some.mp ht
    rw [Std.HashMap.mem_toList_iff_getElem?_eq_some.mp hu] at hv
    rw [Option.some.inj hv, Option.some.inj (hname.symm.trans hname')]
  · rintro x hx y hy hkey
    obtain ⟨t, -, hx⟩ := List.mem_filterMap.mp hx
    obtain ⟨u, -, hy⟩ := List.mem_filterMap.mp hy
    have hname {t : Term} {x : String × Doc} (hx : m.definitionLine? s t = some x) :
        s.termNames.nameOf? t = some x.1 := by
      unfold definitionLine? at hx
      split at hx
      · cases hx
      · split at hx
        · obtain ⟨name, hname, rfl⟩ := Option.map_eq_some_iff.mp hx
          exact hname
        · cases hx
    obtain rfl := hnames t u x.1 (hname hx) (hkey ▸ hname hy)
    exact Option.some.inj (hx.symm.trans hy)
  · rintro x hx y hy hkey
    obtain ⟨r, hr, rfl⟩ := List.mem_map.mp hx
    obtain ⟨r', hr', rfl⟩ := List.mem_map.mp hy
    rw [hrows f table htable r hr r' hr' hkey]
  · rintro x hx y hy hkey
    obtain ⟨⟨f, rows⟩, hf, hx⟩ := List.mem_filterMap.mp hx
    obtain ⟨⟨g, rows'⟩, hg, hy⟩ := List.mem_filterMap.mp hy
    obtain ⟨name, hname, rfl⟩ := Option.map_eq_some_iff.mp hx
    obtain ⟨name', hname', rfl⟩ := Option.map_eq_some_iff.mp hy
    obtain rfl := hnames f g name hname (hname'.trans (congrArg some hkey.symm))
    obtain ⟨⟨f', table⟩, htable, heq⟩ := List.mem_map.mp hf
    obtain ⟨⟨g', table'⟩, htable', heq'⟩ := List.mem_map.mp hg
    obtain ⟨rfl, rfl⟩ := Prod.mk.inj heq
    obtain ⟨rfl, rfl⟩ := Prod.mk.inj heq'
    have htables := Std.HashMap.mem_toList_iff_getElem?_eq_some.mp htable
    rw [Std.HashMap.mem_toList_iff_getElem?_eq_some.mp htable'] at htables
    rw [Option.some.inj htables, Option.some.inj (hname.symm.trans hname')]

/-! ## Ambiguous models -/

/-- Elements whose lines do not change places in any permutation have determinate lines. -/
theorem determinate_of_perm {α : Type} [DecidableEq α] {line : α → Option (String × Doc)}
    {xs : List α}
    (h : ∀ ys : List α, ys.Perm xs →
      ∀ k, ((ys.filterMap line).filter fun x => x.1 == k) = (xs.filterMap line).filter fun x =>
      x.1 == k) :
    Determinate (xs.filterMap line) := by
  intro x hx y hy hkey
  obtain ⟨a, ha, hax⟩ := List.mem_filterMap.mp hx
  obtain ⟨b, hb, hby⟩ := List.mem_filterMap.mp hy
  by_cases hab : a = b
  · rw [hab, hby] at hax
    exact (Option.some.inj hax).symm
  · have hperm : xs.Perm (a :: b :: (xs.erase a).erase b) :=
      (List.perm_cons_erase ha).trans
        ((List.perm_cons_erase ((List.mem_erase_of_ne (Ne.symm hab)).mpr hb)).cons a)
    have hfirst := h _ hperm.symm x.1
    have hsecond := h _ ((List.Perm.swap a b _).trans hperm.symm) x.1
    rw [← hsecond, List.filterMap_cons_some hax, List.filterMap_cons_some hby,
      List.filterMap_cons_some hby,
      List.filterMap_cons_some hax] at hfirst
    simp only [List.filter_cons, hkey, beq_self_eq_true, if_true] at hfirst
    exact (List.cons.inj hfirst).1

/-- Documents of two listings are the same only if their lines agree on every single key. -/
theorem Listing.Of.agree (hL : L.Of m) (hdoc : L.doc m s = m.doc s) (k : String) :
    ((L.valueLines s ++ L.definitionLines m s).filter fun x => x.1 == k) =
        ((m.listing.valueLines s ++ m.listing.definitionLines m s).filter fun x => x.1 == k) ∧
      ((L.functionLines s).filter fun x => x.1 == k) = (m.listing.functionLines s).filter fun x =>
        x.1 == k := by
  have hconstants := ((hL.valueLines s).append (hL.definitionLines s)).map (·.1)
  have hfunctions := hL.keys_functionLines s
  have hlength {ls ls' : List (String × Doc)} (h : (ls.map (·.1)).Perm (ls'.map (·.1))) :
      (byKey ls).length = (byKey ls').length := by
    simpa [byKey_eq] using h.length_eq
  rw [← doc_listing] at hdoc
  have hlines := lines_inj (by rw [List.length_append, List.length_append, hlength hconstants,
    hlength hfunctions]) hdoc
  obtain ⟨hleft, hright⟩ := List.append_inj hlines (hlength hconstants)
  exact ⟨(byKey_eq_iff hconstants).mp hleft k, (byKey_eq_iff hfunctions).mp hright k⟩

/-- The functions of a listing may be listed in any order. -/
theorem Listing.Of.permute (hL : L.Of m) {fs : List (Term × List (List Value × Value))}
    (hperm : fs.Perm L.functions) :
    Listing.Of { L with functions := fs } m := by
  obtain ⟨tables, htables, hall⟩ := hL.functions
  obtain ⟨tables', hall', hperm'⟩ := List.perm_comp_forall₂ hperm hall
  exact ⟨hL.values, hL.definitions, tables', hperm'.trans htables, hall'⟩

/-- The rows of the first function may be listed in any order. -/
theorem Listing.Of.permuteRows {f : Term} {rows rows' : List (List Value × Value)}
    {fs : List (Term × List (List Value × Value))}
    (hL : Listing.Of { L with functions := (f, rows) :: fs } m)
    (hperm : rows'.Perm rows) : Listing.Of { L with functions := (f, rows') :: fs } m := by
  obtain ⟨tables, htables, hall⟩ := hL.functions
  cases hall with
  | cons hfirst hrest =>
    exact ⟨hL.values, hL.definitions, _, htables, .cons ⟨hfirst.1, hperm.trans hfirst.2⟩ hrest⟩

theorem functionLines_cons {f : Term} {name : String} (hname : s.termNames.nameOf? f = some name)
    (rows : List (List Value × Value)) (fs : List (Term × List (List Value × Value))) :
    Listing.functionLines { L with functions := (f, rows) :: fs } s =
      (name, sexp (op "function") (s.termDoc f :: byKey (rowLines s f rows)) 0) ::
        Listing.functionLines { L with functions := fs } s :=
  List.filterMap_cons_some (by rw [tableLine?, hname, Option.map_some])

/-- If the document is the same in whatever order the tables are gone through, the model is
unambiguous. -/
theorem unambiguous_of_doc_eq (h : ∀ L : Listing, L.Of m → L.doc m s = m.doc s) :
    m.Unambiguous s := by
  have hown := of_listing m
  refine ⟨?_, ?_, fun f table htable hname => ?_, ?_⟩
  · refine determinate_of_perm fun vs hvs k => ?_
    have hL : Listing.Of { m.listing with values := vs } m :=
      ⟨hvs, hown.definitions, hown.functions⟩
    have hagree := (hL.agree (h _ hL) k).1
    rw [List.filter_append, List.filter_append] at hagree
    exact List.append_cancel_right hagree
  · refine determinate_of_perm fun ds hds k => ?_
    have hL : Listing.Of { m.listing with definitions := ds } m :=
      ⟨hown.values, hds, hown.functions⟩
    have hagree := (hL.agree (h _ hL) k).1
    rw [List.filter_append, List.filter_append] at hagree
    exact List.append_cancel_left hagree
  · have hmem : (f, table.toList) ∈ m.listing.functions :=
      List.mem_map.mpr ⟨(f, table), Std.HashMap.mem_toList_iff_getElem?_eq_some.mpr htable, rfl⟩
    have hfirst := hown.permute (List.perm_cons_erase hmem).symm
    obtain ⟨name, hname⟩ := Option.isSome_iff_exists.mp hname
    have hrows : Determinate (table.toList.filterMap fun r => some (row s f r.1 r.2)) := by
      refine determinate_of_perm fun rows hperm k => ?_
      rw [List.filterMap_eq_map']
      have hsecond := hfirst.permuteRows hperm
      -- the lines of `f` come first in both listings
      have hagree := ((hsecond.agree (h _ hsecond) name).2).trans
        ((hfirst.agree (h _ hfirst) name).2).symm
      rw [functionLines_cons hname, functionLines_cons hname] at hagree
      simp only [List.filter_cons, beq_self_eq_true, if_true] at hagree
      have hlines : (rowLines s f rows).Perm (rowLines s f table.toList) := hperm.map _
      have hlength : (byKey (rowLines s f rows)).length =
          (byKey (rowLines s f table.toList)).length := by
        simpa [byKey_eq] using hlines.length_eq
      have hdocs := sexp_inj (congrArg (· + 1) hlength) (Prod.mk.inj (List.cons.inj hagree).1).2
      exact (byKey_eq_iff (hlines.map _)).mp (List.cons.inj hdocs).2 k
    rwa [List.filterMap_eq_map'] at hrows
  · refine determinate_of_perm fun fs hfs k => ?_
    have hL := hown.permute hfs
    exact (hL.agree (h _ hL) k).2

/-- The document of a model is the same in whatever order its tables are gone through if and only
if, within every table, lines with the same key are the same. Then models with the same tables have
the same text at every width. -/
theorem doc_orders_iff (m : Model) (s : Store) :
    ((∀ L : Listing, L.Of m → L.doc m s = m.doc s) ↔ m.Unambiguous s) ∧
      (m.Unambiguous s → ∀ m' : Model, m.Same m' → ∀ width, m'.text s width = m.text s width) := by
  refine ⟨⟨unambiguous_of_doc_eq, fun h L hL => h.doc_eq hL⟩, fun h m' hsame width => ?_⟩
  have heval : m'.listing.definitionLines m' s = m'.listing.definitionLines m s := by
    unfold Listing.definitionLines
    congr 1
    funext x
    exact (hsame.definitionLine? s x).symm
  have hdoc : m'.doc s = m.doc s := by
    rw [← doc_listing, ← h.doc_eq hsame.listing_of, Listing.doc, Listing.doc, heval]
  rw [text, text, hdoc]

/-! ## Terms that share a name -/

theorem termDoc_of_named {t : Term} {ty : Ty} {serial : Nat} {name : String}
    (hvalid : s.isValid t = true)
    (hpos : t.isNegated = false) (hshape : s.shape t = .uninterpreted ty serial)
    (hname : s.termNames.nameOf? t = some name) : s.termDoc t = styled .ident name := by
  have hbot : t ≠ .bot := by
    rintro rfl
    cases hpos
  unfold Store.termDoc Store.termDocAt
  simp [hvalid, hbot, hpos, hshape, Store.atomDoc, hname]

/-- Two formulas. -/
def formulas : Store := endState (Store.newConst .bool (endState (Store.newConst .bool .empty)))

/-- Two formulas of one name. -/
def namesakes : Store :=
  { formulas with termNames := (Names.empty.give "n" (.ofIndex 2)).give "n" (.ofIndex 3) }

theorem nameOf?_namesakes {t : Term} (ht : t = .ofIndex 2 ∨ t = .ofIndex 3) :
    namesakes.termNames.nameOf? t = some "n" := by
  show ((Names.empty.give "n" (.ofIndex 2)).give "n" (.ofIndex 3)).nameOf? t = some "n"
  rw [Names.nameOf?_give, Names.nameOf?_give, Names.nameOf?_empty]
  rcases ht with rfl | rfl <;> rfl

theorem termDoc_namesakes {t : Term} (ht : t = .ofIndex 2 ∨ t = .ofIndex 3) :
    namesakes.termDoc t = styled .ident "n" := by
  have hshape : ∃ serial, formulas.shape t = .uninterpreted .bool serial := by
    rcases ht with rfl | rfl
    · exact ⟨0, by cbv⟩
    · exact ⟨1, by cbv⟩
  obtain ⟨serial, hshape⟩ := hshape
  refine termDoc_of_named ?_ ?_ hshape (nameOf?_namesakes ht)
  · rcases ht with rfl | rfl
    · show formulas.isValid _ = true
      cbv
    · show formulas.isValid _ = true
      cbv
  · rcases ht with rfl | rfl <;> rfl

/-- The line of a formula with the name they share. -/
def namesakeLine (b : Bool) : String × Doc :=
  ("n", sexp (op "=") [styled .ident "n", Value.doc .empty (.bool b)] 0)

theorem line?_namesakes {t : Term} (ht : t = .ofIndex 2 ∨ t = .ofIndex 3) (b : Bool) :
    line? namesakes t (.bool b) = some (namesakeLine b) := by
  rw [line?, nameOf?_namesakes ht, termDoc_namesakes ht]
  rfl

/-- One formula is true and the other is false. -/
def opposed : Model :=
  (empty.setValue (.ofIndex 2) (.bool true)).setValue (.ofIndex 3) (.bool false)

/-- A listing of the two values. -/
def opposedAs (x y : Term × Value) : Listing := ⟨[x, y], [], []⟩

theorem doc_opposedAs {t u : Term} (ht : t = .ofIndex 2 ∨ t = .ofIndex 3)
    (hu : u = .ofIndex 2 ∨ u = .ofIndex 3)
    (b c : Bool) : (opposedAs (t, .bool b) (u, .bool c)).doc opposed namesakes =
      lines [(namesakeLine b).2, (namesakeLine c).2] := by
  have hlines : (opposedAs (t, .bool b) (u, .bool c)).valueLines namesakes =
      [namesakeLine b, namesakeLine c] := by
    simp [Listing.valueLines, opposedAs, line?_namesakes ht b, line?_namesakes hu c]
  have hsorted : byKey [namesakeLine b, namesakeLine c] = [(namesakeLine b).2,
      (namesakeLine c).2] := by
    rw [byKey_eq, List.mergeSort_of_pairwise (by simp [keyLe, namesakeLine])]
    rfl
  have hnone : byKey [] = [] := by rw [byKey_eq, List.mergeSort_nil, List.map_nil]
  rw [Listing.doc, hlines]
  show lines (byKey [namesakeLine b, namesakeLine c] ++ byKey []) = _
  rw [hsorted, hnone, List.append_nil]

theorem opposedAs_of {x y : Term × Value}
    (h : [x, y].Perm [(.ofIndex 2, .bool true), (.ofIndex 3, .bool false)]) :
    (opposedAs x y).Of opposed := by
  have hvalues : [(Term.ofIndex 2, Value.bool true), (.ofIndex 3, .bool false)].Perm
      opposed.values.toList := by
    refine (List.perm_ext_iff_of_nodup (by decide) ?_).mpr fun ⟨t, v⟩ => ?_
    · exact Std.HashMap.distinct_keys_toList.imp fun hne heq =>
        beq_eq_false_iff_ne.mp hne (congrArg Prod.fst heq)
    · rw [Std.HashMap.mem_toList_iff_getElem?_eq_some, opposed, setValue, setValue, empty,
        Std.HashMap.getElem?_insert,
        Std.HashMap.getElem?_insert]
      by_cases h₂ : t = .ofIndex 2
      · subst h₂
        show _ ↔ some (Value.bool true) = some v
        simpa [Term.ofIndex] using eq_comm
      · by_cases h₃ : t = .ofIndex 3
        · subst h₃
          show _ ↔ some (Value.bool false) = some v
          simpa [Term.ofIndex] using eq_comm
        · simp [h₂, h₃, Ne.symm h₂, Ne.symm h₃]
  refine ⟨h.trans hvalues, ?_, [], ?_, .nil⟩
  · show [].Perm (∅ : Subst).keys
    simp
  · show [].Perm (∅ : Std.HashMap Term FunctionTable).toList
    simp

/-- Two formulas of one name and different values: what is printed depends on which of them
comes first. -/
theorem doc_orders_iff_namesakes :
    ∃ L L' : Listing, L.Of opposed ∧ L'.Of opposed ∧ ¬opposed.Unambiguous namesakes ∧
      (L.doc opposed namesakes).render 80 = "(= n true)\n(= n false)" ∧
      (L'.doc opposed namesakes).render 80 = "(= n false)\n(= n true)" := by
  have hL := opposedAs_of (.refl _)
  have hL' := opposedAs_of (.swap _ _ [])
  have htext := doc_opposedAs (.inl rfl) (.inr rfl) true false
  have htext' := doc_opposedAs (.inr rfl) (.inl rfl) false true
  refine ⟨_, _, hL, hL', fun hunambiguous => ?_, ?_, ?_⟩
  · have hsame := (doc_orders_iff opposed namesakes).1.mpr hunambiguous
    have hdocs := (hsame _ hL).trans (hsame _ hL').symm
    rw [htext, htext'] at hdocs
    have htexts := congrArg (Doc.render 80) hdocs
    revert htexts
    decide +kernel
  · rw [htext]
    decide +kernel
  · rw [htext']
    decide +kernel

end Model
end Entail
