import BurnDragon.Ruliad.Soundness
import BurnDragon.Ruliad.Wire

/-!
# The round trip of problems

`NodeTable` says that a list of nodes represents a list of terms, each node in terms of the nodes before
it. A table is closed under subterms, its nodes refer to earlier nodes, and decoding it gives its terms.
`Interned` adds that the maps of the interner find every symbol and every term, so that no term gets a
second node; `WireInterner.term_interned` is the induction over a term.
-/

namespace BurnDragon.Ruliad

open Equational Rust List

theorem getElem?_of_isPrefix {α : Type*} {xs ys : List α} (h : xs <+: ys) {i : ℕ} {x : α}
    (hx : xs[i]? = some x) : ys[i]? = some x := by
  obtain ⟨zs, rfl⟩ := h
  rw [List.getElem?_append_left (List.getElem?_eq_some_iff.1 hx).1, hx]

/-! ## Tables -/

/-- The node stands for the term when the earlier nodes stand for the given terms. -/
inductive NodeFor (symbols : List String) (earlier : List RuliadTerm) : WireNode → RuliadTerm → Prop
  | var (i : ℕ) : NodeFor symbols earlier (.v i) (.var i)
  | atom {i : ℕ} {name : String} (h : symbols[i]? = some name) :
    NodeFor symbols earlier (.a i) (.atom name)
  | apply {i : ℕ} {operator : String} {indices : List ℕ} {arguments : List RuliadTerm}
    (h : symbols[i]? = some operator)
    (hargs : (indices.map fun j => earlier[j]?) = arguments.map some) :
    NodeFor symbols earlier (.p i indices) (.apply operator arguments)

/-- The nodes stand for the terms, each in terms of the nodes before it. -/
inductive NodeTable (symbols : List String) : List WireNode → List RuliadTerm → Prop
  | nil : NodeTable symbols [] []
  | concat {nodes : List WireNode} {terms : List RuliadTerm} {node : WireNode} {t : RuliadTerm}
    (h : NodeTable symbols nodes terms) (hnode : NodeFor symbols terms node t) :
    NodeTable symbols (nodes ++ [node]) (terms ++ [t])

variable {terms : List RuliadTerm} {node : WireNode} {t : RuliadTerm}

section Tables

variable {symbols symbols' : List String} {nodes : List WireNode} {u : RuliadTerm}

theorem NodeFor.mono (h : NodeFor symbols terms node t) (hsymbols : symbols <+: symbols') :
    NodeFor symbols' terms node t := by
  cases h with
  | var i => exact .var i
  | atom h => exact .atom (getElem?_of_isPrefix hsymbols h)
  | apply h hargs => exact .apply (getElem?_of_isPrefix hsymbols h) hargs

/-- Decoding a node gives the term that it stands for. -/
theorem NodeFor.decode (h : NodeFor symbols terms node t) (nodeIndex : ℕ) :
    decodeNode symbols terms nodeIndex node = .ok t := by
  cases h with
  | var i => rfl
  | atom h =>
    rw [decodeNode, h]
    rfl
  | apply h hargs =>
    have hmap : ∀ (indices : List ℕ) (arguments : List RuliadTerm),
        (indices.map fun j => terms[j]?) = arguments.map some →
        (indices.mapM fun argument => okOr terms[argument]?
          ("wire node " ++ decimal nodeIndex ++ " has non-topological argument " ++
            decimal argument)) = .ok arguments := by
      intro indices
      induction indices with
      | nil =>
        intro arguments hargs
        obtain rfl : arguments = [] := by simpa using hargs.symm
        rfl
      | cons j indices ih =>
        intro arguments hargs
        obtain ⟨t, arguments, rfl, hj, hargs⟩ := map_eq_cons_iff.1 hargs.symm
        have hj : terms[j]? = some t := hj.symm
        rw [mapM_cons, hj, ih arguments hargs.symm]
        rfl
    rw [decodeNode, h, hmap _ _ hargs]
    rfl

namespace NodeTable

section

variable (h : NodeTable symbols nodes terms)
include h

theorem mono (hsymbols : symbols <+: symbols') :
    NodeTable symbols' nodes terms := by
  induction h with
  | nil => exact .nil
  | concat _ hnode ih => exact .concat ih (hnode.mono hsymbols)

theorem length_eq : nodes.length = terms.length := by
  induction h with
  | nil => rfl
  | concat _ _ ih => rw [length_append, length_append, ih]; rfl

/-- Decoding a table gives its terms. -/
theorem decode : decodeNodes symbols [] nodes = .ok terms := by
  have happend : ∀ (xs : List WireNode) (node : WireNode) (acc acc' : List RuliadTerm),
      decodeNodes symbols acc xs = .ok acc' →
      decodeNodes symbols acc (xs ++ [node]) = decodeNodes symbols acc' [node] := by
    intro xs node
    induction xs with
    | nil =>
      intro acc acc' hacc
      obtain rfl := Except.ok.inj hacc
      rfl
    | cons x xs ih =>
      intro acc acc' hacc
      obtain ⟨t, ht, hrest⟩ := bind_eq_ok.1 hacc
      rw [cons_append, decodeNodes, ht]
      exact ih _ _ hrest
  induction h with
  | nil => rfl
  | concat _ hnode ih =>
    rw [happend _ _ _ _ ih, decodeNodes, hnode.decode]
    rfl

/-- A table lists the subterms of its terms. -/
theorem mem_of_subterm (ht : t ∈ terms) (hu : Term.Subterm u t) : u ∈ terms := by
  induction h generalizing t with
  | nil => simp at ht
  | concat _ hnode ih =>
    rename_i nodes terms node new _
    rcases mem_append.1 ht with ht | ht
    · exact mem_append_left _ (ih ht hu)
    · obtain rfl := mem_singleton.1 ht
      cases hnode with
      | var i =>
        obtain rfl := Term.Subterm.var_iff.1 hu
        simp
      | atom =>
        obtain rfl := Term.Subterm.atom_iff.1 hu
        simp
      | apply hoperator hargs =>
        rcases Term.Subterm.apply_iff.1 hu with rfl | ⟨a, ha, hu⟩
        · simp
        · have hmem := mem_map_of_mem (f := some) ha
          rw [← hargs] at hmem
          obtain ⟨j, -, hj⟩ := mem_map.1 hmem
          exact mem_append_left _ (ih (mem_of_getElem? hj) hu)

/-- The arguments of a node come before it. -/
theorem lt_of_mem_arguments {i operator : ℕ} {arguments : List ℕ}
    (hi : nodes[i]? = some (.p operator arguments)) :
    ∀ argument ∈ arguments, argument < i := by
  induction h with
  | nil => simp at hi
  | concat h hnode ih =>
    rename_i nodes terms node t
    by_cases hlt : i < nodes.length
    · rw [getElem?_append_left hlt] at hi
      exact ih hi
    · have hlast := (List.getElem?_eq_some_iff.1 hi).1
      rw [length_append, length_singleton] at hlast
      obtain rfl : i = nodes.length := by omega
      rw [getElem?_concat_length] at hi
      obtain rfl := Option.some.inj hi
      intro argument hargument
      cases hnode with
      | apply hoperator hargs =>
        have hmem : terms[argument]? ∈ arguments.map fun j => terms[j]? :=
          mem_map_of_mem hargument
        rw [hargs] at hmem
        obtain ⟨a, -, ha⟩ := mem_map.1 hmem
        rw [h.length_eq]
        exact (List.getElem?_eq_some_iff.1 ha.symm).1

end

end NodeTable

end Tables

/-! ## Interning -/

/-- The interner holds the terms: its nodes are their table and its maps find every entry. -/
structure Interned (interner : WireInterner) (terms : List RuliadTerm) : Prop where
  indexesSymbols : Map.Indexes interner.symbolIndices interner.symbols
  indexesTerms : Map.Indexes interner.nodeIndices terms
  table : NodeTable interner.symbols interner.nodes terms

/-- The interner has grown by subterms of the roots. -/
structure Grows (roots : List RuliadTerm) (interner : WireInterner) (terms : List RuliadTerm)
    (interner' : WireInterner) (terms' : List RuliadTerm) : Prop where
  symbols_le : interner.symbols <+: interner'.symbols
  terms_le : terms <+: terms'
  new : ∀ t ∈ terms', t ∈ terms ∨ ∃ root ∈ roots, Term.Subterm t root

variable {interner : WireInterner}

namespace Grows

variable {roots roots' : List RuliadTerm} {interner' interner'' : WireInterner}
  {terms' terms'' : List RuliadTerm}

theorem refl : Grows roots interner terms interner terms :=
  ⟨prefix_refl _, prefix_refl _, fun _ => .inl⟩

theorem trans (h : Grows roots interner terms interner' terms')
    (h' : Grows roots' interner' terms' interner'' terms'') :
    Grows (roots ++ roots') interner terms interner'' terms'' := by
  refine ⟨h.symbols_le.trans h'.symbols_le, h.terms_le.trans h'.terms_le, fun t ht => ?_⟩
  rcases h'.new t ht with ht | ⟨root, hroot, hsub⟩
  · rcases h.new t ht with ht | ⟨root, hroot, hsub⟩
    · exact .inl ht
    · exact .inr ⟨root, mem_append_left _ hroot, hsub⟩
  · exact .inr ⟨root, mem_append_right _ hroot, hsub⟩

end Grows

namespace WireInterner

theorem empty_interned : Interned empty [] := ⟨.empty, .empty, .nil⟩

/-- Interning a symbol. -/
theorem symbol_interned (name : String) (h : Interned interner terms) :
    Interned (interner.symbol name).2 terms ∧
      interner.symbols <+: (interner.symbol name).2.symbols ∧
      (interner.symbol name).2.symbols[(interner.symbol name).1]? = some name := by
  unfold symbol
  split
  · rename_i index hindex
    exact ⟨h, prefix_refl _, (h.indexesSymbols name index).1 hindex⟩
  · rename_i hnone
    have hinitial : interner.symbols <+: interner.symbols ++ [name] := prefix_append _ _
    exact ⟨⟨h.indexesSymbols.concat hnone, h.indexesTerms, h.table.mono hinitial⟩, hinitial,
      getElem?_concat_length⟩

/-- Appending the node of a new term. -/
theorem push_interned (h : Interned interner terms) (ht : t ∉ terms)
    (hnode : NodeFor interner.symbols terms node t) :
    Interned (interner.push t node).2 (terms ++ [t]) ∧
      (terms ++ [t])[(interner.push t node).1]? = some t := by
  have hlength := h.table.length_eq
  have hindices := h.indexesTerms.concat (h.indexesTerms.eq_none ht)
  rw [← hlength] at hindices
  refine ⟨⟨h.indexesSymbols, hindices, h.table.concat hnode⟩, ?_⟩
  rw [push, hlength, getElem?_concat_length]

/-- What interning a term does. -/
def InternsTerm (t : RuliadTerm) : Prop :=
  ∀ {interner : WireInterner} {terms : List RuliadTerm}, Interned interner terms →
    ∃ terms', Interned (interner.term t).2 terms' ∧
      Grows [t] interner terms (interner.term t).2 terms' ∧
      terms'[(interner.term t).1]? = some t

theorem terms_interned {ts : List RuliadTerm} (hts : ∀ t ∈ ts, InternsTerm t)
    (h : Interned interner terms) :
    ∃ terms', Interned (interner.terms ts).2 terms' ∧
      Grows ts interner terms (interner.terms ts).2 terms' ∧
      ((interner.terms ts).1.map fun j => terms'[j]?) = ts.map some := by
  induction ts generalizing interner terms with
  | nil => exact ⟨terms, h, .refl, rfl⟩
  | cons t ts ih =>
    obtain ⟨terms₁, hinterned₁, hgrows₁, hindex⟩ := hts t (by simp) h
    obtain ⟨terms₂, hinterned₂, hgrows₂, hindices⟩ := ih (fun t ht => hts t (by simp [ht]))
      hinterned₁
    refine ⟨terms₂, hinterned₂, hgrows₁.trans hgrows₂, ?_⟩
    rw [WireInterner.terms, map_cons, map_cons, hindices,
      getElem?_of_isPrefix hgrows₂.terms_le hindex]

/-- **Interning a term** appends the nodes of its new subterms and finds its index. -/
theorem term_interned (t : RuliadTerm) : InternsTerm t := by
  induction t using Term.ind with
  | var i =>
    intro interner terms h
    rw [term]
    split
    · rename_i index hindex
      exact ⟨terms, h, .refl, (h.indexesTerms _ _).1 hindex⟩
    · rename_i hnone
      obtain ⟨hinterned, hget⟩ := push_interned h (h.indexesTerms.not_mem hnone) (.var i)
      exact ⟨_, hinterned, ⟨prefix_refl _, prefix_append _ _, by simp⟩, hget⟩
  | atom name =>
    intro interner terms h
    rw [term]
    split
    · rename_i index hindex
      exact ⟨terms, h, .refl, (h.indexesTerms _ _).1 hindex⟩
    · rename_i hnone
      obtain ⟨hsymbol, hinitial, hname⟩ := symbol_interned name h
      obtain ⟨hinterned, hget⟩ := push_interned hsymbol (h.indexesTerms.not_mem hnone) (.atom hname)
      exact ⟨_, hinterned, ⟨hinitial, prefix_append _ _, by simp⟩, hget⟩
  | apply operator arguments ih =>
    intro interner terms h
    rw [term]
    split
    · rename_i index hindex
      exact ⟨terms, h, .refl, (h.indexesTerms _ _).1 hindex⟩
    · rename_i hnone
      obtain ⟨hsymbol, hinitial, hname⟩ := symbol_interned operator h
      obtain ⟨terms', harguments, hgrows, hindices⟩ := terms_interned ih hsymbol
      -- the new entries are subterms of the arguments, so the application is not among them
      have hnew : Term.apply operator arguments ∉ terms' := by
        intro hmem
        rcases hgrows.new _ hmem with hmem | ⟨root, hroot, hsub⟩
        · exact h.indexesTerms.not_mem hnone hmem
        · have hle := hsub.size_le
          have hlt := Term.size_lt_of_mem (f := operator) hroot
          omega
      obtain ⟨hinterned, hget⟩ := push_interned harguments hnew
        (.apply (getElem?_of_isPrefix hgrows.symbols_le hname) hindices)
      refine ⟨_, hinterned, ⟨hinitial.trans hgrows.symbols_le,
        hgrows.terms_le.trans (prefix_append _ _), fun t ht => ?_⟩, hget⟩
      rcases mem_append.1 ht with ht | ht
      · rcases hgrows.new t ht with ht | ⟨root, hroot, hsub⟩
        · exact .inl ht
        · exact .inr ⟨.apply operator arguments, by simp, .arg hroot hsub⟩
      · obtain rfl := mem_singleton.1 ht
        exact .inr ⟨.apply operator arguments, by simp, .refl⟩

/-- Interning the two sides of an equation. -/
theorem sides_interned (lhs rhs : RuliadTerm) (h : Interned interner terms) :
    ∃ terms', Interned ((interner.term lhs).2.term rhs).2 terms' ∧
      Grows [lhs, rhs] interner terms ((interner.term lhs).2.term rhs).2 terms' ∧
      terms'[(interner.term lhs).1]? = some lhs ∧
      terms'[((interner.term lhs).2.term rhs).1]? = some rhs := by
  obtain ⟨terms₁, hinterned₁, hgrows₁, hlhs⟩ := term_interned lhs h
  obtain ⟨terms₂, hinterned₂, hgrows₂, hrhs⟩ := term_interned rhs hinterned₁
  exact ⟨terms₂, hinterned₂, hgrows₁.trans hgrows₂, getElem?_of_isPrefix hgrows₂.terms_le hlhs, hrhs⟩

/-- Interning the axioms: with the final table they decode to themselves. -/
theorem axioms_interned (rules : List RuliadRewriteAxiom) (h : Interned interner terms) :
    ∃ terms', Interned (interner.axioms rules).2 terms' ∧
      Grows (rules.flatMap fun rule => [rule.lhs, rule.rhs]) interner terms
        (interner.axioms rules).2 terms' ∧
      (∀ rule ∈ rules, rule.lhs ∈ terms' ∧ rule.rhs ∈ terms') ∧
      ∀ terms'', terms' <+: terms'' →
        (interner.axioms rules).1.mapM (WireAxiom.decode terms'') = .ok rules := by
  induction rules generalizing interner terms with
  | nil => exact ⟨terms, h, .refl, by simp, fun _ _ => rfl⟩
  | cons rule rules ih =>
    obtain ⟨terms₁, hinterned₁, hgrows₁, hlhs, hrhs⟩ := sides_interned rule.lhs rule.rhs h
    obtain ⟨terms₂, hinterned₂, hgrows₂, hmem, hdecode⟩ := ih hinterned₁
    refine ⟨terms₂, hinterned₂, hgrows₁.trans hgrows₂, fun other hother => ?_,
      fun terms'' hinitial => ?_⟩
    · rcases mem_cons.1 hother with rfl | hother
      · exact ⟨mem_of_getElem? (getElem?_of_isPrefix hgrows₂.terms_le hlhs),
          mem_of_getElem? (getElem?_of_isPrefix hgrows₂.terms_le hrhs)⟩
      · exact hmem other hother
    · have hall := hgrows₂.terms_le.trans hinitial
      simp only [axioms, mapM_cons, WireAxiom.decode, wireTerm, getElem?_of_isPrefix hall hlhs,
        getElem?_of_isPrefix hall hrhs]
      rw [hdecode terms'' hinitial]
      rfl

/-- Interning the goals: with the final table they decode to themselves. -/
theorem goals_interned (goals : List RuliadProofGoal) (h : Interned interner terms) :
    ∃ terms', Interned (interner.goals goals).2 terms' ∧
      Grows (goals.flatMap fun goal => [goal.claim.lhs, goal.claim.rhs]) interner terms
        (interner.goals goals).2 terms' ∧
      (∀ goal ∈ goals, goal.claim.lhs ∈ terms' ∧ goal.claim.rhs ∈ terms') ∧
      ∀ terms'', terms' <+: terms'' →
        (interner.goals goals).1.mapM (WireGoal.decode terms'') = .ok goals := by
  induction goals generalizing interner terms with
  | nil => exact ⟨terms, h, .refl, by simp, fun _ _ => rfl⟩
  | cons goal goals ih =>
    obtain ⟨terms₁, hinterned₁, hgrows₁, hlhs, hrhs⟩ :=
      sides_interned goal.claim.lhs goal.claim.rhs h
    obtain ⟨terms₂, hinterned₂, hgrows₂, hmem, hdecode⟩ := ih hinterned₁
    refine ⟨terms₂, hinterned₂, hgrows₁.trans hgrows₂, fun other hother => ?_,
      fun terms'' hinitial => ?_⟩
    · rcases mem_cons.1 hother with rfl | hother
      · exact ⟨mem_of_getElem? (getElem?_of_isPrefix hgrows₂.terms_le hlhs),
          mem_of_getElem? (getElem?_of_isPrefix hgrows₂.terms_le hrhs)⟩
      · exact hmem other hother
    · have hall := hgrows₂.terms_le.trans hinitial
      simp only [WireInterner.goals, mapM_cons, WireGoal.decode, wireTerm,
        getElem?_of_isPrefix hall hlhs, getElem?_of_isPrefix hall hrhs]
      rw [hdecode terms'' hinitial]
      rfl

end WireInterner

/-! ## The round trip -/

/-- The nodes of the wire struct are those of the distinct subterms of the problem. -/
structure WireProblem.Shares (wire : WireProblem) (problem : RuliadProofProblem)
    (terms : List RuliadTerm) : Prop where
  decodes : decodeNodes wire.symbols [] wire.nodes = .ok terms
  length_eq : wire.nodes.length = terms.length
  nodup : terms.Nodup
  mem_iff : ∀ t, t ∈ terms ↔ ∃ root ∈ problem.terms, Term.Subterm t root
  arguments_lt : ∀ (i operator : ℕ) (arguments : List ℕ), wire.nodes[i]? = some (.p operator arguments) →
    ∀ argument ∈ arguments, argument < i

/-- What `from_problem` gives. -/
theorem WireProblem.fromProblem_spec (problem : RuliadProofProblem) :
    ∃ terms, (fromProblem problem).Shares problem terms ∧
      (fromProblem problem).axioms.mapM (WireAxiom.decode terms) = .ok problem.axioms ∧
      (fromProblem problem).goals.mapM (WireGoal.decode terms) = .ok problem.goals := by
  obtain ⟨terms₁, hinterned₁, hgrows₁, hmem₁, haxioms⟩ :=
    WireInterner.axioms_interned problem.axioms WireInterner.empty_interned
  obtain ⟨terms₂, hinterned₂, hgrows₂, hmem₂, hgoals⟩ :=
    WireInterner.goals_interned problem.goals hinterned₁
  refine ⟨terms₂, ⟨hinterned₂.table.decode, hinterned₂.table.length_eq,
    hinterned₂.indexesTerms.nodup, fun t => ⟨fun ht => ?_, ?_⟩,
    fun i operator arguments => hinterned₂.table.lt_of_mem_arguments⟩,
    haxioms terms₂ hgrows₂.terms_le, hgoals terms₂ (prefix_refl _)⟩
  · rcases (hgrows₁.trans hgrows₂).new t ht with ht | hroot
    · simp at ht
    · exact hroot
  · rintro ⟨root, hroot, hsub⟩
    refine hinterned₂.table.mem_of_subterm ?_ hsub
    simp only [RuliadProofProblem.terms, mem_append, mem_flatMap, mem_cons,
      not_mem_nil, or_false] at hroot
    rcases hroot with ⟨rule, hrule, rfl | rfl⟩ | ⟨goal, hgoal, rfl | rfl⟩
    · exact hgrows₂.terms_le.subset (hmem₁ rule hrule).1
    · exact hgrows₂.terms_le.subset (hmem₁ rule hrule).2
    · exact (hmem₂ goal hgoal).1
    · exact (hmem₂ goal hgoal).2

theorem WireProblem.intoProblem_fromProblem (problem : RuliadProofProblem) :
    (fromProblem problem).intoProblem = .ok problem := by
  obtain ⟨terms, hshares, haxioms, hgoals⟩ := fromProblem_spec problem
  rw [intoProblem, hshares.decodes]
  simp only [bind, Except.bind, haxioms, hgoals]
  rfl

/-- **The wire round trip.** Decoding inverts encoding, and the node table holds one node for every
distinct subterm, after the nodes of its arguments. -/
theorem decodeProblem_encodeProblem (json : WireJson) (S : Serde) (problem : RuliadProofProblem)
    (hjson : json.Reproduces (.fromProblem problem)) :
    (∃ payload decoded, encodeProblem json problem = .ok payload ∧
      decodeProblem json payload = .ok decoded ∧ decoded = problem ∧
      decoded.canonicalHash S = problem.canonicalHash S) ∧
    ∃ terms, (WireProblem.fromProblem problem).Shares problem terms := by
  obtain ⟨payload, hto, hfrom⟩ := hjson
  obtain ⟨terms, hshares, -⟩ := WireProblem.fromProblem_spec problem
  refine ⟨⟨payload, problem, ?_, ?_, rfl, rfl⟩, terms, hshares⟩
  · exact mapError_eq_ok.2 hto
  · rw [decodeProblem, hfrom]
    exact WireProblem.intoProblem_fromProblem problem

theorem decodeProblem_encodeProblem_unitProblem :
    (∃ payload decoded, encodeProblem (.ofWire (.fromProblem unitProblem)) unitProblem =
        .ok payload ∧
      decodeProblem (.ofWire (.fromProblem unitProblem)) payload = .ok decoded ∧
      decoded = unitProblem ∧
      decoded.canonicalHash (.ofDigest unitDigest) =
        unitProblem.canonicalHash (.ofDigest unitDigest)) ∧
    ∃ terms, (WireProblem.fromProblem unitProblem).Shares unitProblem terms :=
  decodeProblem_encodeProblem (.ofWire (.fromProblem unitProblem)) (.ofDigest unitDigest) unitProblem
    (WireJson.reproduces_ofWire _)

end BurnDragon.Ruliad
