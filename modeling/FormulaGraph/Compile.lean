import FormulaGraph.Formula.Plain
import FormulaGraph.Formula.Term
import FormulaGraph.Options
import FormulaGraph.Pass.Operation

/-!
Compiling a formula into a tree. Typed text is made plain, read as a term, and
the term is built from its arguments up; then its value is routed to the output
and the generated nodes that are no longer used are removed. That removal comes
last, so a pass that fails removes no node.
-/

namespace FormulaGraph

open Numeric

/-- What a successful pass did. -/
structure Report where
  /-- Generated nodes in the tree afterwards. -/
  nodeCount : Nat
  created : Nat
  removed : Nat
  resultKind : Kind
deriving DecidableEq

namespace Tree

def generatedCount (t : Tree) : Nat := t.nodes.countP fun n => Tag.isTag n.name

end Tree

namespace Pass

/-- The value of a term: a number that no node holds yet, or an operand. -/
inductive TermValue where
  | number (x : Double)
  | operand (o : Operand)

namespace TermValue

def number? : TermValue → Option Double
  | number x => some x
  | operand _ => none

/-- The value as an operand, a number as a literal. -/
def toOperand : TermValue → Operand
  | number x => .scalar x.toSingle
  | operand o => o

end TermValue

/-- The value of a term as an argument: a number becomes a node if so wanted,
else a literal. -/
def materialize (constantNodes : Bool) : TermValue → PassM Operand
  | .number x =>
    if constantNodes then return .handle (← constant x) else return .scalar x.toSingle
  | .operand o => return o

def materializeAll (constantNodes : Bool) : List TermValue → PassM (List Operand)
  | [] => return []
  | v :: rest => do
    let operand ← materialize constantNodes v
    let operands ← materializeAll constantNodes rest
    return operand :: operands

def foldedTerm? (f : Function) (values : List TermValue) : Option Double :=
  if f.folds then (values.mapM TermValue.number?).bind f.fold? else none

/-- The inputs of a pass by variable; a later one hides an earlier one. -/
abbrev Inputs := List (String × Handle)

mutual

/-- The value of a term. All arguments are evaluated before any of them
becomes a node. -/
def evaluate (constantNodes : Bool) (inputs : Inputs) : Term → PassM TermValue
  | .constant x => return .number x
  | .name n =>
    match inputs.lookup n with
    | some handle => return .operand (.handle handle)
    | none => throw (.unknownVariable n)
  | .call f args => do
    let values ← evaluateAll constantNodes inputs args
    match foldedTerm? f values with
    | some x => return .number x
    | none =>
      let operands ← materializeAll constantNodes values
      return .operand (← call f operands)

def evaluateAll (constantNodes : Bool) (inputs : Inputs) : List Term → PassM (List TermValue)
  | [] => return []
  | t :: rest => do
    let value ← evaluate constantNodes inputs t
    let values ← evaluateAll constantNodes inputs rest
    return value :: values

end

/-- Inputs for the variables of a formula, of the kinds that options give. -/
def declareInputs (options : Options) (known : Inputs) : List String → PassM Inputs
  | [] => return known
  | name :: rest => do
    let handle ← input name (options.kindOf name) none
    declareInputs options ((name, handle) :: known) rest

/-- The kind of output for a value: vectors, rotations and matrices keep
theirs, single numbers take that of the dialect. -/
def outputKindFor (dialect : Dialect) : Kind → Kind
  | .vector => .vector
  | .rotation => .rotation
  | .matrix => .matrix
  | _ => dialect.outputKind

/-- Build a term whose variables are the inputs of the tree. -/
def synthesis (unknowns : List String) (term : Term) (options : Options) : PassM Report := do
  let inputs ← declareInputs options [] unknowns
  modifyTree (·.keepInputs unknowns)
  let value := (← evaluate options.constantNodes inputs term).toOperand
  let target ← output options.outputName (outputKindFor options.dialect value.kind)
  assign target value
  settleOutput
  let created := (← get).created
  let removed ← dropStale
  return ⟨(← getTree).generatedCount, created, removed, value.kind⟩

end Pass

/-- The first function of a term that an editor cannot build. -/
def Term.unavailable? (t : Term) (editor : Editor) : Option Function :=
  t.calls.find? (!·.offeredBy editor)

namespace Tree

/-- Build a term in a tree. Functions that the editor lacks are noticed before
any edit. -/
def realize (unknowns : List String) (term : Term) (options : Options) : Edit Fault Report := do
  let editor := (← get).editor
  match term.unavailable? editor with
  | some f => throw (.unavailableFunction f editor)
  | none => Pass.run (Pass.synthesis unknowns term options)

def compile (text : String) (options : Options) : Edit Fault Report := do
  let text := if options.expandNames then (Symbol.expandNames? text).getD text else text
  let plain ← Plain.ofRaw ⟨options.algebraic, options.dialect⟩ text
  let term ← Term.ofText options.dialect plain.text
  realize plain.unknowns term options

end Tree

end FormulaGraph
