import FormulaGraph.Compile

/-!
A session keeps the text and options of one formula in step with a tree. The
text is also written into a frame of the tree. An edit that changes nothing
since the last success is skipped. Baking gives a copy of the tree that later
passes leave alone.
-/

namespace FormulaGraph

/-- What the latest pass of a session came to. -/
structure Outcome where
  plain : String := ""
  term : String := ""
  nodeCount : Nat := 0
  error : Option String := none
deriving DecidableEq

/-- What stands in an outcome whose stage failed. -/
def Outcome.failed : String := "Failed"

structure Session where
  text : String := ""
  options : Options := {}
  /-- The text and options of the last success. -/
  settled : Option (String × Options) := none
  outcome : Outcome := {}
deriving DecidableEq

def Tree.textFrameName : String := "EquationStorage"

/-- Write a text into the text frame, making the frame if there is none. -/
def Tree.writeText (t : Tree) (text : String) : Tree :=
  let (t, id) := match t.nodeNamed? textFrameName with
    | some n => (t, n.id)
    | none => t.addNode .frame { name := some textFrameName, position := ⟨-1000, 0⟩ }
  t.modifyNode id fun n => { n with label := text, width := 750 }

namespace Session

structure Bound where
  session : Session
  tree : Tree

abbrev Step := ExceptT Fault (StateM Bound)

def modifyOutcome (f : Outcome → Outcome) : Step Unit :=
  modify fun b => { b with session.outcome := f b.session.outcome }

def modifyTree (f : Tree → Tree) : Step Unit := modify fun b => { b with tree := f b.tree }

def edit {α : Type} (e : Edit Fault α) : Step α := fun b =>
  let (result, t) := e b.tree
  (result, { b with tree := t })

/-- Go on with a result, or note in the outcome where it failed. -/
def noting {α : Type} (note : Outcome → Outcome) : Except Fault α → Step α
  | .ok a => return a
  | .error fault => do
    modifyOutcome note
    throw fault

/-- One pass over the tree. Blank text clears the inputs and what feeds the
output. -/
def run : Step (Option Report) := do
  let ⟨text, options, _, _⟩ := (← get).session
  modifyOutcome fun _ => {}
  modifyTree (·.writeText text)
  if Text.allBlank text then
    modifyTree fun t => (t.keepInputs []).releaseOutput options.outputName
    return none
  let failed := Outcome.failed
  let plain ← noting (fun a => { a with plain := failed, term := failed })
    (Plain.ofRaw ⟨options.algebraic, options.dialect⟩ text)
  modifyOutcome fun a => { a with plain := plain.text }
  let term ← noting (fun a => { a with term := failed }) (Term.ofText options.dialect plain.text)
  modifyOutcome fun a => { a with term := term.text }
  let report ← edit (Tree.realize plain.unknowns term options)
  modifyOutcome fun a => { a with nodeCount := report.nodeCount }
  return some report

def isCurrent (s : Session) : Bool :=
  s.settled.any fun last => last.1 == s.text && last.2.agrees s.options

/-- Run a pass unless nothing changed since the last success. -/
def update : Step (Option Report) := do
  if (← get).session.isCurrent then return none
  try
    let report ← run
    modify fun b => { b with session.settled := some (b.session.text, b.session.options) }
    return report
  catch fault =>
    modify fun b => { b with session.settled := none }
    modifyOutcome fun a => { a with error := some fault.message }
    throw fault

def renew : Step (Option Report) := do
  modify fun b => { b with session.settled := none }
  update

/-- Replace the text. Typed names of symbols are replaced as it is set. -/
def changeText (text : String) : Step (Option Report) := do
  modify fun b =>
    let text := if b.session.options.expandNames then (Symbol.expandNames? text).getD text else text
    { b with session.text := text }
  update

def changeComponents (x y z : String) : Step (Option Report) :=
  changeText ("[" ++ x ++ "," ++ y ++ "," ++ z ++ "]")

def changeOptions (options : Options) : Step (Option Report) := do
  modify fun b => { b with session.options := options }
  update

end Session

/-- A generated node under a plain name: frames take their label, other nodes
what their tag says. -/
def Node.untagged (n : Node) : Node :=
  if Tag.isTag n.name then
    n.rename (if n.type = .frame then n.label else Tag.strip n.name)
  else n

def Tree.bake (t : Tree) : Tree :=
  let t := match t.nodeNamed? textFrameName with
    | some n => t.removeNode n.id
    | none => t
  { t with nodes := t.nodes.map Node.untagged }

end FormulaGraph
