import FormulaGraph.Formula.Reader

/-!
Terms: formulas in which every operator is a call of a known function with a
fitting number of arguments.
-/

namespace FormulaGraph

open Numeric

inductive Term where
  | call (f : Function) (args : List Term)
  | name (name : String)
  | constant (value : Double)

namespace Term

mutual

def text : Term → String
  | call f args => f.name ++ "(" ++ textAll args ++ ")"
  | name n => n
  | constant x => x.text

def textAll : List Term → String
  | [] => ""
  | [x] => x.text
  | x :: xs => x.text ++ ", " ++ textAll xs

end

mutual

def callCount : Term → Nat
  | call _ args => callCountAll args + 1
  | name _ | constant _ => 0

def callCountAll : List Term → Nat
  | [] => 0
  | x :: xs => x.callCount + callCountAll xs

end

mutual

/-- The functions called, a call before its arguments. -/
def calls : Term → List Function
  | call f args => f :: callsAll args
  | name _ | constant _ => []

def callsAll : List Term → List Function
  | [] => []
  | x :: xs => x.calls ++ callsAll xs

end

mutual

/-- The names that occur, from the left. -/
def occurrences : Term → List String
  | call _ args => occurrencesAll args
  | name n => [n]
  | constant _ => []

def occurrencesAll : List Term → List String
  | [] => []
  | x :: xs => x.occurrences ++ occurrencesAll xs

end

/-- The names that occur, each once, in the order of first use. -/
def names (t : Term) : List String :=
  t.occurrences.foldl (fun seen n => if seen.contains n then seen else seen ++ [n]) []

def checkArity (f : Function) (calledAs : String) (received : Nat) : Except Fault Unit :=
  match f.signature.fault? received with
  | some fault => .error (.arguments calledAs fault)
  | none => .ok ()

mutual

/-- A call is checked before its arguments. -/
def ofSurface (dialect : Dialect) : Surface → Except Fault Term
  | .numeral text =>
    match Double.ofText? text with
    | some x => .ok (constant x)
    | none => .error (.badNumeral text)
  | .name n => .ok (name n)
  | .plus x => ofSurface dialect x
  | .negate x => do return call .neg [← ofSurface dialect x]
  | .binary op l r => do
    let l ← ofSurface dialect l
    let r ← ofSurface dialect r
    return call op.function [l, r]
  | .call n args =>
    match Function.inDialect? n dialect with
    | none => .error (.unknownFunction n)
    | some f => do
      checkArity f n args.length
      return call f (← ofSurfaces dialect args)
  | .tuple _ => .error .strayTuple
  | .list items =>
    if !dialect.hasVectors then .error (.forbiddenSymbol '[')
    else if items.length ≠ 3 then .error .vectorLength
    else do return call .combixyz (← ofSurfaces dialect items)

def ofSurfaces (dialect : Dialect) : List Surface → Except Fault (List Term)
  | [] => .ok []
  | x :: xs => do
    let x ← ofSurface dialect x
    let xs ← ofSurfaces dialect xs
    return x :: xs

end

def ofText (dialect : Dialect) (text : String) : Except Fault Term := do
  ofSurface dialect (← Surface.ofText text)

end Term

end FormulaGraph
