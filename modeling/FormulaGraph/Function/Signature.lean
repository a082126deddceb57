import FormulaGraph.Function.Basic

/-!
Parameter lists and the check of an argument count against them.
-/

namespace FormulaGraph

structure Signature where
  params : List String
  /-- How many leading parameters must be given. -/
  required : Nat
  /-- Whether any number of arguments from `required` on is accepted. -/
  variadic : Bool := false
deriving DecidableEq

inductive ArityFault where
  | tooFew
  | extra (params : List String) (received : Nat)
  | missing (params : List String) (required received : Nat)
deriving DecidableEq, Repr

def ArityFault.message (name : String) : ArityFault → String
  | tooFew => s!"Function {name}() needs two Params or more."
  | extra params received =>
    let list := ", ".intercalate params
    s!"Function {name}({list}) received extra Param(s). " ++
      s!"Expected {params.length}. Received {received}."
  | missing params required received =>
    let list := ", ".intercalate params
    s!"Function {name}({list}) needs more Param(s). " ++
      s!"Expected {required}. Received {received}."

namespace Signature

def fixed (params : List String) : Signature := { params, required := params.length }

/-- An excess of arguments is noticed before a lack of them. -/
def fault? (s : Signature) (received : Nat) : Option ArityFault :=
  if s.variadic then if received < s.required then some .tooFew else none
  else if s.params.length < received then some (.extra s.params received)
  else if received < s.required then some (.missing s.params s.required received)
  else none

end Signature

namespace Function

def signature : Function → Signature
  | add | sub | mult | div | mod | floormod | floordiv => .fixed ["a", "b"]
  | pow | log | nroot => .fixed ["a", "n"]
  | sqrt | invsqrt | abs | neg | round | floor | ceil | trunc | frac
  | sin | cos | tan | asin | acos | atan | sinh | cosh | tanh | rad | deg => .fixed ["a"]
  | wrap => .fixed ["v", "a", "b"]
  | snap => .fixed ["v", "i"]
  | pingpong => .fixed ["v", "scale"]
  | min | max => { params := ["a", "b"], required := 2, variadic := true }
  | smin | smax => .fixed ["a", "b", "dist"]
  | lerp | mix => .fixed ["f", "a", "b"]
  | clamp => { params := ["v", "a", "b"], required := 1 }
  | clampauto => .fixed ["v", "a", "b"]
  | mapl | mapsmo | mapsmoo => .fixed ["v", "a", "b", "x", "y"]
  | mapst => .fixed ["v", "a", "b", "x", "y", "step"]
  | combixyz => .fixed ["x", "y", "z"]
  | rotaxis => { params := ["v", "x", "f", "c"], required := 3 }

/-- The name of the parameter at a position; further ones share the last. -/
def paramName (f : Function) (position : Nat) : String :=
  let params := f.signature.params
  params.getD (Nat.min position (params.length - 1)) ""

end Function

end FormulaGraph
