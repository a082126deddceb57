import FormulaGraph.Proofs.Assignment
import FormulaGraph.Proofs.Bake.Freeze
import FormulaGraph.Proofs.Census
import FormulaGraph.Proofs.Defaults
import FormulaGraph.Proofs.Failure
import FormulaGraph.Proofs.Forest
import FormulaGraph.Proofs.Leftovers
import FormulaGraph.Proofs.Recompile
import FormulaGraph.Proofs.Refusal
import FormulaGraph.Proofs.Rejection
import FormulaGraph.Proofs.Semantics.Agreement
import FormulaGraph.Proofs.Session.Equivalence
import FormulaGraph.Proofs.Session.NodeCount
import FormulaGraph.Proofs.Settings.RoundTrip
import FormulaGraph.Proofs.Sharing
import FormulaGraph.Proofs.Synchrony
import FormulaGraph.Proofs.TextFaults
import FormulaGraph.Proofs.Formula.Rendering
