import StrictnessAnalysis.Draft.Equality
import StrictnessAnalysis.Draft.Evaluation
import StrictnessAnalysis.Main
import StrictnessAnalysis.Proofs.CallSites
import StrictnessAnalysis.Proofs.Iteration
import StrictnessAnalysis.Proofs.Order
import StrictnessAnalysis.Proofs.Evaluation
import StrictnessAnalysis.Proofs.Components
import StrictnessAnalysis.Proofs.Ring
import StrictnessAnalysis.Proofs.Termination
import StrictnessAnalysis.Proofs.Equations
import StrictnessAnalysis.Proofs.Runs
import StrictnessAnalysis.Proofs.Soundness
import StrictnessAnalysis.Proofs.StrictParameters
import StrictnessAnalysis.Proofs.LeastSolution
import StrictnessAnalysis.Proofs.LeastFixedPoint
import StrictnessAnalysis.Proofs.Outcomes
import StrictnessAnalysis.Proofs.DirectEvaluation
import StrictnessAnalysis.Proofs.Parts
import StrictnessAnalysis.Proofs.DirectQueries
import StrictnessAnalysis.Proofs.LiveCalls
import StrictnessAnalysis.Proofs.MutualRecursion
import StrictnessAnalysis.Proofs.Spelling
import StrictnessAnalysis.Proofs.Lookup
import StrictnessAnalysis.Proofs.CallModes
import StrictnessAnalysis.Proofs.DefinitionOrder
import StrictnessAnalysis.Proofs.NestedCalls
import StrictnessAnalysis.Proofs.Documents
import StrictnessAnalysis.Proofs.MoreDefined
import StrictnessAnalysis.Proofs.Demands
import StrictnessAnalysis.Proofs.FaultPlaces
import StrictnessAnalysis.Proofs.Loads
import StrictnessAnalysis.Proofs.Sessions
import StrictnessAnalysis.Proofs.Legibility
import StrictnessAnalysis.Proofs.WrittenForms
