import RegisterColoring.Allocation
import RegisterColoring.Collection.Finite
import RegisterColoring.Collection.Sorted
import RegisterColoring.Graph
import RegisterColoring.Handle
import RegisterColoring.LiveRange.Basic
import RegisterColoring.LiveRange.Table
import RegisterColoring.Problem
import RegisterColoring.Proofs.Allocation
import RegisterColoring.Proofs.Collection
import RegisterColoring.Proofs.Coloring.Pool
import RegisterColoring.Proofs.Coloring.Proper
import RegisterColoring.Proofs.Coloring.Renaming
import RegisterColoring.Proofs.Coloring.Step
import RegisterColoring.Proofs.Dump
import RegisterColoring.Proofs.Graph.Consistency
import RegisterColoring.Proofs.Graph.Fault
import RegisterColoring.Proofs.Graph.History
import RegisterColoring.Proofs.Graph.Strategy
import RegisterColoring.Proofs.LiveRange.Coverage
import RegisterColoring.Proofs.LiveRange.Overlap
import RegisterColoring.Proofs.RegisterClass
import RegisterColoring.Proofs.Round.Alike
import RegisterColoring.Proofs.Round.Failure
import RegisterColoring.Proofs.Round.Load
import RegisterColoring.Proofs.Round.Log
import RegisterColoring.Proofs.Round.Marking
import RegisterColoring.Proofs.Round.Outcome
import RegisterColoring.Proofs.Round.Pool
import RegisterColoring.Proofs.Round.Renaming
import RegisterColoring.Proofs.Round.Reuse
import RegisterColoring.Proofs.Round.Soundness
import RegisterColoring.Proofs.Round.Verdict
import RegisterColoring.Proofs.Uniform
import RegisterColoring.Proofs.UsageTable
import RegisterColoring.Random
import RegisterColoring.RegisterClass
import RegisterColoring.Round.Basic
import RegisterColoring.Round.Run
import RegisterColoring.UsageTable
import RegisterColoring.Weight
