import LinearIR.Execution.Session
import LinearIR.Inlining
import LinearIR.SharedArray.Pool
import LinearIR.SharedArray.Values
import LinearIR.Wire.Instruction
import LinearIR.Wire.Shared
import LinearIR.Proofs.Evaluation
import LinearIR.Proofs.Runs
import LinearIR.Proofs.Folding.Soundness
import LinearIR.Proofs.Folding.Agreement
import LinearIR.Proofs.Folding.Flatness
import LinearIR.Proofs.Folding.Refolding
import LinearIR.Proofs.Folding.Renaming
import LinearIR.Proofs.LabelPositions
import LinearIR.Proofs.Folding.Lockstep
import LinearIR.Proofs.Folding.Removal
import LinearIR.Proofs.Inlining.Fragment
import LinearIR.Proofs.Inlining.FreshNames
import LinearIR.Proofs.Inlining.Hygiene
import LinearIR.Proofs.Inlining.CallSimulation
import LinearIR.Proofs.Inlining.CallEffect
import LinearIR.Proofs.Wire.Primitive
import LinearIR.Proofs.Wire.RoundTrip
import LinearIR.Proofs.Wire.Acceptance
import LinearIR.Proofs.Wire.Spelling
import LinearIR.Proofs.Wire.Shortest
import LinearIR.Proofs.Wire.Prefixes
import LinearIR.Proofs.SharedArrays.Lists
import LinearIR.Proofs.StepLimit
import LinearIR.Proofs.Folding.Names
import LinearIR.Proofs.ScopeNames
import LinearIR.Proofs.Folding.Completeness
import LinearIR.Proofs.SharedArrays.Sharing
import LinearIR.Proofs.Concatenation
import LinearIR.Proofs.Logging
import LinearIR.Proofs.Inlining.Arity
import LinearIR.Proofs.ClosedCode
import LinearIR.Proofs.Dependence
import LinearIR.Proofs.Folding.Determination
import LinearIR.Proofs.ForwardOnly
import LinearIR.Proofs.Destructuring
import LinearIR.Proofs.Comparison.PartialEquivalence
import LinearIR.Proofs.Folding.Skeleton
import LinearIR.Proofs.Leaves
import LinearIR.Proofs.Inlining.WalkOrder
import LinearIR.Proofs.Inlining.CalleeNames
import LinearIR.Proofs.OperandWalks
import LinearIR.Proofs.Text.Decimals
import LinearIR.Proofs.Text.Unambiguous
