import FunctorCalls.Build
import FunctorCalls.CallGraph.Query
import FunctorCalls.Proofs.Occurrence
import FunctorCalls.Proofs.Answers
import FunctorCalls.Proofs.Closure
import FunctorCalls.Proofs.Trim
import FunctorCalls.Proofs.Cycles
import FunctorCalls.CallGraph.History
import FunctorCalls.CallGraph.Store
import FunctorCalls.Proofs.Store
import FunctorCalls.Proofs.Sketch
import FunctorCalls.Proofs.KnownTypes
import FunctorCalls.Proofs.Json.Number
import FunctorCalls.Proofs.Json.Text
import FunctorCalls.Proofs.Json.Token
import FunctorCalls.Proofs.Returned
import FunctorCalls.Proofs.Json.Reader
import FunctorCalls.Proofs.Format.Ty
import FunctorCalls.Proofs.Identity
import FunctorCalls.Build.Visits
import FunctorCalls.Proofs.Visits
import FunctorCalls.Proofs.Agreement
import FunctorCalls.Proofs.WellFormed
import FunctorCalls.Proofs.Json.Shape
import FunctorCalls.Proofs.Format.Program
import FunctorCalls.Proofs.Frames
import FunctorCalls.Proofs.StoreAnswers
import FunctorCalls.Proofs.Dependencies
import FunctorCalls.Proofs.Rearranged
import FunctorCalls.Program.Edit
import FunctorCalls.Proofs.Edits
import FunctorCalls.Values
import FunctorCalls.Proofs.Values
import FunctorCalls.Proofs.FunctorLaws
import FunctorCalls.Proofs.DeadCode
import FunctorCalls.Proofs.Contexts
import FunctorCalls.Skeleton
import FunctorCalls.Proofs.Skeleton
import FunctorCalls.Proofs.Growth
import FunctorCalls.Proofs.Trims
import FunctorCalls.Proofs.KeptGroups
import FunctorCalls.Proofs.Interning
import FunctorCalls.Proofs.Lines
import FunctorCalls.Proofs.NewEdges
import FunctorCalls.Proofs.Display.Instance
import FunctorCalls.Proofs.Format.Options
import FunctorCalls.Proofs.Grouping
import FunctorCalls.Proofs.Format.Presented
import FunctorCalls.Proofs.NodeLists
