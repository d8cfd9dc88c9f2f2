import Propositional.Analysis
import Propositional.CommandLine.Arguments
import Propositional.CommandLine.Invocation
import Propositional.CommandLine.Log
import Propositional.CommandLine.Run
import Propositional.Evaluation
import Propositional.Formula.Basic
import Propositional.Formula.Construction
import Propositional.Formula.Equality
import Propositional.Formula.Traversal
import Propositional.Inference
import Propositional.Main
import Propositional.Model.Basic
import Propositional.Model.Enumeration
import Propositional.OrderedMap
import Propositional.OrderedSet
import Propositional.Program
import Propositional.Proofs.CommandLine.Activities
import Propositional.Proofs.CommandLine.Arguments
import Propositional.Proofs.Construction.Comparison
import Propositional.Proofs.Construction.Nodes
import Propositional.Proofs.Construction.Operations
import Propositional.Proofs.Construction.Reading
import Propositional.Proofs.Construction.Rewriting
import Propositional.Proofs.Construction.Sessions
import Propositional.Proofs.Semantics.CanonicalForms
import Propositional.Proofs.Semantics.Compilation
import Propositional.Proofs.Semantics.Enumeration
import Propositional.Proofs.Semantics.Equivalence
import Propositional.Proofs.Semantics.Evaluation
import Propositional.Proofs.Semantics.Instances
import Propositional.Proofs.Semantics.ModelHistory
import Propositional.Proofs.Semantics.RenderedTables
import Propositional.Proofs.Semantics.Soundness
import Propositional.Proofs.Semantics.Synthesis
import Propositional.Proofs.Semantics.TruthTables
import Propositional.Proofs.Substitution.BottomUp
import Propositional.Proofs.Substitution.History
import Propositional.Proofs.Substitution.Meaning
import Propositional.Proofs.Substitution.Operators
import Propositional.Proofs.Substitution.Variables
import Propositional.Proofs.Text.ByteOrder
import Propositional.Proofs.Text.DepthLimit
import Propositional.Proofs.Text.ErrorColumns
import Propositional.Proofs.Text.Lexing
import Propositional.Proofs.Text.LongestPrefix
import Propositional.Proofs.Text.Occurrences
import Propositional.Proofs.Text.PolishNotation
import Propositional.Proofs.Text.Reading
import Propositional.Proofs.Text.StandardNotation
import Propositional.Proofs.Text.Streams
import Propositional.Proofs.Text.Words
import Propositional.Proofs.WorkerPool.Chunking
import Propositional.Proofs.WorkerPool.Collecting
import Propositional.Proofs.WorkerPool.Progress
import Propositional.Proofs.WorkerPool.Schedules
import Propositional.Proofs.WorkerPool.Searching
import Propositional.Substitution.BottomUp
import Propositional.Substitution.Operators
import Propositional.Substitution.Variables
import Propositional.Symbol
import Propositional.Text.Parser
import Propositional.Text.Polish
import Propositional.Text.Reader
import Propositional.Text.Split
import Propositional.Text.Standard
import Propositional.Text.Token
import Propositional.TruthTable.Basic
import Propositional.TruthTable.Rendering
import Propositional.TruthTable.Synthesis
import Propositional.Weight
import Propositional.WorkerPool.Chunk
import Propositional.WorkerPool.Collection
import Propositional.WorkerPool.Search
import Propositional.Proofs.CommandLine.Pipeline
import Propositional.Proofs.Substitution.Composition
import Propositional.Proofs.Substitution.ChangeOfModel
import Propositional.Proofs.Substitution.Templates
import Propositional.Proofs.Substitution.Footprints
import Propositional.Proofs.Substitution.Interchange
import Propositional.Proofs.Semantics.ModelOrder
import Propositional.Proofs.Semantics.EnumerationHistory
import Propositional.Proofs.Semantics.Clauses
import Propositional.Proofs.Semantics.Duality
import Propositional.Proofs.Semantics.ProjectedTables
import Propositional.Proofs.Semantics.Refusals
import Propositional.Proofs.Semantics.RuleEvaluation
import Propositional.Proofs.Semantics.Analyses
import Propositional.Proofs.Semantics.TableColumns
import Propositional.Proofs.Construction.Positions
import Propositional.Proofs.Construction.Measures
import Propositional.Proofs.Construction.Gathering
import Propositional.Proofs.Construction.Stores
import Propositional.Proofs.Text.ByteLexer
import Propositional.Proofs.Text.Lossless
import Propositional.Proofs.Text.Symbols
import Propositional.Proofs.CommandLine.Reprinting
import Propositional.Proofs.CommandLine.Substituting
import Propositional.Proofs.Substitution.RewritingSteps
import Propositional.Proofs.WorkerPool.Queueing
import Propositional.Proofs.Semantics.StackHeights
import Propositional.Proofs.Semantics.StackDiscipline
import Propositional.Proofs.Construction.Traversals
import Propositional.Proofs.Construction.Printing
