import Lisp.Machine
import Lisp.Objects
import Lisp.Numerals
import Lisp.Parser
import Lisp.ParserComplete
import Lisp.Evaluator
import Lisp.ErrorPropagation
import Lisp.Executions
import Lisp.Capture
import Lisp.Association
import Lisp.Application
import Lisp.Bindings
import Lisp.Initialization
import Lisp.Refinement
import Lisp.Simulation
import Lisp.Sessions
import Lisp.GlobalEnvironment
import Lisp.Ownership
import Lisp.Collection
import Lisp.Garbage
import Lisp.Lifetimes
import Lisp.CList
import Lisp.CVector
import Lisp.Library.BalancedTree
import Lisp.CSet
import Lisp.Library.Probing
import Lisp.CMap
import Lisp.CMapLookup
import Lisp.Printing
import Lisp.ParserTermination
import Lisp.Balance
import Lisp.ProgramFile
import Lisp.ProgramReading
import Lisp.ProgramExpressions
import Lisp.Library.PlainChanges
import Lisp.Permutations
import Lisp.PermuterTermination
import Lisp.Combinations
import Lisp.FactorialNumbers
import Lisp.CMapIteration
import Lisp.Arithmetic
import Lisp.Comparison
import Lisp.NumericTokens
import Lisp.ListValues
import Lisp.ListPrimitives
import Lisp.ClosedCode
import Lisp.ClosedApplication
import Lisp.StagedCalls
import Lisp.CListTraversal
import Lisp.Marking
import Lisp.BracketGrammar
import Lisp.Library.CString
import Lisp.Prompting
import Lisp.PrintingBuffers
import Lisp.EvaluationRules
import Lisp.CallValues
import Lisp.YCombinator
import Lisp.CombinatorCalls
import Lisp.PackedDirections
import Lisp.Running
import Lisp.Hash
import Lisp.TestProgram
import Lisp.Meaning
import Lisp.Transcripts
import Lisp.Library.Writing
import Lisp.Messages
import Lisp.Ops
import Lisp.SetComparisons
import Lisp.VectorSearch
import Lisp.PackedPermutations
