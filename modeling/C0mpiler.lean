import C0mpiler.Data.HashMap
import C0mpiler.Data.SlotMap
import C0mpiler.Data.OptionFold
import C0mpiler.Data.ReverseIndex
import C0mpiler.Flow.Path
import C0mpiler.Flow.Until
import C0mpiler.Flow.DfsTree
import C0mpiler.Ir.IrType
import C0mpiler.Ir.CoreInt
import C0mpiler.Ir.CoreInst
import C0mpiler.Ir.Operand
import C0mpiler.Ir.Core
import C0mpiler.Ir.CoreFrame
import C0mpiler.Ir.UseFrame
import C0mpiler.Ir.Cfg
import C0mpiler.Ir.CfgDfs
import C0mpiler.Ir.DomTree
import C0mpiler.Ir.UseList
import C0mpiler.Ir.UseListEdits
import C0mpiler.Ir.UseListErase
import C0mpiler.Ir.UseListRun
import C0mpiler.Ir.Layout
import C0mpiler.Sem.Value
import C0mpiler.Opt.PtrAlias
import C0mpiler.Ir.Subst
import C0mpiler.Ir.Code
import C0mpiler.Sem.Memory
import C0mpiler.Sem.Exec
import C0mpiler.Opt.LocalMemory
import C0mpiler.Opt.ForwardLoop
import C0mpiler.Opt.ForwardSound
import C0mpiler.Opt.ForwardErase
import C0mpiler.Ir.CoreBuilder
import C0mpiler.Semantics.Types
import C0mpiler.Irgen.Value
import C0mpiler.Irgen.Emit
import C0mpiler.Irgen.Deref
import C0mpiler.Irgen.Access
import C0mpiler.Irgen.AutoDeref
import C0mpiler.Data.UnificationTable
import C0mpiler.Semantics.TypeSolver
import C0mpiler.Semantics.Assignee
import C0mpiler.Semantics.Mutability
import C0mpiler.Semantics.Visitors
import C0mpiler.Semantics.MutationSound
import C0mpiler.Semantics.Lexical
import C0mpiler.Semantics.Resolve
import C0mpiler.Semantics.ResolveTables
import C0mpiler.Semantics.ResolveConst
import C0mpiler.Semantics.ResolveStages
import C0mpiler.Semantics.ResolveDefine
import C0mpiler.Semantics.ResolveSound
import C0mpiler.Mir.Machine
import C0mpiler.Mir.Rv64i
import C0mpiler.Mir.Rv32im
import C0mpiler.Mir.Liveness
import C0mpiler.Mir.LivePaths
import C0mpiler.Mir.Regalloc
import C0mpiler.Mir.Colouring
import C0mpiler.Mir.SpillRounds
import C0mpiler.Mir.SpillGroups
import C0mpiler.Mir.SpillLayout
import C0mpiler.Mir.SpillStarved
import C0mpiler.Mir.SpillRoom
import C0mpiler.Data.ParallelMove
import C0mpiler.Ir.CoreIntValue
import C0mpiler.Mir.Exec
import C0mpiler.Mir.TargetExec
import C0mpiler.Mir.ParallelCopy
import C0mpiler.Mir.Lower
import C0mpiler.Mir.LowerFunction
import C0mpiler.Mir.LowerSetup
import C0mpiler.Mir.PhiElim
import C0mpiler.Mir.PhiSound
import C0mpiler.Mir.ParallelRun
import C0mpiler.Data.ByteImage
import C0mpiler.Mir.LowerConst
import C0mpiler.Mir.LowerGep
import C0mpiler.Mir.GepConst
import C0mpiler.Data.LowBits
import C0mpiler.Ir.IntArith
import C0mpiler.Mir.ArithTarget
import C0mpiler.Mir.LowerArith
import C0mpiler.Mir.ArithConst
import C0mpiler.Mir.ArithReg
import C0mpiler.Mir.ArithImm
import C0mpiler.Mir.ArithSound
import C0mpiler.Mir.ConstUse
import C0mpiler.Flow.Stutter
import C0mpiler.Mir.BranchRelax
import C0mpiler.Mir.BlockRuns
import C0mpiler.Mir.BranchRelaxSound
import C0mpiler.Ir.CoreIntOps
import C0mpiler.Opt.Algebraic
import C0mpiler.Opt.AlgebraicPanic
import C0mpiler.Mir.CompareSound
import C0mpiler.Mir.Selection
import C0mpiler.Mir.ShiftExact
import C0mpiler.Mir.SelectionExact
import C0mpiler.Opt.Strength
import C0mpiler.Opt.NonnegRows
import C0mpiler.Opt.NonnegSound
import C0mpiler.Opt.StrengthSound
import C0mpiler.Data.BumpLayout
import C0mpiler.Data.WordMemory
import C0mpiler.Mir.FrameLayout
import C0mpiler.Mir.Logue
import C0mpiler.Mir.FrameExec
import C0mpiler.Mir.LogueSound
import C0mpiler.Mir.LogueRun
import C0mpiler.Opt.FoldConst
import C0mpiler.Data.Memo
import C0mpiler.Ir.LayoutEngine
import C0mpiler.Irgen.Unary
import C0mpiler.Irgen.UnarySound
import C0mpiler.Data.Regex
import C0mpiler.Lexer.Tokens
import C0mpiler.Lexer.NextToken
import C0mpiler.Lexer.NextTokenSound
import C0mpiler.Lexer.StringLiteral
import C0mpiler.Lexer.QuotedTokens
import C0mpiler.Lexer.IntegerToken
import C0mpiler.Semantics.IntLiteral
import C0mpiler.Semantics.IntLiteralSound
import C0mpiler.Semantics.SolverErrors
import C0mpiler.Semantics.SolverSound
import C0mpiler.Ir.PrintString
import C0mpiler.Data.ByteCopy
import C0mpiler.Ir.CodeEdits
import C0mpiler.Opt.ScalarMemcpy
import C0mpiler.Mir.InlineMemcpy
import C0mpiler.Flow.Labelled
import C0mpiler.Sem.Flow
import C0mpiler.Sem.WellFormed
import C0mpiler.Ir.TerminatorEdits
import C0mpiler.Opt.MergeReturn
import C0mpiler.Opt.MergeReturnJoin
import C0mpiler.Opt.MergeReturnSound
import C0mpiler.Opt.MergeReturnFlow
import C0mpiler.Opt.Sroa
import C0mpiler.Data.Fuel
import C0mpiler.Semantics.StructDecls
import C0mpiler.Semantics.TypeInstance
import C0mpiler.Irgen.TransformType
import C0mpiler.Semantics.StructGraph
import C0mpiler.Semantics.StructCycles
import C0mpiler.Irgen.StructLayout
import C0mpiler.Flow.PostOrder
import C0mpiler.Flow.TopSort
import C0mpiler.Opt.CallGraph
import C0mpiler.Opt.CallGraphSound
import C0mpiler.Sem.Effect
import C0mpiler.Sem.Ssa
import C0mpiler.Sem.Substitution
import C0mpiler.Sem.SubstWellFormed
import C0mpiler.Sem.FlowGraph
import C0mpiler.Ir.EditsTotal
import C0mpiler.Opt.Renaming
import C0mpiler.Opt.Gvn
import C0mpiler.Opt.GvnSound
