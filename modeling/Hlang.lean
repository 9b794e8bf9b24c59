import Hlang.Token
import Hlang.Lexer.Expansion
import Hlang.Lib.Lts
import Hlang.Runtime.Except
import Hlang.Runtime.Search
import Hlang.Ast
import Hlang.Lib.Dag
import Hlang.Lib.Fallible
import Hlang.Parser.ClassDef
import Hlang.Parser.ClassGraph
import Hlang.Parser.Layout
import Hlang.Ir.Semantics
import Hlang.Codegen.Env
import Hlang.Codegen.Builder
import Hlang.Codegen.Fold
import Hlang.Codegen.Expr
import Hlang.Codegen.Region
import Hlang.Codegen.Compute
import Hlang.Codegen.Operators
import Hlang.Codegen.Branch
import Hlang.Codegen.Constant
import Hlang.Codegen.FoldInt
import Hlang.Codegen.FoldFloat
import Hlang.Access
import Hlang.Codegen.Path
import Hlang.Runtime.Format
import Hlang.Runtime.FormatScan
import Hlang.Lexer.Directive
import Hlang.Codegen.Stretch
import Hlang.Codegen.Spec
import Hlang.Codegen.Join
import Hlang.Codegen.Straight
import Hlang.Codegen.Init
import Hlang.Stmt
import Hlang.Codegen.Stmt
import Hlang.Codegen.Blocks
import Hlang.Codegen.Lowering
import Hlang.Codegen.Func
import Hlang.Codegen.Scope
import Hlang.Ir.Events
import Hlang.Codegen.Control
import Hlang.Codegen.Items
import Hlang.Codegen.Dispatch
import Hlang.Codegen.Switch
import Hlang.Codegen.CaseRange
import Hlang.Codegen.Outcome
import Hlang.Codegen.Visits
import Hlang.Codegen.Visited
import Hlang.Codegen.Defaults
import Hlang.Codegen.Hygiene
import Hlang.Codegen.InitAssign
import Hlang.Codegen.Overlap
import Hlang.Codegen.Typing
import Hlang.Driver.Compile
import Hlang.Driver.Diagnosed
import Hlang.Codegen.Condition
import Hlang.Parser.Frozen
import Hlang.Lib.Numeral
import Hlang.Runtime.IntField
import Hlang.Lexer.Chars
import Hlang.Lexer.Scan
import Hlang.Lexer.Spelling
import Hlang.Runtime.ReadBack
import Hlang.Parser.Expr
import Hlang.Parser.Printed
import Hlang.Lexer.DefineLine
import Hlang.Lexer.ExeBlock
import Hlang.Lexer.Skipped
import Hlang.Lexer.CondEval
import Hlang.Lexer.CondTree
import Hlang.Lexer.CondCycle
import Hlang.Lexer.CondTrap
import Hlang.Codegen.ConstTrap
import Hlang.Lib.Calendar
import Hlang.Runtime.Date
import Hlang.Runtime.Clock
import Hlang.Runtime.Compose
import Hlang.Runtime.PackedChars
import Hlang.Runtime.ZList
import Hlang.Runtime.Scratch
import Hlang.Lib.Extent
import Hlang.Runtime.Alloc
import Hlang.Runtime.HeapStep
import Hlang.Runtime.HeapRun
import Hlang.Codegen.Sizes
import Hlang.Ir.Fields
import Hlang.Codegen.Stores
import Hlang.Codegen.SubInt
import Hlang.Codegen.Opcodes
import Hlang.Codegen.Signedness
import Hlang.Codegen.Storage
import Hlang.Codegen.Arguments
import Hlang.Lib.Xorshift
import Hlang.Runtime.Random
import Hlang.Runtime.OutBuffer
import Hlang.Runtime.PowLoop
import Hlang.Codegen.CallTo
import Hlang.Parser.Grammar
import Hlang.Parser.Reread
import Hlang.Parser.Accepted
import Hlang.Parser.Print
import Hlang.Lib.Returns
import Hlang.Parser.Statement
import Hlang.Parser.TopLevel
import Hlang.Parser.Progress
import Hlang.Parser.EndOfFile
import Hlang.Lib.Overshadow
import Hlang.Codegen.Module
import Hlang.Codegen.Binding
import Hlang.Codegen.Globals
import Hlang.Codegen.Written
import Hlang.Codegen.Mentions
import Hlang.Codegen.Linking
