import CxyCompiler.Lib.Postorder
import CxyCompiler.Lib.Reorder
import CxyCompiler.Lib.Probing
import CxyCompiler.Lib.RobinHood
import CxyCompiler.Lib.Search
import CxyCompiler.Lib.Simulation
import CxyCompiler.Lib.Utf8
import CxyCompiler.Lib.Double
import CxyCompiler.Lib.Rounding
import CxyCompiler.Lib.FirstVisit
import CxyCompiler.Lib.DepthFirst
import CxyCompiler.Lib.Block
import CxyCompiler.Lib.Links
import CxyCompiler.Lib.Runs
import CxyCompiler.Lib.MergeSort
import CxyCompiler.Lib.Qsort
import CxyCompiler.Lib.Numeral
import CxyCompiler.Core.Hash
import CxyCompiler.Core.HTable
import CxyCompiler.Core.HTableRuns
import CxyCompiler.Core.StrPool
import CxyCompiler.Core.Hmap
import CxyCompiler.Core.HmapRuns
import CxyCompiler.Core.Utils
import CxyCompiler.Core.Numerals
import CxyCompiler.Core.BitFlags
import CxyCompiler.Core.Args
import CxyCompiler.Core.ArgsLaws
import CxyCompiler.Core.Escapes
import CxyCompiler.Core.Format
import CxyCompiler.Core.Utf8Decode
import CxyCompiler.Core.FormatRound
import CxyCompiler.Frontend.Lexer
import CxyCompiler.Frontend.LexerMoves
import CxyCompiler.Frontend.LexerNumbers
import CxyCompiler.Frontend.LexerProgress
import CxyCompiler.Frontend.Types
import CxyCompiler.Frontend.Compare
import CxyCompiler.Frontend.TypeHash
import CxyCompiler.Frontend.TypeFrame
import CxyCompiler.Frontend.TypeFlags
import CxyCompiler.Frontend.TypeTable
import CxyCompiler.Frontend.TypeTableRuns
import CxyCompiler.Frontend.Encode
import CxyCompiler.Frontend.Decode
import CxyCompiler.Frontend.ExprParser
import CxyCompiler.Frontend.ExprGrammar
import CxyCompiler.Frontend.ExprSound
import CxyCompiler.Frontend.ExprComplete
import CxyCompiler.Middle.Defer
import CxyCompiler.Middle.DeferSound
import CxyCompiler.Middle.EnumValues
import CxyCompiler.Middle.OverloadChain
import CxyCompiler.Middle.Scope
import CxyCompiler.Middle.ScopeRuns
import CxyCompiler.Core.TrackedMem
import CxyCompiler.Frontend.ReplaceNode
import CxyCompiler.Frontend.TypeOrder
import CxyCompiler.Frontend.Iterable
import CxyCompiler.Middle.ForRange
import CxyCompiler.Middle.Suggest
import CxyCompiler.Middle.SwitchCases
import CxyCompiler.Middle.Unreachable
import CxyCompiler.Middle.VariableTraces
import CxyCompiler.Middle.Generics
import CxyCompiler.Middle.Overload
import CxyCompiler.Middle.Evaluate
import CxyCompiler.Middle.EvaluateAgree
import CxyCompiler.Middle.EvaluateExact
import CxyCompiler.Middle.EvaluateFaults
import CxyCompiler.Middle.Concatenate
import CxyCompiler.Middle.Inheritance
import CxyCompiler.Middle.InheritanceTables
import CxyCompiler.Middle.Mangle
import CxyCompiler.Middle.MangleInjective
import CxyCompiler.Package.BestVersion
import CxyCompiler.Package.Env
import CxyCompiler.Package.Install
import CxyCompiler.Package.LockFile
import CxyCompiler.Package.Resolver
import CxyCompiler.Package.ResolverOrder
import CxyCompiler.Package.Scripts
import CxyCompiler.Package.VersionChecks
import CxyCompiler.Package.VersionRanges
import CxyCompiler.Package.VersionText
import CxyCompiler.Package.Versions
import CxyCompiler.Runtime.BufferedOutput
import CxyCompiler.Runtime.SmartPtr
import CxyCompiler.Runtime.String
import CxyCompiler.Lib.CInteger
import CxyCompiler.Lib.EditDistance
import CxyCompiler.Lib.Loop
import CxyCompiler.Lib.Flow
import CxyCompiler.Lib.PrefixTree
import CxyCompiler.Runtime.StringHash
import CxyCompiler.Stdlib.LinkedList
import CxyCompiler.Stdlib.Vector
import CxyCompiler.Stdlib.Sync
import CxyCompiler.Stdlib.Condition
import CxyCompiler.Stdlib.PercentCodec
import CxyCompiler.Stdlib.Semaphore
import CxyCompiler.Stdlib.HashMap
import CxyCompiler.Stdlib.HashMapRuns
import CxyCompiler.Stdlib.HashMapEach
import CxyCompiler.Stdlib.Trie
import CxyCompiler.Stdlib.Router
import CxyCompiler.Stdlib.Channel
import CxyCompiler.Stdlib.CircularBuffer
import CxyCompiler.Stdlib.CoroutineList
import CxyCompiler.Stdlib.CoroutineStacks
import CxyCompiler.Stdlib.Value
import CxyCompiler.Stdlib.Utf8Output
import CxyCompiler.Stdlib.IntegerOutput
import CxyCompiler.Stdlib.StringSearch
import CxyCompiler.Stdlib.DotEnv
import CxyCompiler.Stdlib.DotEnvLoad
import CxyCompiler.Stdlib.Time
import CxyCompiler.Lib.Sextets
import CxyCompiler.Stdlib.Base64
import CxyCompiler.Stdlib.Redis
import CxyCompiler.Stdlib.Json
import CxyCompiler.Stdlib.JsonRound
import CxyCompiler.Stdlib.JsonTyped
import CxyCompiler.Stdlib.JsonGrammar
import CxyCompiler.Stdlib.JsonAccept
import CxyCompiler.Stdlib.JsonShape
import CxyCompiler.Stdlib.JsonTermination
import CxyCompiler.Lib.Lookahead
import CxyCompiler.Stdlib.YamlLexer
import CxyCompiler.Stdlib.YamlParser
import CxyCompiler.Stdlib.YamlLayout
import CxyCompiler.Stdlib.YamlBlocks
import CxyCompiler.Stdlib.YamlLines
import CxyCompiler.Stdlib.YamlBalance
import CxyCompiler.Stdlib.YamlBlockScalar
import CxyCompiler.Stdlib.YamlScalars
import CxyCompiler.Stdlib.YamlFuel
import CxyCompiler.Stdlib.YamlStructure
import CxyCompiler.Stdlib.YamlRound
import CxyCompiler.Stdlib.Args
import CxyCompiler.Stdlib.ArgsDenote
import CxyCompiler.Stdlib.ArgsLaws
