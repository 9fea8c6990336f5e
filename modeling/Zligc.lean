import Zligc.StringBuffer
import Zligc.StringCompare
import Zligc.StringBounds
import Zligc.Allocator
import Zligc.OsFile
import Zligc.Slice
import Zligc.Stdlib
import Zligc.Arena
import Zligc.StdlibHeap
import Zligc.Stdio
import Zligc.StdioCalls
import Zligc.StdioInit
import Zligc.StdioStream
import Zligc.StdioInput
import Zligc.StdioOutput
import Zligc.StdioFiles
import Zligc.StdioOutcome
import Zligc.StdioRedirect
import Zligc.CharArgument
import Zligc.StringAgree
import Zligc.StringReads
import Zligc.StringReduce
import Zligc.Client
import Zligc.ClientReuse
import Zligc.Crt
import Zligc.Ctype
import Zligc.StdlibAlign
import Zligc.Numeral
import Zligc.StdioItems
import Zligc.StdioLines
import Zligc.StdlibConvert
import Zligc.StdlibUnsigned
import Zligc.StringLeftmost
import Zligc.StringMove
import Zligc.StringSpans
import Zligc.CrtStart
import Zligc.FormatString
import Zligc.StdioFormat
import Zligc.StdioPosition
import Zligc.CtypeClasses
import Zligc.StdlibArithmetic
import Zligc.StdlibRand
import Zligc.StdioTurns
import Zligc.StdioThreads
import Zligc.StdioNames
import Zligc.StdlibEnvironment
import Zligc.StdioFallible
import Zligc.ClientIsolation
import Zligc.Example
import Zligc.StringStore
import Zligc.TextProgram
import Zligc.StdlibNumerals
