import Rucc.Lib.Rounding
import Rucc.Lib.Checked
import Rucc.Lib.Digits
import Rucc.Lib.KnownBits
import Rucc.Lib.Intervals
import Rucc.Lib.U128
import Rucc.Base.Float
import Rucc.Base.Arith
import Rucc.Base.ArithSpec
import Rucc.Base.Operations
import Rucc.Base.Dfp
import Rucc.Base.DfpParse
import Rucc.Base.DfpCorrect
import Rucc.Base.DfpNumber
import Rucc.Opt.Range
import Rucc.Opt.RangeSpec
import Rucc.Opt.RangeSigned
import Rucc.Opt.RangeOps
import Rucc.Opt.RangeTransfers
import Rucc.Opt.RangeBitwise
import Rucc.Opt.RangeShifts
import Rucc.Opt.RangeSound
import Rucc.Opt.RangeCompare
import Rucc.Opt.RangeInvert
import Rucc.Opt.Fold
import Rucc.Opt.FoldCorrect
import Rucc.Lib.Worklist
import Rucc.Lib.Buckets
import Rucc.Mir.Func
import Rucc.Regalloc.Order
import Rucc.Regalloc.Live
import Rucc.Regalloc.LiveSpec
import Rucc.Regalloc.LiveFlow
import Rucc.Regalloc.LiveCarve
import Rucc.Lib.Canonical
import Rucc.Unpack.Inflate
import Rucc.Unpack.Deflate
import Rucc.Unpack.InflateBits
import Rucc.Unpack.InflateCorrect
import Rucc.Lib.Explore
import Rucc.Lib.Scc
import Rucc.Lib.Postorder
import Rucc.Lib.Dominators
import Rucc.Wasm.Irreducible
import Rucc.Wasm.Structure
import Rucc.Wasm.Loops
import Rucc.Wasm.Routes
import Rucc.Wasm.Paths
import Rucc.Wasm.Reducible
import Rucc.Opt.Cfg
import Rucc.Opt.Alias
import Rucc.Opt.MemSsa
import Rucc.Opt.MemSsaFrontier
import Rucc.Opt.MemSsaBuild
import Rucc.Opt.MemSsaWalk
import Rucc.Opt.MemSsaTotal
import Rucc.Opt.MemSsaSound
import Rucc.CTypes.RecordLaid
import Rucc.CTypes.RecordSound
import Rucc.Lib.Linked
import Rucc.Lib.Lists
import Rucc.Lib.Lamport
import Rucc.SafeRt.TypePlane
import Rucc.SafeRt.InitPlane
import Rucc.SafeRt.PlaneChecks
import Rucc.SafeRt.Layout
import Rucc.SafeRt.Heap
import Rucc.SafeRt.HeapSizes
import Rucc.SafeRt.HeapHeld
import Rucc.SafeRt.HeapSteps
import Rucc.SafeRt.HeapRuns
import Rucc.Abi.Describe
import Rucc.Abi.Classify
import Rucc.Abi.Abis
import Rucc.Abi.Flatten
import Rucc.Abi.FlattenSound
import Rucc.Abi.Slots
import Rucc.Abi.Calls
import Rucc.Abi.Asked
import Rucc.SafeRt.Epoch
import Rucc.SafeRt.Sync
import Rucc.SafeRt.Races
import Rucc.SafeRt.RacesSteps
import Rucc.SafeRt.RacesKept
import Rucc.SafeRt.RacesHonest
import Rucc.Lib.Yields
import Rucc.Object.Matcher
import Rucc.Object.MatcherSound
import Rucc.Object.Huffman
import Rucc.Object.HuffmanTree
import Rucc.Object.HuffmanLengths
import Rucc.Object.Bits
import Rucc.Object.Zlib
import Rucc.Object.HuffmanCodes
import Rucc.Object.ZlibHeader
import Rucc.Object.ZlibBody
import Rucc.Object.ZlibBlocks
import Rucc.Unpack.DeflateDrop
import Rucc.Object.ZlibCorrect
import Rucc.Lib.Cycles
import Rucc.Regalloc.Moves
import Rucc.Regalloc.MovesCorrect
import Rucc.Lib.LongDivision
import Rucc.Builtins.Div
import Rucc.Builtins.DivDigits
import Rucc.Builtins.DivCorrect
import Rucc.Lib.Words
import Rucc.Lib.Interchange
import Rucc.Lib.SoftFloat
import Rucc.Lib.SoftArith
import Rucc.Lib.InterchangeBits
import Rucc.Builtins.Float
import Rucc.Builtins.FloatCorrect
import Rucc.Builtins.Wide
import Rucc.Builtins.Quad
import Rucc.Builtins.QuadRounding
import Rucc.Builtins.QuadCorrect
import Rucc.Lib.Reciprocal
import Rucc.Codegen.Divide
import Rucc.Codegen.DivideRuns
import Rucc.Codegen.DivideCorrect
import Rucc.Regalloc.Pressure
import Rucc.Regalloc.Spill
import Rucc.Regalloc.SpillSettles
import Rucc.Regalloc.SpillCorrect
import Rucc.Regalloc.Active
import Rucc.Regalloc.ActiveLists
import Rucc.Regalloc.ActiveScan
import Rucc.Regalloc.LiveArea
import Rucc.Lib.Scopes
import Rucc.Lib.Probing
import Rucc.Base.Hash
import Rucc.Base.Intern
import Rucc.Base.InternCorrect
import Rucc.Base.Scope
import Rucc.Builtins.Convert
import Rucc.Builtins.ConvertCorrect
import Rucc.Lib.ByteMemory
import Rucc.Builtins.Mem
import Rucc.Builtins.MemCorrect
import Rucc.Base.Decimal
import Rucc.Base.FloatText
import Rucc.Base.FloatEncoding
import Rucc.Base.FloatProduced
import Rucc.Builtins.Folded
import Rucc.Regalloc.Assign
import Rucc.Regalloc.Legalize
import Rucc.Regalloc.Rewrite
import Rucc.Regalloc.Check
import Rucc.Regalloc.LegalizeProbe
import Rucc.Regalloc.LegalizeFew
import Rucc.Regalloc.RewriteEdges
import Rucc.Regalloc.RewriteFits
import Rucc.Lib.SortedSets
import Rucc.Pp.HideSets
import Rucc.Pp.HideSetsCorrect
import Rucc.Unpack.InflateCodes
import Rucc.Lex.Number
import Rucc.Lex.NumberSpelling
import Rucc.Lex.NumberCorrect
import Rucc.Lib.TreeNumbers
import Rucc.Opt.Dom
import Rucc.Opt.DomTree
import Rucc.Opt.DomCorrect
import Rucc.Lib.Ascent
import Rucc.Opt.Frontier
import Rucc.Opt.FrontierCorrect
import Rucc.Pp.Token
import Rucc.Pp.Expand
import Rucc.Pp.ExpandPass
import Rucc.Lib.Rounds
import Rucc.Pp.Cond
import Rucc.Pp.CondSpec
import Rucc.Pp.CondParse
import Rucc.Pp.CondNumber
import Rucc.Pp.CondValue
import Rucc.Pp.CondComma
import Rucc.Pp.CondCorrect
import Rucc.SafeRt.AuxSlot
import Rucc.SafeRt.Relocate
import Rucc.SafeRt.Torn
import Rucc.Unpack.Cfb
import Rucc.Unpack.CfbCorrect
