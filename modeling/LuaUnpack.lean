import LuaUnpack.Chunk.Bytes
import LuaUnpack.Chunk.Instruction
import LuaUnpack.Chunk.Opcode
import LuaUnpack.Chunk.Packed
import LuaUnpack.Chunk.Prototype
import LuaUnpack.Chunk.Standard
import LuaUnpack.Chunk.Word
import LuaUnpack.Cli
import LuaUnpack.Cli.Arguments
import LuaUnpack.Config
import LuaUnpack.Decimal.Binary64
import LuaUnpack.Decimal.Nearest
import LuaUnpack.Decimal.Reader
import LuaUnpack.Decimal.Shortest
import LuaUnpack.Dict
import LuaUnpack.Dispatch.Cascade
import LuaUnpack.Dispatch.Graph
import LuaUnpack.Dispatch.Path
import LuaUnpack.Error
import LuaUnpack.Files
import LuaUnpack.Handler.Catalog
import LuaUnpack.Handler.Fingerprint
import LuaUnpack.Handler.Mapping
import LuaUnpack.Handler.Simplify
import LuaUnpack.Handler.Window
import LuaUnpack.Host
import LuaUnpack.Json
import LuaUnpack.Log
import LuaUnpack.Lua.Eval
import LuaUnpack.Lua.Lexer
import LuaUnpack.Lua.Literal
import LuaUnpack.Lua.Mapper
import LuaUnpack.Lua.Node
import LuaUnpack.Lua.Operator
import LuaUnpack.Lua.Parser
import LuaUnpack.Lua.Printer
import LuaUnpack.Lua.Symbols
import LuaUnpack.Lua.Token
import LuaUnpack.Lua.Tree
import LuaUnpack.Lua.Value
import LuaUnpack.Machine
import LuaUnpack.Proofs.Chunk.Reading
import LuaUnpack.Proofs.Chunk.Records
import LuaUnpack.Proofs.Chunk.RoundTrip
import LuaUnpack.Proofs.Chunk.Tree
import LuaUnpack.Proofs.Chunk.Word
import LuaUnpack.Proofs.Decimal.Value
import LuaUnpack.Proofs.Dict
import LuaUnpack.Proofs.Dispatch.Leaves
import LuaUnpack.Proofs.Dispatch.Soundness
import LuaUnpack.Proofs.Outcome
import LuaUnpack.Proofs.Recover.AbsoluteJumps
import LuaUnpack.Proofs.Recover.Landing
import LuaUnpack.Proofs.Recover.Retarget
import LuaUnpack.Proofs.Text.Utf8
import LuaUnpack.Pseudocode
import LuaUnpack.Pseudocode.Frame
import LuaUnpack.Pseudocode.Line
import LuaUnpack.Pseudocode.Tidy
import LuaUnpack.Recover
import LuaUnpack.Recover.Attributes
import LuaUnpack.Recover.ControlFlow
import LuaUnpack.Recover.Entry
import LuaUnpack.Recover.Pool
import LuaUnpack.Recover.Resolve
import LuaUnpack.Recover.Warning
import LuaUnpack.Script.Analysis
import LuaUnpack.Script.Constants
import LuaUnpack.Script.Context
import LuaUnpack.Script.Flow
import LuaUnpack.Script.Fold
import LuaUnpack.Script.Rename
import LuaUnpack.Text.Blank
import LuaUnpack.Text.Bytes
import LuaUnpack.Text.Cut
import LuaUnpack.Text.Digit
import LuaUnpack.Text.Numeral
import LuaUnpack.Transport
import LuaUnpack.Unpack
import LuaUnpack.Unpack.AntiTamper
import LuaUnpack.Unpack.Event
import LuaUnpack.Unpack.Keys
import LuaUnpack.Width
import LuaUnpack.Main
import LuaUnpack.Proofs.Dispatch.Spelling
import LuaUnpack.Proofs.Dispatch.SearchTree
import LuaUnpack.Proofs.Dispatch.EqualityChain
import LuaUnpack.Proofs.Recover.Uses
import LuaUnpack.Proofs.Recover.Pool
import LuaUnpack.Proofs.Recover.OperandWidth
import LuaUnpack.Proofs.Lua.Marks
import LuaUnpack.Proofs.Script.Renaming
import LuaUnpack.Proofs.Lua.Visits
import LuaUnpack.Proofs.Lua.Walks
import LuaUnpack.Proofs.Script.LocalFunctions
import LuaUnpack.Proofs.Decimal.Numeral
import LuaUnpack.Proofs.Lua.Follow
import LuaUnpack.Proofs.Lua.Joining
import LuaUnpack.Proofs.Lua.Lexed
import LuaUnpack.Proofs.Lua.Parsed
import LuaUnpack.Proofs.Lua.ReadBack
import LuaUnpack.Proofs.Lua.RoundTrip
import LuaUnpack.Proofs.Chunk.Truncation
import LuaUnpack.Proofs.Chunk.Container
import LuaUnpack.Proofs.Recover.Padding
import LuaUnpack.Proofs.Recover.Positions
import LuaUnpack.Proofs.Recover.Branches
import LuaUnpack.Proofs.Chunk.Rereading
import LuaUnpack.Proofs.Lua.Evaluation
import LuaUnpack.Proofs.Script.Folding
import LuaUnpack.Proofs.Lua.Signs
import LuaUnpack.Proofs.Script.KeyText
import LuaUnpack.Proofs.Dispatch.Splitting
import LuaUnpack.Proofs.Script.Straightening
import LuaUnpack.Proofs.Script.CountedLoops
import LuaUnpack.Proofs.Recover.FixedPools
import LuaUnpack.Proofs.Dispatch.Acceptance
import LuaUnpack.Proofs.Script.NormalForm
import LuaUnpack.Proofs.Script.Course
import LuaUnpack.Proofs.Script.OnceLoops
import LuaUnpack.Proofs.Transport.KeyedStrings
import LuaUnpack.Proofs.Transport.ConstantTables
import LuaUnpack.Proofs.Recover.EntryCheck
import LuaUnpack.Proofs.Recover.Survivors
import LuaUnpack.Proofs.Lua.Kept
import LuaUnpack.Proofs.Lua.LiteralPlaces
import LuaUnpack.Proofs.Lua.Taken
import LuaUnpack.Proofs.Lua.Printable
import LuaUnpack.Proofs.Script.Nameless
import LuaUnpack.Proofs.Script.RenamedText
import LuaUnpack.Proofs.Handler.Summary
import LuaUnpack.Proofs.Handler.Reworking
import LuaUnpack.Proofs.Handler.Knowledge
import LuaUnpack.Proofs.Handler.PassChanges
import LuaUnpack.Proofs.Handler.Convergence
import LuaUnpack.Proofs.Recover.Shares
import LuaUnpack.Proofs.Handler.TagDigits
import LuaUnpack.Proofs.Lua.FlatText
import LuaUnpack.Proofs.Lua.Grouping
import LuaUnpack.Proofs.Lua.Escapes
import LuaUnpack.Proofs.Pseudocode.HeldTrees
import LuaUnpack.Proofs.Pseudocode.Polarity
import LuaUnpack.Proofs.Handler.WindowWrites
import LuaUnpack.Proofs.Handler.StraightPass
import LuaUnpack.Proofs.Handler.SettledWindows
import LuaUnpack.Proofs.Handler.KeptWrites
import LuaUnpack.Transport.Checked
import LuaUnpack.Proofs.Handler.Boundaries
import LuaUnpack.Proofs.Lua.Unescaping
import LuaUnpack.Proofs.Transport.CheckedSums
import LuaUnpack.Proofs.Lua.Places
import LuaUnpack.Proofs.Lua.EntryNotes
import LuaUnpack.Proofs.Handler.PassNotes
import LuaUnpack.Proofs.Transport.EscapedStrings
import LuaUnpack.Proofs.Lua.LexicalRules
import LuaUnpack.Proofs.Lua.TokenStarts
