import Chip32.Runs
import Chip32.Mixing
import Chip32.Ring
import Chip32.Hashalg
import Chip32.Rbhash
import Chip32.RbhashTable
import Chip32.RbhashWalk
import Chip32.RbhashGrowth
import Chip32.RbhashAdd
import Chip32.RbhashMap
import Chip32.RbhashSearch
import Chip32.RbhashRobin
import Chip32.RbhashRemove
import Chip32.RbhashStats
import Chip32.RbhashOwner
import Chip32.Vm
import Chip32.ObjectFile
import Chip32.VmCells
import Chip32.VmFrame
import Chip32.VmPage
import Chip32.VmStack
import Chip32.VmPaging
import Chip32.VmStep
import Chip32.VmRotate
import Chip32.VmEffects
import Chip32.VmBounds
import Chip32.Pairs
import Chip32.Leads
import Chip32.VmAccess
import Chip32.VmStrcpy
import Chip32.VmFresh
import Chip32.VmCalls
import Chip32.VmRules
import Chip32.VmForward
import Chip32.VmProcedures
import Chip32.Base64
import Chip32.Decoders
import Chip32.Paths
import Chip32.PathsLexical
import Chip32.PathsTwice
import Chip32.VmControl
import Chip32.VmDump
import Chip32.Asm
import Chip32.Lexer
import Chip32.Grammar
import Chip32.LexerScan
import Chip32.ErrorPrint
import Chip32.LexerGrammar
import Chip32.LexerSlots
import Chip32.Respelling
import Chip32.Listing
import Chip32.ListingLexer
import Chip32.Places
import Chip32.LexerBounds
import Chip32.Positions
import Chip32.Spacing
import Chip32.Parser
import Chip32.Tables
import Chip32.ParserSpec
import Chip32.Emission
import Chip32.Destinations
import Chip32.Labels
import Chip32.Operands
import Chip32.Storage
import Chip32.Rejection
import Chip32.Names
import Chip32.Source
import Chip32.Numbers
import Chip32.TablesAgree
import Chip32.Literals
import Chip32.Translation
import Chip32.Declarations
import Chip32.Reassembly
import Chip32.Strings
import Chip32.Alike
import Chip32.Agreement
import Chip32.Labelling
import Chip32.Renaming
import Chip32.Simulation
import Chip32.LoadCode
import Chip32.Options
import Chip32.Main
