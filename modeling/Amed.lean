import Amed.Library.BitFields
import Amed.Library.Gather
import Amed.Library.Bytes
import Amed.Library.Loop
import Amed.Library.Selection
import Amed.Library.Search
import Amed.Shared.Types
import Amed.Shared.Datatype
import Amed.Shared.Encodedin
import Amed.X86.Addressing
import Amed.Generator.Hashcode
import Amed.Generator.Layout
import Amed.Generator.Bitdiffs
import Amed.Generator.Encodedin
import Amed.Generator.Preservation
import Amed.Generator.Lookup
import Amed.Generator.Construction
import Amed.Arm.Alias
import Amed.Arm.Miss
import Amed.Arm.Tags
import Amed.Arm.Rejection
import Amed.X86.Leftover
import Amed.X86.Sizes
import Amed.X86.Truncation
import Amed.X86.Echo
import Amed.X86.Suffix
import Amed.X86.WordAddressing
import Amed.X86.Disambiguation
import Amed.X86.Attempts
import Amed.X86.IllegalPrefix
import Amed.X86.Ranges
import Amed.X86.RegisterNumber
import Amed.X86.SibOperand
import Amed.X86.CompressedDisp
import Amed.DecodeLoop
import Amed.AArch32.ItBlock
import Amed.AArch64.MoveMask
import Amed.AArch64.BitfieldOperands
import Amed.AArch32.BranchLabel
import Amed.AArch32.RegisterLists
import Amed.Arm.Destructive
import Amed.X86.LastF
import Amed.X86.PrefixOrder
import Amed.Generator.SliceScan
import Amed.Shared.AdvsimdImmediate
import Amed.AArch64.RegisterLists
import Amed.AArch64.Shifters
import Amed.AArch64.MemorySize
import Amed.Generator.Aliases
import Amed.Generator.Constraints
import Amed.Library.Overlays
import Amed.AArch32.MemoryPayload
import Amed.AArch32.BitfieldWidths
import Amed.Library.Numerals
import Amed.X86.Printer
import Amed.X86.PrintedImmediates
import Amed.AArch64.StoredRegisters
import Amed.AArch64.Constructive
import Amed.X86.PrintedOperands
import Amed.Arm.Printer
import Amed.AArch64.Printer
import Amed.AArch32.Printer
import Amed.PrintedLength
import Amed.Library.Shifts
import Amed.Arm.Rotation
import Amed.AArch32.GeneralLists
import Amed.Library.Delimited
import Amed.Generator.Sequence
import Amed.Library.Statements
import Amed.Generator.EmittedLookup
import Amed.Generator.IsaformLookup
import Amed.Arm.Pipeline
import Amed.Generator.SlotLookup
import Amed.X86.Pipeline
import Amed.Generator.Names
import Amed.ReportedEncoding
import Amed.Generator.Dictionary
import Amed.Generator.AliasTables
import Amed.Arm.AliasPipeline
import Amed.Library.CSyntax
import Amed.Library.CValues
import Amed.Generator.Printer
import Amed.Generator.Arguments
import Amed.Generator.TemplateTables
import Amed.Generator.X86Arguments
import Amed.Generator.ArmArguments
