import Rapido.Effect
import Rapido.Radix
import Rapido.UnixPath
import Rapido.Io
import Rapido.Cpio
import Rapido.Newc
import Rapido.CpioAccounting
import Rapido.CpioWalk
import Rapido.CpioRoundTrip
import Rapido.Text
import Rapido.KvConf
import Rapido.KvReads
import Rapido.KvQuoting
import Rapido.ConfDefaults
import Rapido.VmAlignment
import Rapido.Host
import Rapido.Worklist
import Rapido.Cut
import Rapido.Manifest
import Rapido.PathLaws
import Rapido.CutLog
import Rapido.CutInvariant
import Rapido.CutTraversal
import Rapido.ElfClosure
import Rapido.KmodGather
import Rapido.Expansion
import Rapido.ConfAgreement
import Rapido.KmodParser
import Rapido.Kcmdline
import Rapido.KmodIndex
import Rapido.KcmdlineRoundTrip
import Rapido.VmNumbers
import Rapido.AutorunOrder
import Rapido.SeenPaths
import Rapido.KmodMissing
import Rapido.KmodOrder
import Rapido.PathClimbs
import Rapido.Containment
import Rapido.BelowRoot
import Rapido.Templates
import Rapido.ManifestTemplates
import Rapido.KvTemplates
import Rapido.KvOpacity
import Rapido.Multiline
import Rapido.MultilineDrift
import Rapido.DataAlignment
import Rapido.DracutCpio
import Rapido.NewcGrammar
import Rapido.ParentDirs
import Rapido.TreeCopy
import Rapido.ElfWorklist
import Rapido.ElfDeps
import Rapido.ElfTermination
import Rapido.ElfLookup
import Rapido.AbsolutePaths
import Rapido.CutMain
import Rapido.VmScan
import Rapido.KmodSpelling
import Rapido.DracutListing
import Rapido.Completion
import Rapido.ArchiveNames
import Rapido.Endian
import Rapido.Elf
import Rapido.ElfCache
import Rapido.ElfLayout
import Rapido.ElfNames
import Rapido.Arguments
import Rapido.ArgumentNames
import Rapido.CommandLine
import Rapido.CutArguments
import Rapido.CutProgram
import Rapido.DracutProgram
import Rapido.DracutChain
import Rapido.BootModules
import Rapido.Lscpio
import Rapido.VmReturns
