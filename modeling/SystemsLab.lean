import SystemsLab.General.ByteWord
import SystemsLab.General.ShiftRegister
import SystemsLab.General.CountedLoop
import SystemsLab.General.AlgebraicNormalForm
import SystemsLab.General.Buffer
import SystemsLab.General.CipherChaining
import SystemsLab.General.LockstepChaining
import SystemsLab.General.StampedSlots
import SystemsLab.General.RecencyList
import SystemsLab.General.LoopNest
import SystemsLab.General.RowMajor
import SystemsLab.General.Interleaving
import SystemsLab.General.StepRuns
import SystemsLab.General.Routing
import SystemsLab.General.CheckedInt
import SystemsLab.General.Recorded
import SystemsLab.Sm4.Textbook
import SystemsLab.Sm4.Portable
import SystemsLab.Sm4.PortableCbc
import SystemsLab.Sm4.BitsliceBackend
import SystemsLab.Sm4.Bitslice
import SystemsLab.Sm4.RoundTables
import SystemsLab.Sm4.Simd
import SystemsLab.Sm4.Multibuffer
import SystemsLab.Sm4.Zksed
import SystemsLab.Sm4.ZksedCbc
import SystemsLab.Sm4.ZksedShifts
import SystemsLab.Sm4.Demo
import SystemsLab.Sm4.KeySchedules
import SystemsLab.Sm4.OpenHitls
import SystemsLab.Sm4.TableBuilds
import SystemsLab.Sm4.PaddingCheck
import SystemsLab.Sm4.ParallelDecrypt
import SystemsLab.Sm4.ThreadDecrypt
import SystemsLab.Cache.Simulator
import SystemsLab.Cache.Refinement
import SystemsLab.Cache.ReuseDistance
import SystemsLab.Cache.Invariant
import SystemsLab.Cache.SetIndependence
import SystemsLab.Cache.SplitAccess
import SystemsLab.Cache.WriteAround
import SystemsLab.Cache.Conservative
import SystemsLab.Matmul.Kernels
import SystemsLab.Matmul.Agreement
import SystemsLab.Matmul.AllVersions
import SystemsLab.Matmul.LazyTranspose
import SystemsLab.Matmul.Square
import SystemsLab.Matmul.IntRanges
import SystemsLab.Combine.Versions
import SystemsLab.Combine.Overflow
import SystemsLab.General.StreamMachine
import SystemsLab.General.BlockStream
import SystemsLab.Modes.Padding
import SystemsLab.Modes.BlockCrypt
import SystemsLab.Eal.Cipher
import SystemsLab.Modes.CipherUpdate
import SystemsLab.Modes.BlockModes
import SystemsLab.Eal.BlockMessages
import SystemsLab.Sm4.SetKey
import SystemsLab.Eal.Sm4Blocks
import SystemsLab.Eal.BlockSafety
import SystemsLab.Eal.CallOrder
import SystemsLab.Eal.Demo
import SystemsLab.General.WindowStream
import SystemsLab.Modes.StreamCrypt
import SystemsLab.Modes.CfbBits
import SystemsLab.Modes.FeedbackRegister
import SystemsLab.Modes.StreamModes
import SystemsLab.Eal.StreamMessages
import SystemsLab.Eal.Sm4Streams
import SystemsLab.Eal.StreamRuns
