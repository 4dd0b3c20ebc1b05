import Swan.Bus.Flat
import Swan.Bus.Traced
import Swan.Main
import Swan.Proofs.BlockMove
import Swan.Proofs.BlockTransfer
import Swan.Proofs.CodeMeaning
import Swan.Proofs.Comparison
import Swan.Proofs.CounterBounds
import Swan.Proofs.CycleAccounting
import Swan.Proofs.Division
import Swan.Proofs.EffectiveAddress
import Swan.Proofs.EncodingAgreement
import Swan.Proofs.FlagDiscipline
import Swan.Proofs.FrameEnd
import Swan.Proofs.HaltWait
import Swan.Proofs.HiddenMemory
import Swan.Proofs.InertPrefix
import Swan.Proofs.InstructionLength
import Swan.Proofs.InterruptNesting
import Swan.Proofs.InterruptService
import Swan.Proofs.InterruptedRun
import Swan.Proofs.KeyPresses
import Swan.Proofs.LongBinary
import Swan.Proofs.LongDecimal
import Swan.Proofs.MemoryFootprint
import Swan.Proofs.MemoryMap
import Swan.Proofs.MemoryQuery
import Swan.Proofs.Multiplication
import Swan.Proofs.ObserverFilter
import Swan.Proofs.PortLatch
import Swan.Proofs.ProcedureFrame
import Swan.Proofs.ProcessorInvariant
import Swan.Proofs.QueuedPrefixes
import Swan.Proofs.RasterPhase
import Swan.Proofs.RedundantEncoding
import Swan.Proofs.RepeatReturn
import Swan.Proofs.ResetHistory
import Swan.Proofs.Resumption
import Swan.Proofs.ShiftClosedForm
import Swan.Proofs.StackOrder
import Swan.Proofs.TimerSchedule
import Swan.Proofs.TransferPriority
import Swan.Proofs.TransferRegisters
