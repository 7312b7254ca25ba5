import LiteralRecovery.CommandLine.Drive
import LiteralRecovery.Main
import LiteralRecovery.Proofs.ConstantValues
import LiteralRecovery.Proofs.ControlFlow
import LiteralRecovery.Proofs.Dangling
import LiteralRecovery.Proofs.SchemeRecovery
import LiteralRecovery.Proofs.SecondRun
import LiteralRecovery.Proofs.TableContents
import LiteralRecovery.Proofs.UnitText
import LiteralRecovery.Proofs.InstructionCode
import LiteralRecovery.Proofs.ListingCode
import LiteralRecovery.Proofs.Rewriting
import LiteralRecovery.Proofs.SwitchCases
import LiteralRecovery.Proofs.ClassRoundTrip
import LiteralRecovery.Proofs.CanonicalCode
import LiteralRecovery.Proofs.KeyedState
import LiteralRecovery.Proofs.TableAccess
import LiteralRecovery.Proofs.ReadOrder
import LiteralRecovery.Proofs.WalkOrder
import LiteralRecovery.Proofs.MethodOrder
import LiteralRecovery.Proofs.ConstantCalls
import LiteralRecovery.Proofs.CountedChanges
import LiteralRecovery.Proofs.Untouched
import LiteralRecovery.Proofs.Neighbours
import LiteralRecovery.Proofs.LinkedSlots
import LiteralRecovery.Proofs.EditHistory
import LiteralRecovery.Proofs.RelocatedCode
import LiteralRecovery.Proofs.FrameRelocation
import LiteralRecovery.Proofs.UninitializedTypes
import LiteralRecovery.Proofs.PlainBlocks
import LiteralRecovery.Proofs.Utf8Text
import LiteralRecovery.Proofs.ArchiveReadBack
import LiteralRecovery.Proofs.BatchRun
import LiteralRecovery.Proofs.FoldedExpressions
import LiteralRecovery.Proofs.CodeTables
import LiteralRecovery.Proofs.SlotValues
import LiteralRecovery.Proofs.StackDepth
import LiteralRecovery.Proofs.ReferenceAccount
import LiteralRecovery.Proofs.LoopBound
import LiteralRecovery.Proofs.LoweringFailures
import LiteralRecovery.Proofs.ReadsGone
import LiteralRecovery.Proofs.MaskedText
import LiteralRecovery.Proofs.FailedScans
import LiteralRecovery.Proofs.DeclaredTables
