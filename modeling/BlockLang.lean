import BlockLang.Compiler
import BlockLang.Tree.Builder
import BlockLang.Proofs.Annotated
import BlockLang.Proofs.CallProtocol
import BlockLang.Proofs.FrameLayout
import BlockLang.Proofs.Generation
import BlockLang.Proofs.Exhaustion
import BlockLang.Proofs.TableInvariant
import BlockLang.Proofs.StrictGeneration
import BlockLang.Proofs.Containment
import BlockLang.Proofs.ConfinedRuns
import BlockLang.Proofs.GenerationOptions
import BlockLang.Proofs.RenamedCode
import BlockLang.Proofs.ScopeStack
import BlockLang.Proofs.WriteLog
import BlockLang.Proofs.ExpressionCode
import BlockLang.Proofs.Comparisons
import BlockLang.Proofs.Resources
import BlockLang.Proofs.Addressing
import BlockLang.Proofs.AggregateCopies
import BlockLang.Proofs.Interruptions
import BlockLang.Proofs.StorageContainment
import BlockLang.Proofs.StepEffects
import BlockLang.Proofs.TypeConstruction
import BlockLang.Proofs.ScopePartition
import BlockLang.Proofs.CallChecking
import BlockLang.Proofs.ListingOrder
import BlockLang.Proofs.ListingText
import BlockLang.Proofs.StorageParts
import BlockLang.Proofs.NodeNumbering
