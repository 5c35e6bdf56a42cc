import KeyVault.Interleaving
import KeyVault.LittleEndian
import KeyVault.Outcome
import KeyVault.Fragments
import KeyVault.VaultProgram
import KeyVault.VaultFootprint
import KeyVault.KeyLockCounter
import KeyVault.RandomFragmenter
import KeyVault.StandardFragmenter
import KeyVault.InterleavedFragmenter
import KeyVault.LayeredFragmenter
import KeyVault.CallHistory
import KeyVault.CallPaths
import KeyVault.Registry
import KeyVault.RegistryCalls
import KeyVault.KeyMaterial
import KeyVault.KeyReads
import KeyVault.Lockouts
import KeyVault.SequentialCalls
import KeyVault.SequentialRuns
import KeyVault.KeyLockouts
import KeyVault.OneShot
import KeyVault.ExtraReads
import KeyVault.IndependentControls
import KeyVault.RelyGuarantee
import KeyVault.LockedWriters
import KeyVault.KeyIsolation
import KeyVault.FailureWindow
import KeyVault.MasterBackoff
import KeyVault.PageTable
import KeyVault.Extents
import KeyVault.PagePool
import KeyVault.Ledger
import KeyVault.PageProtection
import KeyVault.NestedReads
import KeyVault.AuditTrail
import KeyVault.FailurePaths
import KeyVault.MissedLockouts
import KeyVault.ClearRace
import KeyVault.Pairings
import KeyVault.StaticCodex
import KeyVault.RandomScatter
import KeyVault.Coverage
import KeyVault.FragmentWrites
import KeyVault.Relocation
import KeyVault.LayoutGaps
import KeyVault.BreachEvents
import KeyVault.ScratchHygiene
import KeyVault.Decoys
import KeyVault.Acceptance
import KeyVault.ChunkSizes
import KeyVault.FileTree
import KeyVault.KeyFile
import KeyVault.KeyPath
import KeyVault.Shuffles
import KeyVault.FileFetch
import KeyVault.ReleaseAcquire
import KeyVault.SpinMutex
import KeyVault.SyncCells
import KeyVault.LockOrder
import KeyVault.LockedSections
import KeyVault.LockedVault
import KeyVault.SectionAtomicity
import KeyVault.VaultBuilder
import KeyVault.BuiltVault
import KeyVault.KeyBlind
import KeyVault.Noninterference
import KeyVault.UniformLaw
import KeyVault.RandomInvolution
