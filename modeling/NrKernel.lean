import NrKernel.Lib.PartialMap
import NrKernel.Lib.Transition
import NrKernel.Lib.Tokens
import NrKernel.NodeReplication.Linearization
import NrKernel.NodeReplication.UnboundedLogRefinesSimpleLog
import NrKernel.NodeReplication.NrLogRefinesUnboundedLog
import NrKernel.NodeReplication.GarbageCollection
import NrKernel.NodeReplication.NrLogRequests
import NrKernel.NodeReplication.QueueMatching
import NrKernel.NodeReplication.FlatCombiner
import NrKernel.NodeReplication.AliveBits
import NrKernel.NodeReplication.RwLockSpec
import NrKernel.NodeReplication.RwLock
import NrKernel.NodeReplication.RwLockRefinesSpec
import NrKernel.NodeReplication.RwLockProgress
import NrKernel.NodeReplication.Replica
import NrKernel.NodeReplication.ReplicaInvariant
import NrKernel.NodeReplication.ReplicaSteps
import NrKernel.NodeReplication.ReplicaRounds
import NrKernel.NodeReplication.ReplicaRefinesNrLog
import NrKernel.NodeReplication.ReplicaProgress
import NrKernel.NodeReplication.RequestHistory
import NrKernel.NodeReplication.ReplicaReads
import NrKernel.NodeReplication.UpdateResults
import NrKernel.NodeReplication.FlatCombining
import NrKernel.NodeReplication.RidsMatch
import NrKernel.NodeReplication.SlotHandOver
import NrKernel.NodeReplication.CombinerBuffers
import NrKernel.NodeReplication.CombiningRound
import NrKernel.NodeReplication.BatchResponses
import NrKernel.NodeReplication.IndexArithmetic
import NrKernel.Lib.WordBits
import NrKernel.PageTable.Refinement
import NrKernel.PageTable.Resolve
import NrKernel.PageTable.DirectoryRefinement
import NrKernel.PageTable.CanonicalForm
import NrKernel.PageTable.EntryEncoding
import NrKernel.PageTable.FailedCalls
import NrKernel.PageTable.AllocationBudget
import NrKernel.PageTable.PageAccounting
import NrKernel.PageTable.SingleWrite
import NrKernel.PageTable.Footprint
import NrKernel.PageTable.RecursionBounds
import NrKernel.PageTable.Interface
import NrKernel.OS.Machine
import NrKernel.OS.ReadYourWrites
import NrKernel.OS.TlbDomain
import NrKernel.OS.Refinement
import NrKernel.OS.RequestSoundness
import NrKernel.OS.PageBudget
import NrKernel.OS.Admission
import NrKernel.OS.CoreAccess
import NrKernel.OS.Shootdown
import NrKernel.NodeReplication.ReplicaLinearizability
import NrKernel.NodeReplication.ReplicatedCounter
import NrKernel.NodeReplication.Registration
import NrKernel.OS.KernelProgress
import NrKernel.OS.KernelMemory
