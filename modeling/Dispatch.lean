import Dispatch.Method
import Dispatch.Interner
import Dispatch.Table
import Dispatch.Symbol.Demangle
import Dispatch.Symbol.Digest
import Dispatch.Code.Text
import Dispatch.Code.Builder
import Dispatch.Abi.Lowering
import Dispatch.Hierarchy.Slots
import Dispatch.Options
import Dispatch.Thunk.Explosion
import Dispatch.Thunk.Registry
import Dispatch.Module
import Dispatch.Machine.Call
import Dispatch.Machine.Script
import Dispatch.Proofs.Fidelity
import Dispatch.Proofs.LookupAgreement
import Dispatch.Proofs.SlotStability
import Dispatch.Proofs.Overriding
import Dispatch.Proofs.FailurePath
import Dispatch.Proofs.SymbolIdentity
import Dispatch.Proofs.Emission
import Dispatch.Proofs.DirectCalls
import Dispatch.Proofs.RequestOrder
import Dispatch.Proofs.WriteOnce
import Dispatch.Proofs.PointerRecords
import Dispatch.Proofs.LookupScope
import Dispatch.Proofs.Packing.Lossless
import Dispatch.Proofs.Frames.Tiling
import Dispatch.Proofs.Escapes
import Dispatch.Proofs.Demangling
import Dispatch.Proofs.Memory.Overruns
import Dispatch.Proofs.Walks
import Dispatch.Proofs.Conformances
import Dispatch.Proofs.Substitution
import Dispatch.Proofs.Flattening
import Dispatch.Proofs.Code.SingleAssignment
import Dispatch.Proofs.Code.Listing
import Dispatch.Proofs.Interning
import Dispatch.Proofs.Thunk.Roles
