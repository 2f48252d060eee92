import AArch64.Emitter.Operation
import AArch64.Interchange
import AArch64.Main
import AArch64.Proofs.Building
import AArch64.Proofs.OperationFrame
import AArch64.Stream.Dispatcher
import AArch64.Proofs.FormSelection
import AArch64.Proofs.InstructionSets
import AArch64.Proofs.Reencoding
import AArch64.Proofs.Lockstep
import AArch64.Proofs.Simplification
import AArch64.Proofs.Faults
import AArch64.Proofs.Observers
import AArch64.Proofs.Listing
import AArch64.Proofs.Scopes
import AArch64.Proofs.CapabilityState
import AArch64.Proofs.Independence
import AArch64.Proofs.Demand
import AArch64.Proofs.Compactness
import AArch64.Proofs.Additions
import AArch64.Proofs.Provenance
import AArch64.Proofs.Transfers
import AArch64.Proofs.Materialization
import AArch64.Proofs.Combinations
import AArch64.Proofs.Streams
import AArch64.Proofs.Capabilities
import AArch64.Proofs.RegisterMoves
import AArch64.Proofs.MixedWidths
import AArch64.Proofs.Acceptance
import AArch64.Proofs.Enumeration
import AArch64.Proofs.Numerals
import AArch64.Proofs.Routes
import AArch64.Proofs.SignExtension
import AArch64.Proofs.CheckedLowering
