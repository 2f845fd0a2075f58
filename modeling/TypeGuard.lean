import TypeGuard.Main
import TypeGuard.Command.Disk
import TypeGuard.Proofs.Declarations
import TypeGuard.Proofs.Enumeration
import TypeGuard.Proofs.Faults
import TypeGuard.Proofs.Identifiers
import TypeGuard.Proofs.Labels
import TypeGuard.Proofs.Order
import TypeGuard.Proofs.Policies
import TypeGuard.Proofs.Termination
import TypeGuard.Proofs.Limits
import TypeGuard.Proofs.Refusal
import TypeGuard.Proofs.Accounts
import TypeGuard.Proofs.Calls
import TypeGuard.Proofs.Scoping
import TypeGuard.Proofs.History
import TypeGuard.Proofs.Closure
import TypeGuard.Proofs.Expandability
import TypeGuard.Proofs.Substitution
import TypeGuard.Proofs.Answers
import TypeGuard.Proofs.Observation
import TypeGuard.Proofs.SharedRefusal
import TypeGuard.Proofs.Unlabelled
import TypeGuard.Proofs.Relabelling
import TypeGuard.Proofs.Annotations
import TypeGuard.Proofs.Depth
import TypeGuard.Proofs.Markers
import TypeGuard.Proofs.Literals
import TypeGuard.Proofs.FirstDraw
import TypeGuard.Proofs.Requests
