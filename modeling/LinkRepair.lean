import LinkRepair.Link
import LinkRepair.Proofs.Exploration.Causes
import LinkRepair.Proofs.Exploration.History
import LinkRepair.Proofs.Exploration.Recursion
import LinkRepair.Proofs.Exploration.Soundness
import LinkRepair.Proofs.Exploration.Types
import LinkRepair.Proofs.Forest.Built
import LinkRepair.Proofs.Forest.Naming
import LinkRepair.Proofs.Forest.Routes
import LinkRepair.Proofs.Repair.Again
import LinkRepair.Proofs.Repair.Agreement
import LinkRepair.Proofs.Repair.BreadthFirst
import LinkRepair.Proofs.Repair.Clashes
import LinkRepair.Proofs.Repair.Diagnostics
import LinkRepair.Proofs.Repair.Fidelity
import LinkRepair.Proofs.Repair.Idle
import LinkRepair.Proofs.Repair.Markers
import LinkRepair.Proofs.Repair.Remains
import LinkRepair.Proofs.Repair.Retouched
import LinkRepair.Proofs.Repair.Rewriting
import LinkRepair.Proofs.Repair.WellFormed
import LinkRepair.Proofs.Repair.Ancestry
import LinkRepair.Proofs.Repair.Reordering
import LinkRepair.Proofs.Repair.Termination
import LinkRepair.Proofs.Source.Locations
