import Suspension.CommandLine.FileTree
import Suspension.Main
import Suspension.Proofs.Acceptance
import Suspension.Proofs.Arithmetic
import Suspension.Proofs.Binding.Runs
import Suspension.Proofs.Dumps.Reading
import Suspension.Proofs.Expansion.Containment
import Suspension.Proofs.Expansion.Correct
import Suspension.Proofs.Indexing
import Suspension.Proofs.Layout
import Suspension.Proofs.Nesting.Lowered
import Suspension.Proofs.Preparation.Builds
import Suspension.Proofs.Preparation.Edits
import Suspension.Proofs.Preparation.Moving
import Suspension.Proofs.Preparation.NormalForm
import Suspension.Proofs.Preparation.Occurrences
import Suspension.Proofs.Preparation.Regions
import Suspension.Proofs.Preparation.Spilling
import Suspension.Proofs.Reading.Symbols
import Suspension.Proofs.Reading.Trees
import Suspension.Proofs.Regions
import Suspension.Proofs.Resumption.Arrival
import Suspension.Proofs.Resumption.Landing
import Suspension.Proofs.Resumption.Track
import Suspension.Proofs.Rethrows.Runs
import Suspension.Proofs.Spilling.Evaluation
import Suspension.Proofs.States
import Suspension.Proofs.Steps.Adequacy
import Suspension.Proofs.Steps.Invariant
import Suspension.Proofs.Steps.Lockstep
import Suspension.Proofs.Steps.Searching
import Suspension.Proofs.Suspending.GivingUp
import Suspension.Proofs.Suspending.Limits
import Suspension.Proofs.Suspending.Stopping
import Suspension.Proofs.Unsuspended.Moves
import Suspension.Proofs.Waiting.Unobservable
import Suspension.Tree.Alike
