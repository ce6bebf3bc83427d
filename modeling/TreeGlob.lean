import TreeGlob.Disk.Listing
import TreeGlob.Search.Fault
import TreeGlob.Search.Find
import TreeGlob.CommandLine.Program
import TreeGlob.Main
import TreeGlob.Proofs.CommandLine.Sorting
import TreeGlob.Proofs.CommandLine.Validation
import TreeGlob.Proofs.Disk.Fidelity
import TreeGlob.Proofs.Disk.Blaming
import TreeGlob.Proofs.Disk.Replacing
import TreeGlob.Proofs.Disk.Vanishing
import TreeGlob.Proofs.Pattern.Acceptance
import TreeGlob.Proofs.Pattern.Choices
import TreeGlob.Proofs.Pattern.Cuts
import TreeGlob.Proofs.Pattern.Casing
import TreeGlob.Proofs.Pattern.Folding
import TreeGlob.Proofs.Pattern.Normalizing
import TreeGlob.Proofs.Pattern.Partners
import TreeGlob.Proofs.Pattern.Pruning
import TreeGlob.Proofs.Pattern.Shape
import TreeGlob.Proofs.Pattern.Writing
import TreeGlob.Proofs.Search.FastForward
import TreeGlob.Proofs.Search.Failures
import TreeGlob.Proofs.Search.Faults
import TreeGlob.Proofs.Search.Need
import TreeGlob.Proofs.Search.Protocol
import TreeGlob.Proofs.Selection.Slicing
