import Multipath.Main
import Multipath.Samples
import Multipath.Tree.Expectation
import Multipath.FileTree
import Multipath.Proofs.Ensures
import Multipath.Proofs.Exactness
import Multipath.Proofs.Recognition
import Multipath.Proofs.Selection
import Multipath.Proofs.Transparency
import Multipath.Proofs.AtRest
import Multipath.Proofs.Denotation
import Multipath.Proofs.NestingBound
import Multipath.Proofs.Normalization
import Multipath.Proofs.Contexts
import Multipath.Proofs.Termination
import Multipath.Proofs.Rereading
import Multipath.Proofs.LeftReferences
import Multipath.Proofs.Shifting
import Multipath.Proofs.Precedences
import Multipath.Proofs.WinningTrees
import Multipath.Proofs.Choices
import Multipath.Proofs.Stillness
import Multipath.Proofs.TreeDepths
import Multipath.Proofs.TransitionTables
import Multipath.Proofs.Tilings
import Multipath.Proofs.Replays
import Multipath.Proofs.Assembly
import Multipath.Proofs.LexicalAtoms
import Multipath.Proofs.FurthestFailures
import Multipath.Proofs.Drawings
import Multipath.Proofs.WrittenRules
import Multipath.Proofs.CanonicalPositions
