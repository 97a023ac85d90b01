import Pseudocode.Main
import Pseudocode.Proofs.InlineGrouping
import Pseudocode.Proofs.AssignmentTarget
import Pseudocode.Proofs.LiteralSpans
import Pseudocode.Proofs.SpellingOrder
import Pseudocode.Proofs.Grouping
import Pseudocode.Proofs.CarriedComment
import Pseudocode.Proofs.Grounded
import Pseudocode.Proofs.DefinedHelpers
import Pseudocode.Proofs.Scoping
import Pseudocode.Proofs.ScriptFile
import Pseudocode.Proofs.CheckReport
import Pseudocode.Proofs.RecordOrder
import Pseudocode.Proofs.ClosingBracket
import Pseudocode.Proofs.IssuedPlaceholder
