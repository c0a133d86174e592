import Excise.Files.Parsing
import Excise.Main
import Excise.Proofs.Backup.Runs
import Excise.Proofs.Command.Terminators
import Excise.Proofs.Edit.Retention
import Excise.Proofs.Flow.Renaming
import Excise.Proofs.Flow.Untouched
import Excise.Proofs.Names.Scoping
import Excise.Proofs.Plan.Declarators
import Excise.Proofs.Plan.Relevance
import Excise.Text.Icons
import Excise.Proofs.Backup.LastCopies
import Excise.Proofs.Command.Restoring
import Excise.Proofs.Command.Reversal
import Excise.Proofs.Plan.Enclosing
import Excise.Proofs.Usage.Written
import Excise.Proofs.Flow.Chained
import Excise.Proofs.Flow.Distance
import Excise.Proofs.Edit.Splitting
import Excise.Proofs.Names.Classes
import Excise.Proofs.Flow.Comments
import Excise.Proofs.Edit.Order
import Excise.Proofs.Edit.Decoding
import Excise.Proofs.Edit.Counting
import Excise.Proofs.Backup.Turns
import Excise.Proofs.Backup.Log
import Excise.Proofs.Names.Descent
import Excise.Proofs.Names.Filling
import Excise.Proofs.Files.Discovery
import Excise.Proofs.Settings.Validity
import Excise.Proofs.Text.Icons
import Excise.Proofs.Edit.Overlaps
import Excise.Proofs.Edit.LineExtent
import Excise.Proofs.Syntax.PatternWalk
