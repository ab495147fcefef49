import Quell.Main
import Quell.Proofs.Annotate.Again
import Quell.Proofs.Annotate.Alike
import Quell.Proofs.Annotate.Comments
import Quell.Proofs.Annotate.Faithful
import Quell.Proofs.Annotate.Governs
import Quell.Proofs.Annotate.Idle
import Quell.Proofs.Annotate.Order
import Quell.Proofs.Annotate.Program
import Quell.Proofs.Annotate.Raised
import Quell.Proofs.Annotate.Shape
import Quell.Proofs.Annotate.Tail
import Quell.Proofs.Annotate.Twice
import Quell.Proofs.Config
import Quell.Proofs.Directive.Codec
import Quell.Proofs.Document.Owner
import Quell.Proofs.Document.Target
import Quell.Proofs.Json.Records
import Quell.Proofs.Lint
import Quell.Proofs.Markup.Unchanged
import Quell.Proofs.Print.Alike
import Quell.Proofs.Print.Change
import Quell.Proofs.Print.LineComment
import Quell.Proofs.Print.Terminator
import Quell.Proofs.Print.Whole
import Quell.Proofs.Run
import Quell.Proofs.Scan
import Quell.Proofs.Source.Reading
import Quell.Proofs.Source.RoundTrip
import Quell.Proofs.Text.Fragments
import Quell.Service
