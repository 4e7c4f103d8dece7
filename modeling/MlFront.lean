import MlFront.CommandLine.Folder
import MlFront.Main
import MlFront.Proofs.Error.Blame
import MlFront.Proofs.Error.Completion
import MlFront.Proofs.Error.Limits
import MlFront.Proofs.Parser.Fuel
import MlFront.Proofs.Parser.Layout
import MlFront.Proofs.Precedence.Climb
import MlFront.Proofs.Printer.Image
import MlFront.Proofs.Session.Invariant
import MlFront.Proofs.Token.Munch
import MlFront.Proofs.Token.Render
import MlFront.Session
import MlFront.Proofs.Tree.Height
import MlFront.Proofs.Parser.Builds
import MlFront.Proofs.Text.Written
import MlFront.Proofs.Tree.Walk
import MlFront.Proofs.Printer.Outline
import MlFront.Proofs.Error.Report
import MlFront.Proofs.Token.Significant
import MlFront.Proofs.Text.Bytes
import MlFront.Proofs.Text.Pattern
import MlFront.Proofs.Text.Comments
import MlFront.Proofs.Text.Numbering
import MlFront.Proofs.Token.Starts
