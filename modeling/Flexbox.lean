import Flexbox.Main
import Flexbox.Node.Measure
import Flexbox.Proofs.Doubling
import Flexbox.Proofs.Recalling
import Flexbox.Proofs.Failures
import Flexbox.Proofs.Renewal
import Flexbox.Proofs.Mirror.Layouts
import Flexbox.Proofs.Fixture.Comments
import Flexbox.Proofs.Fixture.Locality
import Flexbox.Proofs.Fixture.Places
import Flexbox.Proofs.Omission.Layouts
import Flexbox.Proofs.Precedence
import Flexbox.Proofs.Freezing.Reordering
import Flexbox.Proofs.Freezing.LoneItem
import Flexbox.Proofs.Freezing.Shrinking
import Flexbox.Proofs.LineRanges
import Flexbox.Proofs.Loops.Acyclicity
import Flexbox.Proofs.Overflow
import Flexbox.Proofs.Snapping
import Flexbox.Proofs.Soiling
import Flexbox.Proofs.Comparing
import Flexbox.Proofs.Strictness
import Flexbox.Proofs.ContentBox
import Flexbox.Proofs.Restretching
