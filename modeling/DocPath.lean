import DocPath.Path.Live
import DocPath.Command.Arguments
import DocPath.Command.Run
import DocPath.Main
import DocPath.Proofs.Document.Child
import DocPath.Proofs.Document.Frame
import DocPath.Proofs.Document.Dropped
import DocPath.Proofs.Document.Prune
import DocPath.Proofs.Document.Stored
import DocPath.Proofs.Document.Clearing
import DocPath.Proofs.Document.Removal
import DocPath.Proofs.Document.Growth
import DocPath.Proofs.Destructor.RoundTrip
import DocPath.Proofs.Pattern.Equations
import DocPath.Proofs.Pattern.Grammar
import DocPath.Proofs.Pattern.Printing
import DocPath.Proofs.Pattern.Spelling
import DocPath.Proofs.Pattern.RoundTrip
import DocPath.Proofs.Pattern.Source
import DocPath.Proofs.Pattern.Meaning
import DocPath.Proofs.Pattern.Order
import DocPath.Proofs.Path.Cache
import DocPath.Proofs.Pattern.Nesting
import DocPath.Proofs.Pattern.Score
import DocPath.Proofs.Pattern.Counter
import DocPath.Proofs.Pattern.Exclusion
import DocPath.Proofs.Pattern.Literal
import DocPath.Proofs.Pattern.Range
import DocPath.Proofs.Path.Live
import DocPath.Proofs.Path.Terminal
import DocPath.Proofs.Path.HandBack
import DocPath.Proofs.Path.Sequence
import DocPath.Proofs.Path.Prefix
import DocPath.Proofs.Path.Arguments
import DocPath.Proofs.Store.Save
import DocPath.Proofs.Store.ReadBack
import DocPath.Proofs.Destructor.Leaves
import DocPath.Proofs.Path.Names
import DocPath.Proofs.Pattern.Derivation
import DocPath.Proofs.Pattern.Run
import DocPath.Proofs.Pattern.Widening
import DocPath.Proofs.Pattern.Classification
import DocPath.Proofs.Pattern.Coverage
import DocPath.Proofs.Json.RoundTrip
