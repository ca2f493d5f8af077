import Chomsky.Grammar.Lemmas
import Chomsky.Main
import Chomsky.Options.OfJson
import Chomsky.Proofs.Language
import Chomsky.Proofs.Nullable
import Chomsky.Proofs.EmptyTree
import Chomsky.Proofs.NullableRounds
import Chomsky.Proofs.Epsilon
import Chomsky.Proofs.Variants
import Chomsky.Proofs.Limit
import Chomsky.Proofs.UnitPairs
import Chomsky.Proofs.Unit
import Chomsky.Proofs.UnitPairSteps
import Chomsky.Proofs.UnitDistance
import Chomsky.Proofs.Inheritance
import Chomsky.Proofs.Abbreviation
import Chomsky.Proofs.Binary
import Chomsky.Proofs.Isolation
import Chomsky.Proofs.NormalForm
import Chomsky.Proofs.Conversion
import Chomsky.Proofs.Introduced
import Chomsky.Proofs.Independence
import Chomsky.Proofs.Capture
import Chomsky.Proofs.FreshNames
import Chomsky.Proofs.Drawing
import Chomsky.Proofs.Unfolding
import Chomsky.Proofs.Distinct
import Chomsky.Proofs.Idle
import Chomsky.Proofs.Normalization
import Chomsky.Proofs.FixedPoint
import Chomsky.Proofs.Naming
import Chomsky.Proofs.Canonical
import Chomsky.Proofs.Entries
import Chomsky.Proofs.Redefinition
import Chomsky.Proofs.RuleLines
import Chomsky.Proofs.Forms
import Chomsky.Proofs.RoundTrip
import Chomsky.Proofs.Sourced
import Chomsky.Proofs.ErasedMarkers
import Chomsky.Proofs.AlternativeWarnings
import Chomsky.Proofs.Edits
import Chomsky.Proofs.Decoding
import Chomsky.Proofs.Passage
import Chomsky.Proofs.Quotation
import Chomsky.Proofs.FaultLines
import Chomsky.Proofs.Digits
import Chomsky.Proofs.Rereading
import Chomsky.Proofs.Breadth
import Chomsky.Proofs.Numbering
import Chomsky.Proofs.DocumentText
import Chomsky.Proofs.Files
import Chomsky.Proofs.Atomicity
