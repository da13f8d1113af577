import FieldRules.Rule
import FieldRules.Tree.Render
import FieldRules.Invocation
import FieldRules.Text.Uppercase
import FieldRules.Text.Hidden
import FieldRules.Number
import FieldRules.Value
import FieldRules.Checks
import FieldRules.Chain
import FieldRules.Json.Reader
import FieldRules.Json.Printer
import FieldRules.Token.Json
import FieldRules.Commands
import FieldRules.Main
import FieldRules.Proofs.Body
import FieldRules.Proofs.Unfolding
import FieldRules.Proofs.Evaluation
import FieldRules.Proofs.Parsing
import FieldRules.Proofs.Lexing
import FieldRules.Proofs.Splitting
import FieldRules.Proofs.Folding
import FieldRules.Proofs.UnknownChecks
import FieldRules.Proofs.Composition
import FieldRules.Proofs.Batches
import FieldRules.Proofs.Invocations
import FieldRules.Proofs.Chains
import FieldRules.Proofs.Redirection
import FieldRules.Proofs.Registrations
import FieldRules.Proofs.SharedNames
import FieldRules.Proofs.Comparison
import FieldRules.Proofs.FieldReads
import FieldRules.Proofs.Json.Quoting
import FieldRules.Proofs.Json.RoundTrip
import FieldRules.Proofs.TokenExchange
import FieldRules.Proofs.Json.Members
import FieldRules.Proofs.Json.Places
import FieldRules.Proofs.BatchAnswers
import FieldRules.Proofs.BatchEntries
import FieldRules.Proofs.SingleValues
import FieldRules.Proofs.Addresses
import FieldRules.Proofs.Numerals
import FieldRules.Proofs.Reports
import FieldRules.Proofs.Nearest
import FieldRules.Proofs.Literals
import FieldRules.Proofs.RoundedDecimals
import FieldRules.Proofs.ExactNumbers
import FieldRules.Proofs.Bounds
import FieldRules.Proofs.BoundOrder
import FieldRules.Proofs.Spellings
import FieldRules.Proofs.ShortestDigits
import FieldRules.Proofs.NativeNumbers
import FieldRules.Proofs.Widening
import FieldRules.Proofs.Preorder
import FieldRules.Proofs.Arenas
import FieldRules.Proofs.Renderings
import FieldRules.Proofs.Outlines
import FieldRules.Proofs.ClosedForm
import FieldRules.Proofs.Feeding
import FieldRules.Proofs.Negations
import FieldRules.Proofs.FieldOrder
import FieldRules.Proofs.InsertionOrder
import FieldRules.Proofs.WrittenInvocations
import FieldRules.Proofs.Layouts
import FieldRules.Proofs.ArenaCalls
import FieldRules.Proofs.EndlessGroups
