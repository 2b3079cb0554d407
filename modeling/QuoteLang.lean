import QuoteLang.Main
import QuoteLang.Value.Equality
import QuoteLang.Proofs.Spelling.Sound
import QuoteLang.Proofs.Spelling.Complete
import QuoteLang.Proofs.Ensures
import QuoteLang.Proofs.Frame
import QuoteLang.Proofs.Expansion
import QuoteLang.Proofs.Point
import QuoteLang.Proofs.Data
import QuoteLang.Proofs.Trace
import QuoteLang.Proofs.Returns
import QuoteLang.Proofs.Writes
import QuoteLang.Proofs.Errors
import QuoteLang.Proofs.Printing
import QuoteLang.Proofs.Printing.Program
import QuoteLang.Proofs.Printing.Value
import QuoteLang.Proofs.Repeat
import QuoteLang.Proofs.Macros
import QuoteLang.Proofs.Failures
import QuoteLang.Proofs.Lookahead
import QuoteLang.Proofs.Sequence
import QuoteLang.Proofs.Batch
import QuoteLang.Proofs.Templates
import QuoteLang.Proofs.Tiling
import QuoteLang.Proofs.EndOfText
import QuoteLang.Proofs.Completion
import QuoteLang.Proofs.FirstError
import QuoteLang.Proofs.Substitution
import QuoteLang.Proofs.Order
import QuoteLang.Proofs.ShortCircuit
import QuoteLang.Proofs.Unwinding
import QuoteLang.Proofs.Visits
import QuoteLang.Proofs.Quotations
import QuoteLang.Proofs.Outcomes
import QuoteLang.Proofs.Seams
import QuoteLang.Proofs.Arithmetic
import QuoteLang.Proofs.HashKey
import QuoteLang.Proofs.Equality
import QuoteLang.Proofs.Hashes
import QuoteLang.Proofs.ByteOrder
import QuoteLang.Proofs.ScopeChains
import QuoteLang.Proofs.Agreement
import QuoteLang.Proofs.Blind
import QuoteLang.Proofs.Unused
import QuoteLang.Proofs.ProgramCall
import QuoteLang.Proofs.Exhaustion
import QuoteLang.Proofs.Nesting
import QuoteLang.Proofs.Halting
import QuoteLang.Proofs.Folds
import QuoteLang.Proofs.Arrays
import QuoteLang.Proofs.Conversation
import QuoteLang.Proofs.Context
import QuoteLang.Proofs.Growth
import QuoteLang.Proofs.Hosts
