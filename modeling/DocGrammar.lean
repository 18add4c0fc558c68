import DocGrammar.Doc.Dump
import DocGrammar.Doc.Lookup
import DocGrammar.Grammar.Dump
import DocGrammar.Main
import DocGrammar.Proofs.Children.InPlace
import DocGrammar.Proofs.Children.Lookup
import DocGrammar.Proofs.Decimals.Atoms
import DocGrammar.Proofs.Diagnostics.Brackets
import DocGrammar.Proofs.Diagnostics.Malformed
import DocGrammar.Proofs.Diagnostics.Scoping
import DocGrammar.Proofs.Direct.Keywords
import DocGrammar.Proofs.Drivers.Afterwards
import DocGrammar.Proofs.Drivers.History
import DocGrammar.Proofs.Drivers.Whole
import DocGrammar.Proofs.Fluff.Longest
import DocGrammar.Proofs.Integers.Literals
import DocGrammar.Proofs.Modifiers.Nesting
import DocGrammar.Proofs.Modifiers.Results
import DocGrammar.Proofs.Passive
import DocGrammar.Proofs.Peg.Adequacy
import DocGrammar.Proofs.Printing.RoundTrip
import DocGrammar.Proofs.Printing.Stability
import DocGrammar.Proofs.Rollback.Values
import DocGrammar.Proofs.Termination.Finite
import DocGrammar.Proofs.Text.Clipping
import DocGrammar.Proofs.Text.Documents
import DocGrammar.Proofs.Text.Escapes
import DocGrammar.Proofs.Tracing.Bracketed
