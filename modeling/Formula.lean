import Formula.Options.Written
import Formula.Session
import Formula.Token.Cursor
import Formula.Value.Json
import Formula.Proofs.Trees
import Formula.Proofs.Stack
import Formula.Proofs.TreeSemantics
import Formula.Proofs.FoldingTrees
import Formula.Proofs.SubstitutionTrees
import Formula.Proofs.Readers
import Formula.Proofs.Provenance
import Formula.Proofs.StackDiscipline
import Formula.Proofs.Likeness
import Formula.Proofs.Comparison
import Formula.Proofs.Simulation
import Formula.Proofs.Simplification
import Formula.Proofs.Phrase
import Formula.Proofs.Reading
import Formula.Proofs.Levels
import Formula.Proofs.Constructs
import Formula.Proofs.RoundTrip
import Formula.Proofs.Invariants
import Formula.Proofs.Regimes
import Formula.Proofs.Frame
import Formula.Proofs.Sandbox
import Formula.Proofs.Protection
import Formula.Proofs.Spelling
import Formula.Proofs.Writing
import Formula.Proofs.Blocks
import Formula.Proofs.Rounding
import Formula.Proofs.ShortestDecimals
import Formula.Proofs.NumberParts
import Formula.Proofs.DecimalTexts
import Formula.Proofs.Legibility
import Formula.Proofs.Rereading
import Formula.Proofs.CanonicalText
import Formula.Proofs.Refolding
import Formula.Proofs.Matching
import Formula.Proofs.Ceiling
import Formula.Proofs.Passive
import Formula.Proofs.Replacement
import Formula.Proofs.Scanning
import Formula.Proofs.Pairing
import Formula.Proofs.PairedReaders
import Formula.Proofs.Joining
import Formula.Proofs.Brackets
import Formula.Proofs.Composition
import Formula.Proofs.Operands
import Formula.Proofs.Raising
import Formula.Proofs.Nesting
import Formula.Proofs.Translation
import Formula.Proofs.Gating
import Formula.Proofs.Constants
import Formula.Proofs.References
import Formula.Proofs.Resolution
import Formula.Proofs.Capture
import Formula.Proofs.Influence
import Formula.Proofs.Cutting
import Formula.Proofs.Layout
import Formula.Proofs.Paths
import Formula.Proofs.Watching
import Formula.Proofs.Shadowing
import Formula.Proofs.Recursion
import Formula.Proofs.Numerals
import Formula.Proofs.NumberTexts
import Formula.Proofs.Tiling
import Formula.Proofs.Quoting
import Formula.Proofs.Simultaneous
import Formula.Proofs.Mentions
import Formula.Proofs.RemainingNames
import Formula.Proofs.Lookahead
import Formula.Proofs.Listings
import Formula.Proofs.SubstitutedNames
import Formula.Proofs.Sameness
import Formula.Proofs.SourceTexts
import Formula.Proofs.Lines
import Formula.Proofs.ErrorPlaces
