import Keymap.Branch
import Keymap.Branch.Progress
import Keymap.Captures
import Keymap.CharSet
import Keymap.Descriptor.Key
import Keymap.Descriptor.Mouse
import Keymap.Descriptor.Pieces
import Keymap.Error
import Keymap.Input
import Keymap.Key
import Keymap.Matcher
import Keymap.Notation
import Keymap.Notation.Expression
import Keymap.Notation.Literal
import Keymap.Notation.Token
import Keymap.Pattern
import Keymap.Program
import Keymap.Program.Code
import Keymap.Program.Emission
import Keymap.Proofs.Acceptance
import Keymap.Proofs.Agreement
import Keymap.Proofs.Brackets
import Keymap.Proofs.BranchTree
import Keymap.Proofs.CanonicalTexts
import Keymap.Proofs.CaptureTrees
import Keymap.Proofs.Coherence
import Keymap.Proofs.Commands
import Keymap.Proofs.Comments
import Keymap.Proofs.Compilation
import Keymap.Proofs.Completeness
import Keymap.Proofs.Composition
import Keymap.Proofs.Concatenation
import Keymap.Proofs.Deferral
import Keymap.Proofs.Dependence
import Keymap.Proofs.Derivation
import Keymap.Proofs.Descent
import Keymap.Proofs.Descriptors
import Keymap.Proofs.Discipline
import Keymap.Proofs.Erasure
import Keymap.Proofs.Expressible
import Keymap.Proofs.Faults
import Keymap.Proofs.Gaps
import Keymap.Proofs.Inlining
import Keymap.Proofs.Layout
import Keymap.Proofs.Leaves
import Keymap.Proofs.Limits
import Keymap.Proofs.Lines
import Keymap.Proofs.Lockstep
import Keymap.Proofs.Moments
import Keymap.Proofs.Moves
import Keymap.Proofs.Nesting
import Keymap.Proofs.Numerals
import Keymap.Proofs.OpenEnds
import Keymap.Proofs.Parts
import Keymap.Proofs.Places
import Keymap.Proofs.Positions
import Keymap.Proofs.Precedence
import Keymap.Proofs.Presence
import Keymap.Proofs.Prospects
import Keymap.Proofs.Provenance
import Keymap.Proofs.Quiescence
import Keymap.Proofs.Quiet
import Keymap.Proofs.Readings
import Keymap.Proofs.References
import Keymap.Proofs.RoundTrip
import Keymap.Proofs.RuleBodies
import Keymap.Proofs.RuleTexts
import Keymap.Proofs.Runs
import Keymap.Proofs.Scheduling
import Keymap.Proofs.Soundness
import Keymap.Proofs.Spelling
import Keymap.Proofs.Stacks
import Keymap.Proofs.Stops
import Keymap.Proofs.Styles
import Keymap.Proofs.Tallies
import Keymap.Proofs.Tandem
import Keymap.Proofs.TemplatePieces
import Keymap.Proofs.TerminalKeys
import Keymap.Proofs.Turns
import Keymap.Proofs.Unhindered
import Keymap.Proofs.Waiting
import Keymap.Proofs.Words
import Keymap.Proofs.Written
import Keymap.Session
import Keymap.Session.Pass
import Keymap.Session.Removal
import Keymap.Session.Work
import Keymap.Settings
import Keymap.Settings.Document
import Keymap.Template
import Keymap.Terminal
import Keymap.Terminal.Event
import Keymap.Terminal.Wording
import Keymap.Text.Blank
import Keymap.Text.Digits
import Keymap.Text.Escape
import Keymap.Text.Ranges
import Keymap.Text.Visible
import Keymap.Text.Word
import Keymap.Value
