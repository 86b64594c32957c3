import MakeBlueprint.Main
import MakeBlueprint.Proofs.Confinement
import MakeBlueprint.Proofs.Isolation.Exact
import MakeBlueprint.Proofs.Lifecycle.Run
import MakeBlueprint.Proofs.Typing.Conversion
import MakeBlueprint.Proofs.Coercion.Evaluation
import MakeBlueprint.Proofs.Reading.Grammar
import MakeBlueprint.Proofs.Reading.Lines
import MakeBlueprint.Proofs.Reading.Layout
import MakeBlueprint.Proofs.Reading.Spans
import MakeBlueprint.Proofs.Reading.Coverage
import MakeBlueprint.Proofs.Reading.Moved
import MakeBlueprint.Proofs.Reading.Followed
import MakeBlueprint.Proofs.Reading.Blocks
import MakeBlueprint.Proofs.Reading.Reported
import MakeBlueprint.Proofs.Reading.Concatenation
import MakeBlueprint.Proofs.Reading.Recovery
import MakeBlueprint.Proofs.Reading.Plain
import MakeBlueprint.Proofs.Reading.Fits
import MakeBlueprint.Proofs.Reading.Phrases
import MakeBlueprint.Proofs.Reading.Trimming
import MakeBlueprint.Proofs.Reading.Writable
import MakeBlueprint.Proofs.Reading.Spelled
import MakeBlueprint.Proofs.Reading.Written.Basic
import MakeBlueprint.Proofs.Reading.Written.Assignment
import MakeBlueprint.Proofs.Reading.Written.Rule
import MakeBlueprint.Proofs.Reading.Written.Directive
import MakeBlueprint.Proofs.Reading.RoundTrip
import MakeBlueprint.Proofs.Reading.Targeted
import MakeBlueprint.Proofs.Conversion.Globals
import MakeBlueprint.Proofs.Globals
import MakeBlueprint.Proofs.Coercion.Names
import MakeBlueprint.Proofs.Conversion.Trees
import MakeBlueprint.Proofs.Names
import MakeBlueprint.Proofs.Printing.Lines
import MakeBlueprint.Proofs.Printing.Pieces
import MakeBlueprint.Proofs.Printing.Unambiguous
import MakeBlueprint.Proofs.Reading.Breaks
import MakeBlueprint.Proofs.Comments
import MakeBlueprint.Proofs.Coercion.Refusals
import MakeBlueprint.Proofs.Typing.References
import MakeBlueprint.Proofs.Conditionals.History
import MakeBlueprint.Proofs.Conditionals.Switches
import MakeBlueprint.Proofs.Conditionals.Nesting
import MakeBlueprint.Proofs.Reading.Abreast.Tokens
import MakeBlueprint.Proofs.Reading.Abreast.Phrases
import MakeBlueprint.Proofs.Reading.Abreast.Blocks
import MakeBlueprint.Proofs.Reading.Abreast.Statements
import MakeBlueprint.Proofs.Reading.Abreast.Documents
import MakeBlueprint.Proofs.Reading.Continuations
import MakeBlueprint.Proofs.Reading.RecipeLines
import MakeBlueprint.Proofs.Reading.Padded.Cursors
import MakeBlueprint.Proofs.Reading.Padded.Phrases
import MakeBlueprint.Proofs.Reading.Padded.Blocks
import MakeBlueprint.Proofs.Reading.Padded.Statements
import MakeBlueprint.Proofs.Reading.TrailingBlanks
import MakeBlueprint.Proofs.Reading.Returns
import MakeBlueprint.Proofs.Conversion.Positions
import MakeBlueprint.Proofs.Conversion.Quotes
import MakeBlueprint.Proofs.LineEndings
import MakeBlueprint.Proofs.Conversion.Ordered
import MakeBlueprint.Proofs.Ordering
import MakeBlueprint.Proofs.Printing.Inside
import MakeBlueprint.Proofs.Conversion.Recast
import MakeBlueprint.Proofs.Lifecycle.Unclosed
import MakeBlueprint.Proofs.Reading.Loops
import MakeBlueprint.Proofs.Reading.Sound
import MakeBlueprint.Proofs.Reading.Progress
import MakeBlueprint.Proofs.Reading.LineIndex
import MakeBlueprint.Proofs.Reading.Total
import MakeBlueprint.Proofs.Property.Leaves
import MakeBlueprint.Proofs.Typing.Leaves
import MakeBlueprint.Proofs.Coercion.Joining
import MakeBlueprint.Proofs.Assignments.Accepted
import MakeBlueprint.Proofs.Assignments.Replacing
import MakeBlueprint.Proofs.Assignments.InPlace
import MakeBlueprint.Proofs.Assignments.Lists
import MakeBlueprint.Proofs.Assignments.Gathering
import MakeBlueprint.Proofs.Assignments.Appending
import MakeBlueprint.Proofs.LocalNames
import MakeBlueprint.Proofs.Coercion.Directories
import MakeBlueprint.Proofs.Assignments.Outside
import MakeBlueprint.Proofs.Conditionals.Assigning
import MakeBlueprint.Proofs.Coercion.Variables
import MakeBlueprint.Proofs.Coercion.Stems
import MakeBlueprint.Proofs.Coercion.RelativePaths
import MakeBlueprint.Proofs.Reading.Tokenization
import MakeBlueprint.Proofs.Reading.Definitions
import MakeBlueprint.Proofs.Reading.Verbatim
import MakeBlueprint.Proofs.Reading.Assigned
import MakeBlueprint.Proofs.Reading.RecipeParts
import MakeBlueprint.Proofs.Reading.RecipeExtent
import MakeBlueprint.Proofs.Splitting
import MakeBlueprint.Proofs.Coercion.Addition
import MakeBlueprint.Proofs.Reading.Located
import MakeBlueprint.Proofs.Property.Levels
import MakeBlueprint.Proofs.Assignments.Setting
