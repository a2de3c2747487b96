import Confection.Main
import Confection.Proofs.Pattern.Language
import Confection.Proofs.Pattern.WellFormed
import Confection.Proofs.Pattern.Matching
import Confection.Proofs.Pattern.Candidates
import Confection.Proofs.Formula.Strings
import Confection.Proofs.Formula.Combinations
import Confection.Proofs.Formula.Distinct
import Confection.Proofs.Formula.Sampling
import Confection.Proofs.Text.Hex
import Confection.Proofs.Spelling.Pieces
import Confection.Proofs.Spelling.Trimming
import Confection.Proofs.Recipe
import Confection.Proofs.Pattern.Lexing
import Confection.Proofs.Pattern.Likeness
import Confection.Proofs.Spelling.Tokens
import Confection.Proofs.Formula.Direct
import Confection.Proofs.Formula.HexEscape
import Confection.Proofs.Pattern.Phrases
import Confection.Proofs.Pattern.Elements
import Confection.Proofs.Pattern.Respelling
import Confection.Proofs.Formula.Letters
import Confection.Proofs.Formula.Meaning
import Confection.Proofs.Formula.Reachable
import Confection.Proofs.Formula.Lengths
import Confection.Proofs.Formula.Attempts
import Confection.Proofs.Expression
import Confection.Proofs.Pantry.Insertions
import Confection.Proofs.Pantry.Resolution
import Confection.Proofs.Pantry.Values
import Confection.Proofs.Checked.Agreement
import Confection.Proofs.Formula.Safety
import Confection.Proofs.Pattern.Nesting
import Confection.Proofs.Pattern.Repetitions
import Confection.Proofs.Pattern.Following
import Confection.Proofs.Pattern.Composition
import Confection.Proofs.Pattern.Classes
import Confection.Proofs.Pattern.Printing
import Confection.Proofs.Legend.Assignment
import Confection.Proofs.Spelling.Layout
import Confection.Proofs.Document
import Confection.Proofs.CommandLine
