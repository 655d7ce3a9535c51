import Sentential.Main
import Sentential.Workbench
import Sentential.Proofs.Extensionality
import Sentential.Proofs.Evaluation
import Sentential.Proofs.Shape
import Sentential.Proofs.NegationNormal
import Sentential.Proofs.Distribution
import Sentential.Proofs.NormalForms
import Sentential.Proofs.Clause
import Sentential.Proofs.Validity
import Sentential.Proofs.Grammar
import Sentential.Proofs.Climbing
import Sentential.Proofs.Lexing
import Sentential.Proofs.RoundTrip
import Sentential.Proofs.Models
import Sentential.Proofs.Agreement
import Sentential.Proofs.LeftmostFault
import Sentential.Proofs.Printing
import Sentential.Proofs.Endings
import Sentential.Proofs.CrossProduct
import Sentential.Proofs.Refusals
import Sentential.Proofs.LongestMatch
import Sentential.Proofs.Spelling
import Sentential.Proofs.Termination
import Sentential.Proofs.Context
import Sentential.Proofs.Projection
import Sentential.Proofs.Duality
import Sentential.Proofs.Polarity
import Sentential.Proofs.Complement
import Sentential.Proofs.Shortcut
import Sentential.Proofs.Traversal
import Sentential.Proofs.Coincidence
import Sentential.Proofs.Counting
import Sentential.Proofs.Entries
import Sentential.Proofs.AssignmentText
import Sentential.Proofs.Hierarchy
import Sentential.Proofs.Letters
import Sentential.Proofs.Progress
