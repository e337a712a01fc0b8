import Clausal.Main
import Clausal.Session
import Clausal.Formula.Text
import Clausal.Proofs.Search.Visit
import Clausal.Proofs.Clause
import Clausal.Proofs.Search.State
import Clausal.Proofs.Search.Steps
import Clausal.Proofs.Search.Calls
import Clausal.Proofs.Search.Scanning
import Clausal.Proofs.Cnf
import Clausal.Proofs.Encoding.Extension
import Clausal.Proofs.Encoding.Unknown
import Clausal.Proofs.Encoding.Composition
import Clausal.Proofs.Search.Oracle
import Clausal.Proofs.Session
import Clausal.Proofs.Enumeration
import Clausal.Proofs.Search.Agreement
import Clausal.Proofs.Dimacs.RoundTrip
import Clausal.Proofs.Dimacs.Lines
import Clausal.Proofs.Dimacs.Grammar
import Clausal.Proofs.Dimacs.Reading
import Clausal.Proofs.Search.Termination
import Clausal.Proofs.CommandLine
import Clausal.Proofs.Dimacs.Embedding
import Clausal.Proofs.Lifting
import Clausal.Proofs.Rounds
import Clausal.Proofs.Search.Lexicographic
import Clausal.Proofs.Search.Recall
import Clausal.Proofs.Encoding.DoubleNegation
import Clausal.Proofs.Encoding.Shift
import Clausal.Proofs.Search.Accounting
import Clausal.Proofs.Encoding.Gates
import Clausal.Proofs.Encoding.Size
import Clausal.Proofs.LiteralSets
import Clausal.Proofs.Readability
import Clausal.Proofs.Search.Seeds
import Clausal.Proofs.Search.Restoring
import Clausal.Proofs.Search.Registry
import Clausal.Proofs.Search.Trail
import Clausal.Proofs.Search.Discarding
