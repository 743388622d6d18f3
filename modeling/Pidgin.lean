import Pidgin.Frontend
import Pidgin.Tree.Dump
import Pidgin.Tree.Equality
import Pidgin.Proofs.Parse.Reach
import Pidgin.Proofs.Parse.Recovery
import Pidgin.Proofs.Grammar.Phrase
import Pidgin.Proofs.Parse.Clean
import Pidgin.Proofs.Grammar.Climb
import Pidgin.Proofs.Grammar.Descent
import Pidgin.Proofs.Grammar.Program
import Pidgin.Proofs.Token.Spelling
import Pidgin.Proofs.Token.Tiling
import Pidgin.Proofs.Grammar.Limit
import Pidgin.Proofs.Grammar.Height
import Pidgin.Proofs.Parse.Blame
import Pidgin.Proofs.Grammar.Completion
import Pidgin.Proofs.Prefix.Pinpoint
import Pidgin.Proofs.Prefix.Climb
import Pidgin.Proofs.Prefix.Descent
import Pidgin.Proofs.Prefix.Program
import Pidgin.Proofs.Parse.Progress
import Pidgin.Proofs.Source.Place
import Pidgin.Proofs.Token.Place
import Pidgin.Proofs.Token.Boundary
import Pidgin.Proofs.Token.Lines
import Pidgin.Proofs.Token.Failure
import Pidgin.Proofs.Token.Inscription
import Pidgin.Proofs.Diagnostic.Caret
import Pidgin.Proofs.Tree.WellFormed
import Pidgin.Proofs.Grammar.WellFormed
import Pidgin.Proofs.Tree.Written
import Pidgin.Proofs.Grammar.Written
import Pidgin.Proofs.Grammar.Parentheses
import Pidgin.Proofs.Grammar.RoundTrip
import Pidgin.Proofs.Tree.Positions
import Pidgin.Proofs.Parse.Drift
import Pidgin.Proofs.Parse.Lockstep
import Pidgin.Proofs.Parse.Mirror
import Pidgin.Proofs.Parse.Readings
import Pidgin.Proofs.Parse.Sequence
import Pidgin.Proofs.Diagnostic.Truth
import Pidgin.Proofs.Parse.Isolation
import Pidgin.Proofs.Parse.Composition
import Pidgin.Proofs.Parse.Session
import Pidgin.Proofs.Parse.Panic
import Pidgin.Proofs.Parse.Chain
import Pidgin.Proofs.Tree.Label
import Pidgin.Proofs.Tree.Dump
import Pidgin.Proofs.Numeral.Integer
