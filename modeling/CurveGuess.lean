import CurveGuess.Main
import CurveGuess.Session.Command
import CurveGuess.Proofs.Formal.Tidy
import CurveGuess.Proofs.Session.Accounts
import CurveGuess.Proofs.Target.Facts
import CurveGuess.Proofs.Target.Answer
import CurveGuess.Proofs.Session.Previews
import CurveGuess.Proofs.Session.Reload
import CurveGuess.Proofs.Grammar.Spans
import CurveGuess.Proofs.Grammar.Prefixes
import CurveGuess.Proofs.Grammar.Progress
import CurveGuess.Proofs.Grammar.Refusal
import CurveGuess.Proofs.Grammar.Spacing
import CurveGuess.Proofs.Lexing.Longest
import CurveGuess.Proofs.Share.Base64
import CurveGuess.Proofs.Share.Link
import CurveGuess.Proofs.Eval.Names
import CurveGuess.Proofs.Terminal.Tiers
import CurveGuess.Proofs.Target.Drawn
import CurveGuess.Proofs.Eval.Samples
import CurveGuess.Proofs.Formal.Unchanged
import CurveGuess.Proofs.Formal.Brackets
import CurveGuess.Proofs.Readable.Markup
import CurveGuess.Proofs.Traversal
import CurveGuess.Proofs.Eval.Blame
import CurveGuess.Proofs.Eval.Suggestions
import CurveGuess.Proofs.Random.Recurrence
import CurveGuess.Proofs.Random.Hash
import CurveGuess.Proofs.Facts.Summands
import CurveGuess.Proofs.Share.Creating
import CurveGuess.Proofs.Terminal.Store
import CurveGuess.Proofs.Terminal.Picture
import CurveGuess.Proofs.Terminal.Idle
import CurveGuess.Proofs.Terminal.Arguments
import CurveGuess.Proofs.Target.Daily
import CurveGuess.Proofs.Eval.Finite
import CurveGuess.Proofs.Readable.Braces
