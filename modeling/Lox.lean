import Lox.Main
import Lox.Proofs.Run.Cells
import Lox.Proofs.Run.Assignment
import Lox.Proofs.Run.Renamed
import Lox.Proofs.Syntax.Completeness
import Lox.Proofs.Run.Dialogue
import Lox.Proofs.Run.ActiveFrame
import Lox.Proofs.Run.Rejection
import Lox.Proofs.Token.Stream
import Lox.Proofs.Run.Inheritance
import Lox.Proofs.Run.Identity
import Lox.Proofs.Run.Outcomes
import Lox.Proofs.Run.Returns
import Lox.Proofs.Syntax.Order
import Lox.Proofs.Syntax.Lockstep
import Lox.Proofs.Syntax.Recovery
import Lox.Proofs.Run.Globals
import Lox.Proofs.Run.AsWritten
import Lox.Proofs.Token.Layout
import Lox.Proofs.Store.Laws
import Lox.Proofs.Run.Lookup
import Lox.Proofs.Syntax.Termination
import Lox.Proofs.Run.Arity
import Lox.Proofs.Run.Shapes
import Lox.Proofs.Run.Chains
import Lox.Proofs.Syntax.Readable
