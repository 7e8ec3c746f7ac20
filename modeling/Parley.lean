import Parley.Json.Printer
import Parley.Machine.Operation
import Parley.Main
import Parley.Proofs.Conduct
import Parley.Proofs.Discipline
import Parley.Session
import Parley.Proofs.Precedence
import Parley.Proofs.Bracketing
import Parley.Proofs.Preservation
import Parley.Proofs.Grammar
import Parley.Proofs.Proper
import Parley.Proofs.Safety
import Parley.Proofs.Places
import Parley.Proofs.Delivery
import Parley.Proofs.Direct
import Parley.Proofs.Refinement
import Parley.Proofs.Turn
import Parley.Proofs.Vigil
import Parley.Proofs.Decimals
import Parley.Proofs.Literals
import Parley.Proofs.Usage
import Parley.Proofs.Acceptance
import Parley.Proofs.Arrival
import Parley.Proofs.Budget
import Parley.Proofs.Limit
import Parley.Proofs.Wiring
import Parley.Proofs.Books
import Parley.Proofs.Translation
import Parley.Proofs.Network
import Parley.Proofs.Casting
import Parley.Proofs.Depiction
import Parley.Proofs.Confluence
import Parley.Proofs.Isolation
import Parley.Proofs.Iteration
import Parley.Proofs.Observation
import Parley.Proofs.Declarations
import Parley.Proofs.Likeness
import Parley.Proofs.Location
import Parley.Proofs.Lockstep
import Parley.Proofs.Routes
import Parley.Proofs.Scope
import Parley.Proofs.Tandem
import Parley.Proofs.Alone
import Parley.Proofs.Currying
import Parley.Proofs.Inlining
import Parley.Proofs.Reach
import Parley.Proofs.Readings
import Parley.Proofs.Reordering
import Parley.Proofs.Repetition
import Parley.Proofs.Hosting
import Parley.Proofs.Parties
import Parley.Proofs.Awaiting
import Parley.Proofs.Rendering
