import Bistro.Main
import Bistro.Proofs.Exec.Arithmetic
import Bistro.Proofs.Exec.Capped
import Bistro.Proofs.Exec.Compound
import Bistro.Proofs.Exec.Halting
import Bistro.Proofs.Exec.Hoisting
import Bistro.Proofs.Exec.Isolation
import Bistro.Proofs.Exec.Order
import Bistro.Proofs.Grammar.Conflict
import Bistro.Proofs.Parse.ErrorList
import Bistro.Proofs.Parse.OneFault
import Bistro.Proofs.Parse.OpenNodes
import Bistro.Proofs.Program.Failures
import Bistro.Proofs.Program.Integers
import Bistro.Proofs.Program.Lines
import Bistro.Proofs.Program.Precedence
import Bistro.Proofs.Program.Serving
import Bistro.Proofs.Scope.Discipline
import Bistro.Proofs.Session
import Bistro.Proofs.Token.Extent
