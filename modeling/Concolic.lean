import Concolic.Mode.Json
import Concolic.Proofs.NormalForm
import Concolic.Proofs.Configuration
import Concolic.Proofs.AlignedWrites
import Concolic.Proofs.Smt.Meaning
import Concolic.Proofs.Smt.Operators
import Concolic.Proofs.Accounting
import Concolic.Proofs.ArrayStores
import Concolic.Proofs.Division
import Concolic.Proofs.Multiplication
import Concolic.Proofs.ZeroRegister
import Concolic.Proofs.Addresses
import Concolic.Proofs.ControlFlow
import Concolic.Proofs.Occurrences
import Concolic.Proofs.WordBounds
import Concolic.Proofs.Reassembly
import Concolic.Proofs.Pruning
