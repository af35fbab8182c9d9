import Garnet.CommandLine.Disk
import Garnet.Main
import Garnet.Register.Script
import Garnet.Proofs.Code.Integers
import Garnet.Proofs.Closure.MethodBlock
import Garnet.Proofs.Register.Nesting
import Garnet.Proofs.Storage.Apart
import Garnet.Proofs.Class.Dispatch
import Garnet.Proofs.Program.Fields
import Garnet.Proofs.Program.Labels
import Garnet.Proofs.Token.Order
import Garnet.Proofs.Token.Code
import Garnet.Proofs.Token.Regex
import Garnet.Proofs.Program.Texts
import Garnet.Proofs.Reading.Infix
import Garnet.Proofs.Code.Leaving
import Garnet.Proofs.Code.Sites
import Garnet.Proofs.Closure.Return
import Garnet.Proofs.Lowering.Elements
import Garnet.Proofs.Lowering.Update
import Garnet.Proofs.Lowering.Spliced
import Garnet.Proofs.Reading.Operands
import Garnet.Proofs.Literal.Outdent
import Garnet.Proofs.Tree.Text
import Garnet.Proofs.Class.Mirror
import Garnet.Proofs.Closure.Paired
