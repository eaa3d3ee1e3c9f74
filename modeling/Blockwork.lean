import Blockwork.Main
import Blockwork.Proofs.Division
import Blockwork.Proofs.Documents
import Blockwork.Proofs.EquivalenceLaws
import Blockwork.Proofs.Filling
import Blockwork.Proofs.Growth
import Blockwork.Proofs.JsonIdentifiers
import Blockwork.Proofs.NumberForms
import Blockwork.Proofs.Preludes
import Blockwork.Proofs.Propagation
import Blockwork.Proofs.Quoting
import Blockwork.Proofs.Resolution
import Blockwork.Proofs.StackOrder
import Blockwork.Proofs.Unification
import Blockwork.Proofs.XmlIdentifiers
