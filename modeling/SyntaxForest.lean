import SyntaxForest.Editor.Edit
import SyntaxForest.Forest.Lemmas
import SyntaxForest.Forest.Role
import SyntaxForest.Forest.Text
import SyntaxForest.Node.Form
import SyntaxForest.Node.Lemmas
import SyntaxForest.Proofs.Ambiguities
import SyntaxForest.Proofs.Categories
import SyntaxForest.Proofs.Disambiguation
import SyntaxForest.Proofs.Discipline
import SyntaxForest.Proofs.Identifiers
import SyntaxForest.Proofs.Insertion
import SyntaxForest.Proofs.Locality
import SyntaxForest.Proofs.Log
import SyntaxForest.Proofs.Names
import SyntaxForest.Proofs.Placement
import SyntaxForest.Proofs.Reattachment
import SyntaxForest.Proofs.Removal
import SyntaxForest.Proofs.ResolutionOrder
import SyntaxForest.Proofs.Settlement
import SyntaxForest.Proofs.SlotAccess
import SyntaxForest.Proofs.Termination
import SyntaxForest.Proofs.Texts
import SyntaxForest.Proofs.Traces
import SyntaxForest.Proofs.Undoing
import SyntaxForest.Proofs.WrittenForms
import SyntaxForest.Visitor.Script
import SyntaxForest.Visitor.Search
