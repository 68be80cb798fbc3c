import SciCalc.Window
import SciCalc.Proofs.Grammar.Derivation
import SciCalc.Proofs.Grammar.Reading
import SciCalc.Proofs.Grammar.ViablePrefix
import SciCalc.Proofs.Token.Numeral
import SciCalc.Proofs.Token.MaximalMunch
import SciCalc.Proofs.Token.Blank
import SciCalc.Proofs.Number.Rounding
import SciCalc.Proofs.Number.Nearest
import SciCalc.Proofs.Number.ReadBack
import SciCalc.Proofs.Grammar.Rendering
import SciCalc.Proofs.Number.TenDecimals
import SciCalc.Proofs.Evaluation.Numeral
import SciCalc.Proofs.Evaluation.Reevaluation
import SciCalc.Proofs.Evaluation.NotFinite
import SciCalc.Proofs.Evaluation.AngleMode
import SciCalc.Proofs.Session.Alphabet
import SciCalc.Proofs.Session.AngleMode
import SciCalc.Proofs.Session.State
import SciCalc.Proofs.Session.Window
import SciCalc.Proofs.Number.Whole
import SciCalc.Proofs.Number.Shortest
import SciCalc.Proofs.Evaluation.Whole
import SciCalc.Proofs.Evaluation.Radians
import SciCalc.Proofs.Number.Order
import SciCalc.Proofs.Evaluation.Factorial
import SciCalc.Proofs.Token.Seam
import SciCalc.Proofs.Grammar.Renumber
import SciCalc.Proofs.Session.Constant
import SciCalc.Proofs.Session.Typing
import SciCalc.Proofs.Number.Accuracy
import SciCalc.Proofs.Evaluation.Accuracy
import SciCalc.Proofs.Token.Range
import SciCalc.Proofs.Token.ListText
import SciCalc.Proofs.Session.Editing
import SciCalc.Proofs.Grammar.UniqueText
import SciCalc.Proofs.Token.PlainSign
import SciCalc.Proofs.Grammar.Juxtaposition
import SciCalc.Proofs.Grammar.Parser
import SciCalc.Proofs.Grammar.Termination
import SciCalc.Proofs.Evaluation.PlainSign
