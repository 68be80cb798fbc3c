import SciCalc.Token
import SciCalc.Text.Quoted

namespace SciCalc

/-- The causes for which an expression has no value. -/
inductive Fault where
  | emptyExpression
  | unexpectedChar (c : Char) (position : Nat)
  | invalidNumber (text : String)
  | unknownName (name : String)
  | unexpectedToken (t : Token)
  | unexpectedEnd
  | unclosedParen
  | unopenedParen
  | tooDeep (limit : Nat)
  | factorialOfFraction (x : Float)
  | notFinite (x : Float)
  deriving DecidableEq

/-- Names and numbers that came from the expression are quoted; a single character stands as it
is. -/
def Fault.message : Fault → String
  | emptyExpression => "Entrée vide"
  | unexpectedChar c position =>
      "caractère inattendu: '" ++ String.singleton c ++ "' (position " ++ toString position ++ ")"
  | invalidNumber text => "nombre invalide: " ++ Text.quoted text
  | unknownName name => "identifiant inconnu: " ++ Text.quoted name
  | unexpectedToken t => "jeton inattendu: " ++ t.text
  | unexpectedEnd => "fin d’expression inattendue"
  | unclosedParen => "parenthèses non fermées"
  | unopenedParen => "parenthèse fermante sans ouvrante"
  | tooDeep limit => "imbrication trop profonde (max " ++ toString limit ++ ")"
  | factorialOfFraction x => "factorielle d’un non-entier: " ++ Number.text x
  | notFinite x => "résultat non fini: " ++ Number.text x

end SciCalc
