/-
# Reading a regular expression

A text is read in four steps, each of which may refuse it: operators are checked for their
places, classes are turned into groups, concatenation is made explicit, and the operators are
moved behind their operands.
-/
import RegexAutomata.Regex.CharClass
import RegexAutomata.Regex.Placement
import RegexAutomata.Regex.Postfix

namespace RegexAutomata

/-- The postfix form of a regular expression, or the reason why the text is none. -/
def Regex.parse (text : String) : Except RegexError Postfix := do
  checkPlacement text.toList
  let tokens ← tokens text.toList
  Postfix.ofTokens (Token.juxtapose tokens)

end RegexAutomata
