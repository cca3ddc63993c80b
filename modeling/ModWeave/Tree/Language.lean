import ModWeave.Tree.Script
import ModWeave.Tree.Markup

/-! The languages that a file can be read in. -/
namespace ModWeave

inductive Language where
  | script
  | markup
deriving DecidableEq, Repr

namespace Language

/-- The tokens of a text. -/
def source : Language → List Char → Except ParseError Source
  | .script => Script.source
  | .markup => Markup.source

/-- The tree of a text. -/
def parse : Language → List Char → Except ParseError Tree
  | .script => Script.parse
  | .markup => Markup.parse

end Language
end ModWeave
