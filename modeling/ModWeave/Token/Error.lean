import ModWeave.Text.Place
import ModWeave.Text.Quoted

/-! Why a text cannot be read. -/
namespace ModWeave

open Text

/-- What would have let the reading go on. -/
inductive Expectation where
  | statement
  | declaration
  | importPath
  | exportType
  | exportName
  | externType
  | externName
  | typeName
  | variableName
  | subName
  | useName
  | directiveName
  | receiver
  | methodName
  | callName
  | parameterType
  | fieldName
  | expression
  | memberName
  /-- Punctuation of a script. -/
  | sign (sign : String)
  | element
  | elementName
  | attribute
  | attributeValue
  | content
  | endTagName
  /-- The end tag that closes an element of this name. -/
  | endTag (name : String)
  /-- Punctuation of a markup document. -/
  | delimiter (sign : String)
deriving DecidableEq, Repr

/-- The expectation in words. -/
def Expectation.describe : Expectation → String
  | .statement => "statement"
  | .declaration => "declaration, call or block"
  | .importPath => "import path"
  | .exportType => "export type"
  | .exportName => "export name"
  | .externType => "extern type"
  | .externName => "extern name"
  | .typeName => "type"
  | .variableName => "variable name"
  | .subName => "sub name"
  | .useName => "use name"
  | .directiveName => "directive name"
  | .receiver => "receiver"
  | .methodName => "method name"
  | .callName => "name"
  | .parameterType => "parameter type"
  | .fieldName => "field name"
  | .expression => "expression"
  | .memberName => "member name"
  | .sign s => "`" ++ s ++ "`"
  | .element => "element"
  | .elementName => "element name"
  | .attribute => "attribute, '>' or '/>'"
  | .attributeValue => "attribute value"
  | .content => "element, text or end tag"
  | .endTagName => "end tag name"
  | .endTag name => "</" ++ name ++ ">"
  | .delimiter s => "'" ++ s ++ "'"

/-- The first fault of a text. -/
inductive ParseError where
  | unexpectedChar (found : Char) (place : Place)
  | unterminatedString (place : Place)
  | unterminatedComment (place : Place)
  | unexpectedToken (found : String) (expected : Expectation) (place : Place)
  | unexpectedEnd (expected : Expectation)
deriving DecidableEq, Repr

/-- Line and column, as messages give them. -/
def Text.Place.label (p : Place) : String := s!"{p.line}:{p.column}"

/-- The fault in words. -/
def ParseError.message : ParseError → String
  | .unexpectedChar c p => s!"unexpected character {quoteChar c} at {p.label}"
  | .unterminatedString p => s!"unterminated string starting at {p.label}"
  | .unterminatedComment p => s!"unterminated comment starting at {p.label}"
  | .unexpectedToken found expected p =>
    s!"expected {expected.describe} but found {quote found} at {p.label}"
  | .unexpectedEnd expected => s!"expected {expected.describe} but reached end of file"

end ModWeave
