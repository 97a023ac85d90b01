namespace Pseudocode

/-- The control keywords that open a block with a closer of its own. -/
inductive BlockKeyword where
  | si
  | pour
  | tantQue
  deriving DecidableEq, Repr

def BlockKeyword.spelling : BlockKeyword → String
  | .si => "si"
  | .pour => "pour"
  | .tantQue => "tant que"

/-- The kinds of line, in the order in which they are tried. -/
inductive LineKind where
  | blank
  | algorithmHeader
  | lexique
  | sectionMarker
  | typeDeclaration
  | variableDeclaration
  | arrayDeclaration
  | blockClose
  | read
  | functionHeader
  | forEach
  | counted
  | whileLoop
  | elseIf
  | ifThen
  | elseBranch
  | giveBack
  | write
  | assignment
  | expression
  deriving DecidableEq, Repr

/-- The name under which a kind is reported. -/
def LineKind.name : LineKind → String
  | .blank => "BLANK"
  | .algorithmHeader => "ALGORITHM_HEADER"
  | .lexique => "LEXIQUE"
  | .sectionMarker => "SECTION_MARKER"
  | .typeDeclaration => "TYPE_DECLARATION"
  | .variableDeclaration => "VARIABLE_DECLARATION"
  | .arrayDeclaration => "ARRAY_DECLARATION"
  | .blockClose => "BLOCK_CLOSE"
  | .read => "READ"
  | .functionHeader => "FUNCTION_HEADER"
  | .forEach => "FOR_EACH"
  | .counted => "FOR"
  | .whileLoop => "WHILE"
  | .elseIf => "ELSE_IF"
  | .ifThen => "IF"
  | .elseBranch => "ELSE"
  | .giveBack => "RETURN"
  | .write => "WRITE"
  | .assignment => "ASSIGNMENT"
  | .expression => "EXPRESSION"

end Pseudocode
