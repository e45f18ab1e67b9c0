import ChannelLint.Text.Position
import ChannelLint.Text.Utf8

/-!
# Faults of a markup document

Why a document is refused, and where. Lines are counted from one and columns from zero; a carriage
return ends a line like a line feed does.
-/
namespace ChannelLint.Markup

inductive Cause where
  | noElement | invalidToken | unclosedToken | mismatchedTag | duplicateAttribute | junkAfterRoot
  | parameterReference | undefinedEntity | recursiveEntity | asynchronousEntity | invalidCharNumber
  | binaryEntity | externalInAttribute | misplacedDeclaration | wrongEncoding | unclosedCdata
  | entityInParameter | malformedDeclaration | unboundPrefix | emptyPrefix | reservedXmlPrefix
  | reservedXmlnsPrefix | reservedNamespace | invalidPublicId | unexpected
  /-- A reference that no declaration read so far explains. -/
  | skippedReference (reference : String)
  deriving DecidableEq, Repr

def Cause.text : Cause → String
  | noElement => "no element found"
  | invalidToken => "not well-formed (invalid token)"
  | unclosedToken => "unclosed token"
  | mismatchedTag => "mismatched tag"
  | duplicateAttribute => "duplicate attribute"
  | junkAfterRoot => "junk after document element"
  | parameterReference => "illegal parameter entity reference"
  | undefinedEntity => "undefined entity"
  | recursiveEntity => "recursive entity reference"
  | asynchronousEntity => "asynchronous entity"
  | invalidCharNumber => "reference to invalid character number"
  | binaryEntity => "reference to binary entity"
  | externalInAttribute => "reference to external entity in attribute"
  | misplacedDeclaration => "XML or text declaration not at start of entity"
  | wrongEncoding => "encoding specified in XML declaration is incorrect"
  | unclosedCdata => "unclosed CDATA section"
  | entityInParameter => "entity declared in parameter entity"
  | malformedDeclaration => "XML declaration not well-formed"
  | unboundPrefix => "unbound prefix"
  | emptyPrefix => "must not undeclare prefix"
  | reservedXmlPrefix =>
    "reserved prefix (xml) must not be undeclared or bound to another namespace name"
  | reservedXmlnsPrefix => "reserved prefix (xmlns) must not be declared or undeclared"
  | reservedNamespace => "prefix must not be bound to one of the reserved namespace names"
  | invalidPublicId => "illegal character(s) in public id"
  | unexpected => "syntax error"
  | skippedReference reference => "undefined entity " ++ reference

inductive Fault where
  | located (cause : Cause) (line column : Nat)
  | unknownEncoding (name : String)
  | wideEncoding
  deriving DecidableEq, Repr

def Fault.message : Fault → String
  | located cause line column => s!"{cause.text}: line {line}, column {column}"
  | unknownEncoding name => s!"unknown encoding: {name}"
  | wideEncoding => "multi-byte encodings are not supported"

/-- The fault with the file it stands in, its line and its column. -/
def Fault.describe (f : Fault) (path : String) : String :=
  match f with
  | located _ line column => s!"{path}:{line}:{column}: invalid XML: " ++ f.message
  | unknownEncoding _ | wideEncoding => f.message

/-- A fault behind the first `offset` characters of a document. -/
def Fault.behind (document : List Char) (offset : Nat) (cause : Cause) : Fault :=
  let p := Position.zero.after (Text.unifyLineEnds (document.take offset))
  .located cause (p.line + 1) p.column

end ChannelLint.Markup
