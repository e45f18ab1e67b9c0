import ChannelLint.Markup.Declaration
import ChannelLint.Markup.DocumentType

/-!
# Documents

Reading a document into the tree of its elements. Text, comments and instructions are checked and
dropped. A name with a prefix, or without one below a default namespace, becomes the namespace in
braces and the local part. The first fault in the document is the one reported; inside the text of
an entity it is reported at the reference in the document.
-/
namespace ChannelLint.Markup

structure Element where
  tag : String
  attributes : OrderedMap String
  children : List Element

namespace Element

instance : Inhabited Element := ⟨⟨"", ∅, []⟩⟩

end Element

/-! ## Namespaces -/

def xmlNamespace : String := "http://www.w3.org/XML/1998/namespace"

def xmlnsNamespace : String := "http://www.w3.org/2000/xmlns/"

/-- Namespaces by prefix, the innermost first. The default namespace has the empty prefix. -/
abbrev Bindings := List (String × String)

/-- What stands in front of the colon of a name, and what behind it. -/
def splitName (name : List Char) : Option String × String :=
  let first := name.takeWhile (· != ':')
  if first.length < name.length then
    (some (String.ofList first), String.ofList (name.drop (first.length + 1)))
  else (none, String.ofList name)

/-- The prefix that an attribute declares. -/
def declaredPrefix? (name : List Char) : Option String :=
  match splitName name with
  | (none, "xmlns") => some ""
  | (some "xmlns", pre) => some pre
  | _ => none

/-- Binds a prefix to a namespace, within the rules for the reserved ones. -/
def bindPrefix (bindings : Bindings) (pre uri : String) : Except Cause Bindings := do
  if uri.isEmpty && !pre.isEmpty then throw .emptyPrefix
  if pre == "xmlns" then throw .reservedXmlnsPrefix
  if uri.toList.contains '}' then throw .unexpected
  if pre == "xml" && uri != xmlNamespace then throw .reservedXmlPrefix
  if pre != "xml" && uri == xmlNamespace then throw .reservedNamespace
  if uri == xmlnsNamespace then throw .reservedNamespace
  return (pre, uri) :: bindings

def expandedName (uri name : String) : String :=
  "\x7b" ++ uri ++ "\x7d" ++ name

/-- The name of an element: a name without a prefix is in the default namespace, if there is one. -/
def elementName (bindings : Bindings) (name : List Char) : Except Cause String :=
  match splitName name with
  | (some pre, part) =>
    match bindings.lookup pre with
    | some uri => .ok (expandedName uri part)
    | none => .error .unboundPrefix
  | (none, part) =>
    match bindings.lookup "" with
    | some uri => .ok (if uri.isEmpty then part else expandedName uri part)
    | none => .ok part

/-- The names of attributes, in order. Two prefixes may not lead to the same name. -/
def attributeNames (bindings : Bindings) :
    List (List Char × String) → List String → Except Cause (List (String × String))
  | [], _ => .ok []
  | (name, value) :: rest, seen =>
    match splitName name with
    | (none, part) => do return (part, value) :: (← attributeNames bindings rest seen)
    | (some pre, part) =>
      match bindings.lookup pre with
      | none => .error .unboundPrefix
      | some uri =>
        let full := expandedName uri part
        if seen.contains full then .error .duplicateAttribute
        else do return (full, value) :: (← attributeNames bindings rest (full :: seen))

/-! ## Elements -/

/-- An element whose end tag is still to come, with its children in reverse. -/
structure OpenElement where
  name : List Char
  tag : String
  attributes : OrderedMap String
  bindings : Bindings
  children : List Element

def OpenElement.close (e : OpenElement) : Element :=
  ⟨e.tag, e.attributes, e.children.reverse⟩

/-- What is known while content is read: the document type, the alphabet and the entities whose
text is being read. -/
structure Context where
  alphabet : Alphabet
  type : DocumentType
  opened : List String

/-- The attributes as written, from left to right: a repeated name is a fault, and declarations of
prefixes go into the bindings. -/
def writtenAttributes (x : Context) (rules : List AttributeRule) (start : Nat) :
    List Scan.RawAttribute → List (List Char) → Bindings →
      Except Trouble (List (List Char × String) × Bindings)
  | [], _, bindings => .ok ([], bindings)
  | a :: rest, seen, bindings => do
    if seen.contains a.name then throw ⟨.duplicateAttribute, a.nameOffset⟩
    let isTokens := match rules.find? (·.name == String.ofList a.name) with
      | some rule => rule.isTokens
      | none => false
    let value ← (x.type.attributeValue x.alphabet x.opened isTokens a.valueOffset a.value).mapError
      (·.at start)
    match declaredPrefix? a.name with
    | some pre =>
      let bindings ← (bindPrefix bindings pre value).mapError (⟨·, start⟩)
      writtenAttributes x rules start rest (a.name :: seen) bindings
    | none =>
      let (more, bindings) ← writtenAttributes x rules start rest (a.name :: seen) bindings
      return ((a.name, value) :: more, bindings)

/-- The attributes that are not written and have a default. -/
def defaultAttributes : List AttributeRule → List (List Char) → Bindings →
    Except Cause (List (List Char × String) × Bindings)
  | [], _, bindings => .ok ([], bindings)
  | rule :: rest, seen, bindings => do
    let name := rule.name.toList
    match rule.default with
    | none => defaultAttributes rest seen bindings
    | some value =>
      if seen.contains name then defaultAttributes rest seen bindings
      else match declaredPrefix? name with
        | some pre => defaultAttributes rest (name :: seen) (← bindPrefix bindings pre value)
        | none =>
          let (more, bindings) ← defaultAttributes rest (name :: seen) bindings
          return ((name, value) :: more, bindings)

/-- The element that a start tag at offset `start` opens. -/
def openElement (x : Context) (outer : Bindings) (start : Nat) (tag : Scan.StartTag) :
    Except Trouble OpenElement := do
  let rules := (x.type.rules.find? (String.ofList tag.name)).getD []
  let (written, bindings) ← writtenAttributes x rules start tag.attributes [] outer
  let (defaults, bindings) ←
    (defaultAttributes rules (tag.attributes.map (·.name)) bindings).mapError (⟨·, start⟩)
  let attributes ← (attributeNames bindings (written ++ defaults) []).mapError (⟨·, start⟩)
  let name ← (elementName bindings tag.name).mapError (⟨·, start⟩)
  return ⟨tag.name, name, .ofList attributes, bindings, []⟩

/-! ## Content -/

/-- The open elements, the innermost first, or the root once it is closed. -/
inductive Progress where
  | within (elements : List OpenElement)
  | done (root : Element)

/-- Closes the innermost element. -/
def closeInnermost : List OpenElement → Progress
  | [] => .within []
  | [root] => .done root.close
  | inner :: outer :: more =>
    .within ({ outer with children := inner.close :: outer.children } :: more)

/-- The rest of a character section behind `<![CDATA[`. -/
def cdataBody : Nat → Cursor → Except Trouble Cursor
  | 0, c => .error ⟨.unclosedCdata, c.offset⟩
  | fuel + 1, c =>
    match c.rest with
    | [] | [']'] | [']', ']'] | ['\r'] => .error ⟨.unclosedCdata, c.offset⟩
    | ']' :: ']' :: '>' :: rest => .ok { c with offset := c.offset + 3, rest := rest }
    | x :: rest =>
      if isAllowed x then cdataBody fuel { c with offset := c.offset + 1, rest := rest }
      else .error ⟨.invalidToken, c.offset⟩

/-- The elements of the text of an entity are put into the open ones. -/
abbrev Expander :=
  List String → List Char → List OpenElement → Except Cause (List OpenElement)

/-- Scans a part of markup that begins at offset `start`. -/
def scanFrom {α : Type} (start : Nat) (scan : Scan α) (c : Cursor) : Except Trouble (α × Cursor) :=
  match scan c with
  | .ok result => .ok result
  | .error (.invalid offset) => .error ⟨.invalidToken, offset⟩
  | .error .cut => .error ⟨.unclosedToken, start⟩

/-- What markup makes of the open elements. The cursor is behind its `<`, which stands at offset
`start`. -/
def markup (x : Context) (base start : Nat) (elements : List OpenElement) (c : Cursor) :
    Except Trouble (Progress × Cursor) := do
  let (first, _) ← scanFrom start Scan.peek c
  match first with
  | '/' =>
    let (name, behind) ← scanFrom start (Scan.skip *> Scan.endTag) c
    match elements with
    | [] => throw ⟨.asynchronousEntity, start⟩
    | inner :: _ =>
      if elements.length = base then throw ⟨.asynchronousEntity, start⟩
      if inner.name != name then throw ⟨.mismatchedTag, start + 2⟩
      return (closeInnermost elements, behind)
  | '?' =>
    let (isDeclaration, behind) ← scanFrom start (Scan.skip *> Scan.instruction) c
    if isDeclaration then throw ⟨.misplacedDeclaration, start⟩
    return (.within elements, behind)
  | '!' =>
    let (second, c) ← scanFrom start (Scan.skip *> Scan.peek) c
    if second == '-' then
      let (_, behind) ← scanFrom start (Scan.skip *> Scan.comment) c
      return (.within elements, behind)
    else if second == '[' then
      let (_, behind) ← scanFrom start Scan.cdataOpen c
      return (.within elements, ← cdataBody (behind.rest.length + 1) behind)
    else throw ⟨.invalidToken, c.offset⟩
  | _ =>
    let (tag, behind) ← scanFrom start Scan.startTag c
    let outer := match elements with
      | [] => [("xml", xmlNamespace)]
      | inner :: _ => inner.bindings
    let element ← openElement x outer start tag
    return (if tag.isClosed then closeInnermost (element :: elements)
      else .within (element :: elements), behind)

/-- What a reference does to the open elements. -/
def applyReference (x : Context) (expand : Expander) (elements : List OpenElement) :
    Scan.Reference → Except Cause (List OpenElement)
  | .decimal digits =>
    if (numbered? 10 digits).isSome then .ok elements else .error .invalidCharNumber
  | .hex digits =>
    if (numbered? 16 digits).isSome then .ok elements else .error .invalidCharNumber
  | .entity name =>
    let key := String.ofList name
    let skipped := String.ofList (('&' :: name ++ [';']).take 100)
    match predefined? name, x.type.entities.find? key with
    | some _, _ => .ok elements
    | none, none => .error (if x.type.isStrict then .undefinedEntity else .skippedReference skipped)
    | none, some entity =>
      if x.opened.contains key then .error .recursiveEntity
      else match entity with
        | .unparsed => .error .binaryEntity
        | .external => .error (.skippedReference skipped)
        | .text value => expand (key :: x.opened) value elements

/-- Reads content until the root is closed or the text of an entity is at its end. `base` counts
the elements that were open in front of the text; it is zero for the document itself. -/
def content (x : Context) (expand : Expander) (base : Nat) :
    Nat → Cursor → List OpenElement → Except Trouble (Progress × Cursor)
  | 0, c, _ => .error ⟨.noElement, c.offset⟩
  | fuel + 1, c, elements =>
    let behind (n : Nat) : Cursor := { c with offset := c.offset + n, rest := c.rest.drop n }
    let atEnd (offset : Nat) : Except Trouble (Progress × Cursor) :=
      if base = 0 then .error ⟨.noElement, offset⟩
      else if elements.length ≠ base then .error ⟨.asynchronousEntity, offset⟩
      else .ok (.within elements, behind c.rest.length)
    match c.rest with
    | [] => atEnd c.offset
    | ['\r'] => atEnd c.offset
    | ']' :: ']' :: '>' :: _ => .error ⟨.invalidToken, c.offset + 2⟩
    | '<' :: _ =>
      match markup x base c.offset elements (behind 1) with
      | .error trouble => .error trouble
      | .ok (.done root, next) => .ok (.done root, next)
      | .ok (.within elements, next) => content x expand base fuel next elements
    | '&' :: _ =>
      match Scan.reference (behind 1) with
      | .error (.invalid o) => .error ⟨.invalidToken, o⟩
      | .error .cut => .error ⟨.unclosedToken, c.offset⟩
      | .ok (ref, next) =>
        match applyReference x expand elements ref with
        | .error cause => .error ⟨cause, c.offset⟩
        | .ok elements => content x expand base fuel next elements
    | first :: _ =>
      if isAllowed first then content x expand base fuel (behind 1) elements
      else .error ⟨.invalidToken, c.offset⟩

/-- Expands entities to a depth. Each opened entity is a new one, so the number of entities
suffices. -/
def expandEntity (type : DocumentType) : Nat → Expander
  | 0 => fun _ _ _ => .error .recursiveEntity
  | depth + 1 => fun opened value elements =>
    match content ⟨.unicode, type, opened⟩ (expandEntity type depth) elements.length
        (value.length + 1) ⟨.unicode, 0, value⟩ elements with
    | .error trouble => .error trouble.cause
    | .ok (.within elements, _) => .ok elements
    | .ok (.done _, _) => .error .asynchronousEntity

/-! ## The whole document -/

/-- What may follow the root element: spaces, comments and instructions. -/
def epilog : Nat → Reading Unit
  | 0 => return
  | fuel + 1 => do
    let start := (← get).offset
    match ← Reading.scan Scan.prologToken with
    | .nothing => return
    | .spaces | .comment | .instruction => epilog fuel
    | _ => Reading.fail .junkAfterRoot start

/-- Everything in front of the root element. The cursor ends in front of its start tag. -/
def prolog : Nat → Bool → DocumentType → Reading DocumentType
  | 0, _, _ => do Reading.fail .noElement (← get).offset
  | fuel + 1, hasType, d => do
    Reading.scan Scan.spaces
    let start ← get
    let (token, offset) ← Reading.next
    match token with
    | .comment | .instruction => prolog fuel hasType d
    | .rootStart =>
      set start
      return d
    | .declOpen keyword =>
      if keyword == "DOCTYPE".toList && !hasType then prolog fuel true (← Reading.documentType d)
      else Reading.refuse token offset
    | _ => Reading.refuse token offset

/-- The document behind its declaration. -/
def body (isStandalone : Bool) : Reading Element := do
  let c ← get
  let type ← prolog (c.rest.length + 1) false { isStandalone := isStandalone }
  let c ← get
  let expand := expandEntity type (type.entities.entries.length + 1)
  match content ⟨c.alphabet, type, []⟩ expand 0 (c.rest.length + 1) c [] with
  | .error trouble => throw trouble
  | .ok (.within _, c) => Reading.fail .noElement c.offset
  | .ok (.done root, c) =>
    set c
    epilog (c.rest.length + 1)
    return root

/-- The declaration at the start of a document, with the number of characters it takes. -/
def declaration? (start : Cursor) : Except Trouble (Option (Declaration × Nat)) :=
  match start.rest with
  | '<' :: '?' :: rest =>
    match Scan.instruction { start with offset := start.offset + 2, rest := rest } with
    | .ok (true, c) =>
      let length := c.offset - start.offset
      match Declaration.read (start.offset + 5) ((start.rest.take (length - 2)).drop 5) with
      | .ok d => .ok (some (d, length))
      | .error offset => .error ⟨.malformedDeclaration, offset⟩
    | _ => .ok none
  | _ => .ok none

def inDocument {α : Type} (document : List Char) (result : Except Trouble α) : Except Fault α :=
  result.mapError fun t => Fault.behind document t.offset t.cause

/-- Reads a document. A byte order mark may stand in front of it. -/
def Element.read (text : String) : Except Fault Element := do
  let document := text.toList
  let mark := if document.head? == some '\ufeff' then 1 else 0
  let start : Cursor := ⟨.unicode, mark, document.drop mark⟩
  match ← inDocument document (declaration? start) with
  | none => inDocument document ((body false start).map (·.1))
  | some (d, length) =>
    let head := document.take (mark + length)
    let rest := document.drop (mark + length)
    let charset ← match d.encoding with
      | none => pure Charset.utf8
      | some (name, offset) =>
        match Encoding.ofName name with
        | .charset c => pure c
        | .utf16 => throw (Fault.behind document offset .wrongEncoding)
        | .wide => throw .wideEncoding
        | .unknown => throw (.unknownEncoding name)
    let rest := charset.reread rest
    let alphabet := if charset == .latin1 then Alphabet.latin1 else .unicode
    inDocument (head ++ rest) ((body d.isStandalone ⟨alphabet, head.length, rest⟩).map (·.1))

end ChannelLint.Markup
