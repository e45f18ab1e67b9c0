import ChannelLint.Markup.Prolog
import ChannelLint.OrderedMap

/-!
# Document types

The declarations in front of the root element: entities, whose text replaces the references to
them, and rules for attributes. Nothing outside the document is read, so a document type that
refers to parameter entities or to an external part is known in part only.
-/
namespace ChannelLint.Markup

inductive Entity where
  | text (value : List Char)
  | external
  | unparsed
  deriving DecidableEq, Repr

/-- The declaration of one attribute of an element. -/
structure AttributeRule where
  name : String
  /-- Whether the value is a list of tokens, in which single spaces divide. -/
  isTokens : Bool
  default : Option String
  deriving DecidableEq, Repr

structure DocumentType where
  entities : OrderedMap Entity := ∅
  rules : OrderedMap (List AttributeRule) := ∅
  isPartial : Bool := false
  isStandalone : Bool := false
  /-- Off behind a reference to a parameter entity, which might have changed any declaration. -/
  keepsReading : Bool := true
  deriving DecidableEq, Repr

/-- Whether a reference without a declaration is a fault. -/
def DocumentType.isStrict (d : DocumentType) : Bool :=
  !d.isPartial || d.isStandalone

/-- A fault behind `offset` characters. -/
structure Trouble where
  cause : Cause
  offset : Nat
  deriving DecidableEq, Repr

/-! ## References -/

def predefined? (name : List Char) : Option Char :=
  match String.ofList name with
  | "lt" => some '<'
  | "gt" => some '>'
  | "amp" => some '&'
  | "quot" => some '"'
  | "apos" => some '\''
  | _ => none

def hexValue (c : Char) : Nat :=
  if c.isDigit then c.toNat - 48 else c.toLower.toNat - 87

/-- The character with a number, unless no such character may stand in a document. -/
def numbered? (base : Nat) (digits : List Char) : Option Char :=
  let n := digits.foldl (fun n d => if n < 0x110000 then n * base + hexValue d else n) 0
  if n.isValidChar && isAllowed (Char.ofNat n) then some (Char.ofNat n) else none

/-- A fault inside a value: at an offset of its own, or at the start of what holds the value. -/
structure ValueTrouble where
  cause : Cause
  offset? : Option Nat
  deriving DecidableEq, Repr

def ValueTrouble.at (t : ValueTrouble) (start : Nat) : Trouble :=
  ⟨t.cause, t.offset?.getD start⟩

/-- The text of an attribute value: references are replaced and every space becomes a plain one.
`entity` gives the text of the entities. -/
def attributeText (alphabet : Alphabet)
    (entity : List Char → Nat → Except ValueTrouble (List Char)) :
    Nat → Nat → List Char → Except ValueTrouble (List Char)
  | 0, _, _ | _, _, [] => .ok []
  | fuel + 1, offset, '&' :: rest =>
    match Scan.reference ⟨alphabet, offset + 1, rest⟩ with
    | .error (.invalid o) => .error ⟨.invalidToken, some o⟩
    | .error .cut => .error ⟨.invalidToken, some offset⟩
    | .ok (ref, c) => do
      let piece ← match ref with
        | .entity name => entity name offset
        | .decimal digits => character (numbered? 10 digits) offset
        | .hex digits => character (numbered? 16 digits) offset
      return piece ++ (← attributeText alphabet entity fuel c.offset c.rest)
  | _, offset, '<' :: _ => .error ⟨.invalidToken, some offset⟩
  | fuel + 1, offset, '\r' :: '\n' :: rest => do
    return ' ' :: (← attributeText alphabet entity fuel (offset + 2) rest)
  | fuel + 1, offset, c :: rest => do
    let text ← attributeText alphabet entity fuel (offset + 1) rest
    return (if isSpace c then ' ' else c) :: text
where
  character (c? : Option Char) (offset : Nat) : Except ValueTrouble (List Char) :=
    match c? with
    | some c => .ok [c]
    | none => .error ⟨.invalidCharNumber, some offset⟩

/-- The text of an entity inside an attribute value. `opened` are the entities whose text is being
read; `depth` bounds how many more can be opened. -/
def DocumentType.entityText (d : DocumentType) :
    Nat → List String → List Char → Nat → Except ValueTrouble (List Char)
  | 0, _, _, offset => .error ⟨.recursiveEntity, some offset⟩
  | depth + 1, opened, name, offset =>
    let key := String.ofList name
    match predefined? name, d.entities.find? key with
    | some c, _ => .ok [c]
    | none, none => if d.isStrict then .error ⟨.undefinedEntity, none⟩ else .ok []
    | none, some entity =>
      if opened.contains key then .error ⟨.recursiveEntity, some offset⟩
      else match entity with
        | .unparsed => .error ⟨.binaryEntity, some offset⟩
        | .external => .error ⟨.externalInAttribute, some offset⟩
        | .text value =>
          let entity := d.entityText depth (key :: opened)
          (attributeText .unicode entity value.length 0 value).mapError
            fun t => { t with offset? := none }

/-- A list of tokens: no space at either end, and one between two tokens. -/
def collapseSpaces (cs : List Char) : List Char :=
  " ".toList.intercalate ((cs.splitOn ' ').filter (!·.isEmpty))

/-- The value of an attribute as written at `offset`. -/
def DocumentType.attributeValue (d : DocumentType) (alphabet : Alphabet) (opened : List String)
    (isTokens : Bool) (offset : Nat) (raw : List Char) : Except ValueTrouble String := do
  let entity := d.entityText (d.entities.entries.length + 1) opened
  let value ← attributeText alphabet entity raw.length offset raw
  return String.ofList (if isTokens then collapseSpaces value else value)

/-! ## Reading declarations -/

abbrev Reading := StateT Cursor (Except Trouble)

namespace Reading

def fail {α : Type} (cause : Cause) (offset : Nat) : Reading α := fun _ => .error ⟨cause, offset⟩

/-- Scans one token. A token that is cut off is at fault from its start. -/
def scan {α : Type} (token : Scan α) : Reading α := fun c =>
  match token c with
  | .ok result => .ok result
  | .error (.invalid offset) => .error ⟨.invalidToken, offset⟩
  | .error .cut => .error ⟨.unclosedToken, c.offset⟩

/-- The next token behind spaces, with its offset. -/
def next : Reading (PrologToken × Nat) := do
  scan Scan.spaces
  let c ← get
  let token ← scan Scan.prologToken
  if token == .nothing then fail .noElement c.offset
  return (token, c.offset)

/-- Refuses a token. -/
def refuse {α : Type} (token : PrologToken) (offset : Nat) : Reading α :=
  match token with
  | .parameterRef => fail .parameterReference offset
  | .declaration => fail .misplacedDeclaration offset
  | _ => fail .unexpected offset

def expect (wanted : PrologToken) : Reading Unit := do
  let (token, offset) ← next
  if token != wanted then refuse token offset

/-- A literal, with the offset of its first character behind the quote. -/
def literal : Reading (List Char × Nat) := do
  let (token, offset) ← next
  match token with
  | .literal text => return (text, offset + 1)
  | _ => refuse token offset

def plainName : Reading (List Char) := do
  let (token, offset) ← next
  match token with
  | .name .plain text => return text
  | _ => refuse token offset

def anyName : Reading (List Char) := do
  let (token, offset) ← next
  match token with
  | .name .plain text | .name .qualified text => return text
  | _ => refuse token offset

def isPublicIdChar (c : Char) : Bool :=
  c.isAlphanum || " \r\n-'()+,./:=?;!*#@$_%".toList.contains c

/-- A literal that names something in public. -/
def publicId : Reading Unit := do
  let (text, offset) ← literal
  let good := text.takeWhile isPublicIdChar
  if good.length < text.length then fail .invalidPublicId (offset + good.length)

/-- `SYSTEM` and a literal, or `PUBLIC` and two. -/
def externalId (keyword : List Char) (offset : Nat) : Reading Unit := do
  if keyword == "SYSTEM".toList then discard literal
  else if keyword == "PUBLIC".toList then
    publicId
    discard literal
  else fail .unexpected offset

/-- The text of an entity declared as a literal: numbers of characters are replaced and line ends
unified, while references to other entities stay for later. -/
def entityValue (alphabet : Alphabet) : Nat → Nat → List Char → Except Trouble (List Char)
  | 0, _, _ | _, _, [] => .ok []
  | fuel + 1, offset, '&' :: rest =>
    match Scan.reference ⟨alphabet, offset + 1, rest⟩ with
    | .error (.invalid o) => .error ⟨.invalidToken, o⟩
    | .error .cut => .error ⟨.invalidToken, offset⟩
    | .ok (ref, c) => do
      let piece ← match ref with
        | .entity name => .ok ('&' :: name ++ [';'])
        | .decimal digits => character (numbered? 10 digits) offset
        | .hex digits => character (numbered? 16 digits) offset
      return piece ++ (← entityValue alphabet fuel c.offset c.rest)
  | _, offset, '%' :: rest =>
    match Scan.percentSign ⟨alphabet, offset + 1, rest⟩ with
    | .error (.invalid o) => .error ⟨.invalidToken, o⟩
    | .error .cut => .error ⟨.invalidToken, offset⟩
    | .ok (.percent, _) => .error ⟨.invalidToken, offset + 1⟩
    | .ok _ => .error ⟨.parameterReference, offset⟩
  | fuel + 1, offset, '\r' :: '\n' :: rest => do
    return '\n' :: (← entityValue alphabet fuel (offset + 2) rest)
  | fuel + 1, offset, c :: rest => do
    return (if c == '\r' then '\n' else c) :: (← entityValue alphabet fuel (offset + 1) rest)
where
  character (c? : Option Char) (offset : Nat) : Except Trouble (List Char) :=
    match c? with
    | some c => .ok [c]
    | none => .error ⟨.invalidCharNumber, offset⟩

/-- The first declaration of an entity counts, and the predefined ones stay as they are. -/
def declare (d : DocumentType) (name : List Char) (entity : Entity) : DocumentType :=
  let key := String.ofList name
  if !d.keepsReading || (predefined? name).isSome || d.entities.contains key then d
  else { d with entities := d.entities.insert key entity }

/-- The literal that an entity stands for. It is looked into only while declarations count. -/
def literalValue (d : DocumentType) (text : List Char) (offset : Nat) : Reading (List Char) :=
  fun c =>
    if d.keepsReading then (entityValue c.alphabet text.length offset text).map (·, c)
    else .ok ([], c)

def generalEntity (d : DocumentType) (name : List Char) : Reading DocumentType := do
  let (token, offset) ← next
  match token with
  | .literal text =>
    let value ← literalValue d text (offset + 1)
    expect .declClose
    return declare d name (.text value)
  | .name .plain keyword =>
    externalId keyword offset
    let (token, offset) ← next
    match token with
    | .declClose => return declare d name .external
    | .name .plain keyword =>
      if keyword != "NDATA".toList then fail .unexpected offset
      discard plainName
      expect .declClose
      return declare d name .unparsed
    | _ => refuse token offset
  | _ => refuse token offset

def parameterEntity (d : DocumentType) : Reading Unit := do
  discard plainName
  let (token, offset) ← next
  match token with
  | .literal text => discard (literalValue d text (offset + 1))
  | .name .plain keyword => externalId keyword offset
  | _ => refuse token offset
  expect .declClose

def entityDecl (d : DocumentType) : Reading DocumentType := do
  let (token, offset) ← next
  match token with
  | .percent =>
    parameterEntity d
    return d
  | .name .plain name => generalEntity d name
  | _ => refuse token offset

def notationDecl : Reading Unit := do
  discard plainName
  let (token, offset) ← next
  match token with
  | .name .plain keyword =>
    if keyword == "SYSTEM".toList then
      discard literal
      expect .declClose
    else if keyword == "PUBLIC".toList then
      publicId
      let (token, offset) ← next
      match token with
      | .declClose => return
      | .literal _ => expect .declClose
      | _ => refuse token offset
    else fail .unexpected offset
  | _ => refuse token offset

/-- Values divided by bars up to a closing parenthesis. -/
def choices (isValue : PrologToken → Bool) : Nat → Reading Unit
  | 0 => do fail .noElement (← get).offset
  | fuel + 1 => do
    let (token, offset) ← next
    if !isValue token then refuse token offset
    let (token, offset) ← next
    match token with
    | .closeParen none => return
    | .bar => choices isValue fuel
    | _ => refuse token offset

def isPlainName : PrologToken → Bool
  | .name .plain _ => true
  | _ => false

def isAnyToken : PrologToken → Bool
  | .name _ _ => true
  | _ => false

def tokenTypes : List String :=
  ["ID", "IDREF", "IDREFS", "ENTITY", "ENTITIES", "NMTOKEN", "NMTOKENS"]

/-- The type of an attribute: whether its values are lists of tokens. -/
def attributeType : Reading Bool := do
  let (token, offset) ← next
  let fuel := (← get).rest.length
  match token with
  | .name .plain text =>
    let keyword := String.ofList text
    if keyword == "CDATA" then return false
    else if tokenTypes.contains keyword then return true
    else if keyword == "NOTATION" then
      expect .openParen
      choices isPlainName fuel
      return true
    else fail .unexpected offset
  | .openParen =>
    choices isAnyToken fuel
    return true
  | _ => refuse token offset

/-- A rule is added unless it gives a default to an attribute that has a rule already. -/
def addRule (d : DocumentType) (element : List Char) (rule : AttributeRule) : DocumentType :=
  let key := String.ofList element
  let rules := (d.rules.find? key).getD []
  if rule.default.isSome && rules.any (·.name == rule.name) then d
  else { d with rules := d.rules.insert key (rules ++ [rule]) }

/-- The default value of an attribute. -/
def defaultValue (d : DocumentType) (isTokens : Bool) (text : List Char) (offset : Nat) :
    Reading (Option String) := fun c =>
  if d.keepsReading then
    match d.attributeValue c.alphabet [] isTokens offset text with
    | .ok value => .ok (some value, c)
    | .error trouble => .error (trouble.at (offset - 1))
  else .ok (none, c)

/-- The rules for the attributes of an element. -/
def attributeRules (element : List Char) : Nat → DocumentType → Reading DocumentType
  | 0, _ => do fail .noElement (← get).offset
  | fuel + 1, d => do
    let (token, offset) ← next
    match token with
    | .declClose => return d
    | .name .plain name | .name .qualified name =>
      let isTokens ← attributeType
      let (token, offset) ← next
      let default ← match token with
        | .literal text => defaultValue d isTokens text (offset + 1)
        | .pound keyword =>
          if keyword == "FIXED".toList then do
            let (text, offset) ← literal
            defaultValue d isTokens text offset
          else if keyword == "IMPLIED".toList || keyword == "REQUIRED".toList then pure none
          else fail .unexpected offset
        | _ => refuse token offset
      let rule : AttributeRule := ⟨String.ofList name, isTokens, default⟩
      attributeRules element fuel (if d.keepsReading then addRule d element rule else d)
    | _ => refuse token offset

/-- The content model of an element behind an item. `connectors` are those of the open groups, the
innermost first. -/
def groups : Nat → Bool → List (Option Char) → Reading Unit
  | 0, _, _ => do fail .noElement (← get).offset
  | _, _, [] => return
  | fuel + 1, wantsItem, connector :: outer => do
    let (token, offset) ← next
    match wantsItem, token with
    | true, .openParen => groups fuel true (none :: connector :: outer)
    | true, .name .plain _ | true, .name .qualified _ | true, .suffixed _ =>
      groups fuel false (connector :: outer)
    | false, .closeParen _ => groups fuel false outer
    | false, .comma =>
      if connector == some '|' then fail .unexpected offset
      groups fuel true (some ',' :: outer)
    | false, .bar =>
      if connector == some ',' then fail .unexpected offset
      groups fuel true (some '|' :: outer)
    | _, _ => refuse token offset

/-- Mixed content behind `#PCDATA`. -/
def mixed : Nat → Bool → Reading Unit
  | 0, _ => do fail .noElement (← get).offset
  | fuel + 1, isFirst => do
    let (token, offset) ← next
    match token with
    | .closeParen none => if !isFirst then refuse token offset
    | .closeParen (some '*') => return
    | .bar =>
      discard anyName
      mixed fuel false
    | _ => refuse token offset

def elementDecl : Reading Unit := do
  discard anyName
  let (token, offset) ← next
  match token with
  | .name .plain text =>
    if text != "EMPTY".toList && text != "ANY".toList then fail .unexpected offset
  | .openParen =>
    let c ← get
    let (token, offset) ← next
    match token with
    | .pound name =>
      if name != "PCDATA".toList then fail .unexpected offset
      mixed c.rest.length true
    | _ =>
      set c
      groups (c.rest.length + 1) true [none]
  | _ => refuse token offset
  expect .declClose

/-- The declarations between the brackets of a document type. -/
def internalSubset : Nat → DocumentType → Reading DocumentType
  | 0, _ => do fail .noElement (← get).offset
  | fuel + 1, d => do
    let (token, offset) ← next
    match token with
    | .closeBracket => return d
    | .instruction | .comment => internalSubset fuel d
    | .parameterRef =>
      internalSubset fuel { d with isPartial := true, keepsReading := d.isStandalone }
    | .declOpen keyword =>
      match String.ofList keyword with
      | "ENTITY" => internalSubset fuel (← entityDecl d)
      | "ATTLIST" =>
        let element ← anyName
        internalSubset fuel (← attributeRules element ((← get).rest.length + 1) d)
      | "ELEMENT" =>
        elementDecl
        internalSubset fuel d
      | "NOTATION" =>
        notationDecl
        internalSubset fuel d
      | _ => refuse token offset
    | _ => refuse token offset

/-- A document type behind `<!DOCTYPE`. -/
def documentType (d : DocumentType) : Reading DocumentType := do
  discard anyName
  let (token, offset) ← next
  let (d, token, offset) ← match token with
    | .name .plain keyword => do
      externalId keyword offset
      let (token, offset) ← next
      pure ({ d with isPartial := true }, token, offset)
    | _ => pure (d, token, offset)
  match token with
  | .declClose => return d
  | .openBracket =>
    let d ← internalSubset ((← get).rest.length + 1) d
    expect .declClose
    return d
  | _ => refuse token offset

end Reading

end ChannelLint.Markup
