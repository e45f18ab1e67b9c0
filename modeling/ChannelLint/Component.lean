import ChannelLint.Markup.Document
import ChannelLint.Text.Lines
import ChannelLint.Text.Path
import ChannelLint.Text.Word

/-!
# Components

A component file names a component, the component it extends, the scripts it includes and the nodes
it creates as children. The tree of the document has no positions, so the place of a name is looked
for in the text: the name of the component in its attribute, the tag of each node behind the tag
found before it. It is found as an offset, whose position is looked up among the line starts.
-/
namespace ChannelLint

/-- A node of the children of a component. The keys of its attributes are in lower case. -/
structure Node where
  tag : String
  attributes : OrderedMap String
  /-- Where the tag name stands, if it was found. -/
  range : Option Range
  children : List Node

structure ScriptInclude where
  uri : String
  pkgPath : String
  deriving DecidableEq, Repr

structure Component where
  path : String
  pkgPath : String
  /-- The tag of the root element, as written. -/
  root : String
  name : Option String := none
  nameRange : Option Range := none
  /-- The component that this one extends. -/
  parent : Option String := none
  parentRange : Option Range := none
  scripts : List ScriptInclude := []
  children : List Node := []

/-- Attributes with their keys in lower case. Of two keys that become equal the later one counts. -/
def lowerKeys (attributes : OrderedMap String) : OrderedMap String :=
  .ofList (attributes.entries.map fun (key, value) => (Text.lower key, value))

namespace Markup

/-! ## Places in the text -/

/-- A place in a text: its offset and the text from there on. -/
structure Place where
  offset : Nat
  rest : List Char
  deriving DecidableEq, Repr

def Place.start (text : List Char) : Place := ⟨0, text⟩

def Place.advance (p : Place) (n : Nat) : Place :=
  ⟨p.offset + n, p.rest.drop n⟩

/-- The first place at which `found` gives something. -/
def Place.search {α : Type} (found : Place → Option α) (offset : Nat) : List Char → Option α
  | [] => found ⟨offset, []⟩
  | c :: rest =>
    match found ⟨offset, c :: rest⟩ with
    | some a => some a
    | none => search found (offset + 1) rest

/-- Behind a tag with a given name in any letter case. -/
def Place.behindTag? (name : String) (p : Place) : Option Place :=
  match p.rest with
  | '<' :: rest =>
    match Text.readWord name.toList (rest.dropWhile Text.isBlank) with
    | some behind =>
      if Text.endsWord behind then some (p.advance (p.rest.length - behind.length)) else none
    | none => none
  | _ => none

/-- The range of the value of an attribute that begins here. -/
def Place.attributeValue? (lines : Locator) (name : String) (p : Place) : Option Range := do
  let behind ← Text.readWord name.toList p.rest
  match behind.dropWhile Text.isBlank with
  | '=' :: more =>
    match more.dropWhile Text.isBlank with
    | quote :: body =>
      let value := body.takeWhile (· != quote)
      if (quote == '"' || quote == '\'') && value.length < body.length then
        let start := p.advance (p.rest.length - body.length)
        some (lines.range start.offset (start.advance value.length).offset)
      else none
    | [] => none
  | _ => none

/-- The range of the first attribute value with a given name. `previous` is the character in front:
the name of an attribute does not continue a word. -/
def attributeSearch (lines : Locator) (name : String) (previous : Char) (offset : Nat) :
    List Char → Option Range
  | [] => none
  | c :: rest =>
    let here := if Text.isWordChar previous then none
      else Place.attributeValue? lines name ⟨offset, c :: rest⟩
    match here with
    | some range => some range
    | none => attributeSearch lines name c (offset + 1) rest

/-- The range of an attribute's value in the first component tag, up to the first `>`. -/
def componentAttribute? (lines : Locator) (text : List Char) (name : String) : Option Range := do
  let tag ← Place.search (Place.behindTag? "component") 0 text
  attributeSearch lines name 't' tag.offset (tag.rest.takeWhile (· != '>'))

/-- The range of a tag name that begins here, and the place behind it. Letter case counts. -/
def Place.tag? (lines : Locator) (tag : String) (p : Place) : Option (Range × Place) :=
  match p.rest with
  | '<' :: rest =>
    let name := rest.dropWhile Text.isBlank
    if tag.toList.isPrefixOf name then
      let start := p.advance (p.rest.length - name.length)
      let stop := start.advance tag.length
      let isWordBefore := tag.toList.getLast?.any Text.isWordChar
      if isWordBefore == Text.endsWord stop.rest then
        some (lines.range start.offset stop.offset, stop)
      else none
    else none
  | _ => none

mutual

/-- The node of an element, with its tag looked for behind a place, and the place behind the last
tag found. -/
def Element.locate (lines : Locator) : Element → Place → Node × Place
  | ⟨tag, attributes, children⟩, place =>
    match Place.search (Place.tag? lines tag) place.offset place.rest with
    | some (range, place) =>
      let (nodes, place) := Element.locateAll lines children place
      (⟨tag, lowerKeys attributes, some range, nodes⟩, place)
    | none =>
      let (nodes, place) := Element.locateAll lines children place
      (⟨tag, lowerKeys attributes, none, nodes⟩, place)

def Element.locateAll (lines : Locator) : List Element → Place → List Node × Place
  | [], place => ([], place)
  | e :: rest, place =>
    let (node, place) := e.locate lines place
    let (nodes, place) := Element.locateAll lines rest place
    (node :: nodes, place)

end

end Markup

open Markup in
/-- The component that a document describes. A document with another root describes none. -/
def Component.ofElement (text path pkgPath : String) (root : Element) : Component :=
  if Text.lower root.tag != "component" then { path, pkgPath, root := root.tag }
  else
    let cs := text.toList
    let lines := Locator.of text
    let attributes := lowerKeys root.attributes
    let scripts := root.children.filterMap fun e =>
      if Text.lower e.tag != "script" then none
      else match (lowerKeys e.attributes).find? "uri" with
        | some uri => if uri.isEmpty then none else some ⟨uri, Path.resolveUri uri pkgPath⟩
        | none => none
    let children := match (root.children.filter (Text.lower ·.tag == "children")).getLast? with
      | some e => e.children
      | none => []
    let start := (Place.search (Place.behindTag? "children") 0 cs).getD (.start cs)
    { path, pkgPath, root := root.tag
      name := attributes.find? "name"
      nameRange := componentAttribute? lines cs "name"
      parent := attributes.find? "extends"
      parentRange := componentAttribute? lines cs "extends"
      scripts
      children := (Element.locateAll lines children start).1 }

/-- Reads a component file. -/
def Component.read (text path pkgPath : String) : Except Markup.Fault Component := do
  return Component.ofElement text path pkgPath (← Markup.Element.read text)

mutual

/-- A node and all nodes inside it, each before its children. -/
def Node.all : Node → List Node
  | ⟨tag, attributes, range, children⟩ =>
    ⟨tag, attributes, range, children⟩ :: Node.allOf children

def Node.allOf : List Node → List Node
  | [] => []
  | n :: rest => n.all ++ Node.allOf rest

end

/-- Every node of a component. -/
def Component.nodes (c : Component) : List Node :=
  Node.allOf c.children

end ChannelLint
