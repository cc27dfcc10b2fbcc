import DesignTokens.Yaml.Tag
import DesignTokens.Yaml.TokenStream

/-!
# YAML nodes

A node is a scalar, a sequence or a mapping, with a tag that says of what sort it is. A text holds at most
one document, which is one node with those that it is made of. A node may have a name, under which it can be
used again, even inside itself; so nodes are kept in a table and name each other by their numbers in it.

Each function reads one construct of the grammar from the tokens. `left` bounds how many constructs are read;
each takes a token, so a bound made from the length of the text is never reached.

* `ofText?_empty` — no text is no document.
-/

namespace DesignTokens.Yaml

/-- The number of a node in a table. -/
abbrev NodeId := Nat

/-- What a node is made of. -/
inductive Content where
  | scalar (text : String)
  | sequence (items : List NodeId)
  | mapping (members : List (NodeId × NodeId))

structure Node where
  tag : Tag
  content : Content

/-- The node that a text holds, in the table of all nodes of the text. -/
structure Composition where
  nodes : Array Node
  top : NodeId

/-- What is known while nodes are read. -/
structure ParseState where
  tokens : TokenStream
  /-- What the handles of tags stand for. -/
  handles : List (String × String) := []
  /-- The nodes that have a name. -/
  anchors : List (String × NodeId) := []
  /-- The nodes so far; a collection is among them from its start on. -/
  nodes : Array Node := #[]
  /-- How many collections are open. -/
  depth : Nat := 0

abbrev Parse := StateT ParseState (Except Error)

namespace Parse

/-- The next token. -/
def peek : Parse Token := do
  let state ← get
  let (token, tokens) ← state.tokens.peek
  set { state with tokens }
  return token

/-- Leaves the next token behind. -/
def drop : Parse Unit := modify fun state => { state with tokens := state.tokens.drop }

/-- Leaves the next token behind if it is `token`, and says whether it was. -/
def accept (token : Token) : Parse Bool := do
  if (← peek) = token then
    drop
    return true
  else return false

/-- The tokens form no node. -/
def misplaced {α : Type} : Parse α := throw .arrangement

/-- Leaves behind `token`, which must come next. -/
def expect (token : Token) : Parse Unit := do
  if !(← accept token) then misplaced

end Parse

namespace Node

open Parse

/-! ### Properties -/

/-- What a node has in front of it. -/
structure Properties where
  anchor : Option String := none
  tag : Option String := none

/-- The text of a tag, its handle replaced by what it stands for. -/
def tagText (handle : Option String) (suffix : String) : Parse String := do
  match handle with
  | none => return suffix
  | some handle =>
    match (← get).handles.lookup handle with
    | some expansion => return expansion ++ suffix
    | none => misplaced

def anchor? : Parse (Option String) := do
  match ← peek with
  | .anchor name =>
    drop
    return some name
  | _ => return none

def tag? : Parse (Option (Option String × String)) := do
  match ← peek with
  | .tag handle suffix =>
    drop
    return some (handle, suffix)
  | _ => return none

/-- An anchor and a tag, in either order. -/
def properties : Parse Properties := do
  let first ← anchor?
  let tag ← tag?
  let anchor ← if first.isNone && tag.isSome then anchor? else pure first
  match tag with
  | some (handle, suffix) => return { anchor, tag := some (← tagText handle suffix) }
  | none => return { anchor }

/-- The tag of a node, unless it leaves the choice open. -/
def Properties.explicit? (p : Properties) : Option Tag :=
  match p.tag with
  | some "!" => none
  | some text => some (Tag.ofText text)
  | none => none

/-- The tag of a scalar. One without a tag of its own is plain or text; a single exclamation mark makes it
plain. -/
def Properties.scalarTag (p : Properties) (text : String) (plain : Bool) : Tag :=
  match p.explicit? with
  | some tag => tag
  | none => if plain || p.tag.isSome then Tag.ofPlain text else .string

/-- Adds a node, and its name, which must be new. -/
def add (p : Properties) (node : Node) : Parse NodeId := do
  let state ← get
  let id := state.nodes.size
  match p.anchor with
  | none => set { state with nodes := state.nodes.push node }
  | some name =>
    if (state.anchors.lookup name).isSome then throw .reference
    set { state with nodes := state.nodes.push node, anchors := (name, id) :: state.anchors }
  return id

/-- A scalar with a text. -/
def addScalar (p : Properties) (text : String) (plain : Bool) : Parse NodeId :=
  add p ⟨p.scalarTag text plain, .scalar text⟩

/-- A scalar without text. -/
def empty : Parse NodeId := addScalar {} "" true

/-- How many collections may lie inside one another. -/
def maximalDepth : Nat := 487

/-- A collection, which is in the table before its content is read. -/
def addCollection (p : Properties) (implied : Tag) (content : Parse Content) : Parse NodeId := do
  let tag := p.explicit?.getD implied
  let id ← add p ⟨tag, .sequence []⟩
  if maximalDepth ≤ (← get).depth then throw .depth
  modify fun state => { state with depth := state.depth + 1 }
  let content ← content
  modify fun state =>
    { state with depth := state.depth - 1, nodes := state.nodes.set! id ⟨tag, content⟩ }
  return id

/-- The node that an alias stands for. -/
def ofAlias (name : String) : Parse NodeId := do
  match (← get).anchors.lookup name with
  | none => throw .reference
  | some id => return id

/-! ### The grammar -/

/-- Where a node stands: in a flow, in a block, or as the value of a block mapping, where the entries of a
sequence need not be indented. -/
inductive Place where
  | flow | block | blockValue
  deriving DecidableEq, Repr

/-- A node of which there is nothing but its properties. -/
def absent (p : Properties) : Parse NodeId := do
  if p.anchor.isNone && p.tag.isNone then misplaced
  addScalar p "" true

mutual

/-- A node, which may not be absent unless it has properties. -/
def node (place : Place) : (left : Nat) → Parse NodeId
  | 0 => misplaced
  | left + 1 => do
    match ← peek with
    | .alias name =>
      drop
      ofAlias name
    | _ =>
      let p ← properties
      let sequence (items : Parse (List NodeId)) : Parse NodeId :=
        addCollection p .sequence do return .sequence (← items)
      let mapping (members : Parse (List (NodeId × NodeId))) : Parse NodeId :=
        addCollection p .mapping do return .mapping (← members)
      match ← peek with
      | .blockEntry =>
        if place = .blockValue then sequence (looseEntries left) else absent p
      | .scalar text plain =>
        drop
        addScalar p text plain
      | .flowSequenceStart =>
        drop
        sequence (flowEntries true left)
      | .flowMappingStart =>
        drop
        mapping (flowMembers true left)
      | .blockSequenceStart =>
        if place = .flow then absent p
        else
          drop
          sequence (entries left)
      | .blockMappingStart =>
        if place = .flow then absent p
        else
          drop
          mapping (members left)
      | _ => absent p

/-- A node, or none before one of the given tokens. -/
def nodeBefore (place : Place) (ends : List Token) : (left : Nat) → Parse NodeId
  | 0 => misplaced
  | left + 1 => do
    if ends.contains (← peek) then empty else node place left

/-- The entries of a block sequence, up to its end. -/
def entries : (left : Nat) → Parse (List NodeId)
  | 0 => misplaced
  | left + 1 => do
    if ← accept .blockEntry then
      let item ← nodeBefore .block [.blockEntry, .blockEnd] left
      return item :: (← entries left)
    else
      expect .blockEnd
      return []

/-- The entries of a sequence that opens no block of its own. -/
def looseEntries : (left : Nat) → Parse (List NodeId)
  | 0 => misplaced
  | left + 1 => do
    if ← accept .blockEntry then
      let item ← nodeBefore .block [.blockEntry, .key, .value, .blockEnd] left
      return item :: (← looseEntries left)
    else return []

/-- The members of a block mapping, up to its end. -/
def members : (left : Nat) → Parse (List (NodeId × NodeId))
  | 0 => misplaced
  | left + 1 => do
    if ← accept .key then
      let ends := [.key, .value, .blockEnd]
      let key ← nodeBefore .blockValue ends left
      let value ← if ← accept .value then nodeBefore .blockValue ends left else empty
      return (key, value) :: (← members left)
    else
      expect .blockEnd
      return []

/-- The value of a member in a flow, which may be absent. -/
def flowValue (close : Token) : (left : Nat) → Parse NodeId
  | 0 => misplaced
  | left + 1 => do
    if ← accept .value then nodeBefore .flow [.flowEntry, close] left else empty

/-- The entries of a flow sequence, up to its end. An entry may be a mapping of one member without braces. -/
def flowEntries (first : Bool) : (left : Nat) → Parse (List NodeId)
  | 0 => misplaced
  | left + 1 => do
    if ← accept .flowSequenceEnd then return []
    if !first then expect .flowEntry
    match ← peek with
    | .flowSequenceEnd =>
      drop
      return []
    | .key =>
      drop
      let item ← addCollection {} .mapping do
        let key ← nodeBefore .flow [.value, .flowEntry, .flowSequenceEnd] left
        let value ← flowValue .flowSequenceEnd left
        return .mapping [(key, value)]
      return item :: (← flowEntries false left)
    | _ =>
      let item ← node .flow left
      return item :: (← flowEntries false left)

/-- The members of a flow mapping, up to its end. A key may stand without a value. -/
def flowMembers (first : Bool) : (left : Nat) → Parse (List (NodeId × NodeId))
  | 0 => misplaced
  | left + 1 => do
    if ← accept .flowMappingEnd then return []
    if !first then expect .flowEntry
    match ← peek with
    | .flowMappingEnd =>
      drop
      return []
    | .key =>
      drop
      let key ← nodeBefore .flow [.value, .flowEntry, .flowMappingEnd] left
      let value ← flowValue .flowMappingEnd left
      return (key, value) :: (← flowMembers false left)
    | _ =>
      let key ← node .flow left
      let value ← empty
      return (key, value) :: (← flowMembers false left)

end

/-! ### Documents -/

/-- What handles stand for unless a directive says otherwise. -/
def standardHandles : List (String × String) := [("!", "!"), ("!!", Tag.standard)]

/-- The directives of a document: at most one version, which must be the first one, and each handle once. -/
def directives : (left : Nat) → (version : Bool) → List (String × String) → Parse (List (String × String))
  | 0, _, _ => misplaced
  | left + 1, version, handles => do
    match ← peek with
    | .versionDirective major =>
      drop
      if version || major ≠ 1 then misplaced
      directives left true handles
    | .tagDirective handle expansion =>
      drop
      if (handles.lookup handle).isSome then misplaced
      directives left version (handles ++ [(handle, expansion)])
    | .otherDirective =>
      drop
      directives left version handles
    | _ => return handles

def dropDocumentEnds : (left : Nat) → Parse Unit
  | 0 => misplaced
  | left + 1 => do
    if ← accept .documentEnd then dropDocumentEnds left

/-- The marks of a document that is not the first, or that has directives; whether there is a document. -/
def startDocument (left : Nat) : Parse Bool := do
  dropDocumentEnds left
  match ← peek with
  | .streamEnd => return false
  | _ =>
    let handles ← directives left false []
    expect .documentStart
    modify fun state => { state with handles := handles ++ standardHandles }
    return true

/-- Whether a token can only stand between documents. -/
def isBetweenDocuments : Token → Bool
  | .versionDirective _ | .tagDirective .. | .otherDirective => true
  | .documentStart | .documentEnd | .streamEnd => true
  | _ => false

/-- The node of a document that no other one follows. -/
def onlyDocument (left : Nat) (content : Parse NodeId) : Parse (Option NodeId) := do
  let node ← content
  let _ ← accept .documentEnd
  if ← startDocument left then throw .reference
  return some node

/-- The node of the only document, if there is one. -/
def documentNode? (left : Nat) : Parse (Option NodeId) := do
  let token ← peek
  let content : Parse NodeId := node .block left
  if isBetweenDocuments token && token ≠ .documentEnd then
    if ← startDocument left then
      if isBetweenDocuments (← peek) then onlyDocument left empty else onlyDocument left content
    else return none
  else
    modify fun state => { state with handles := standardHandles }
    onlyDocument left content

/-- The node that a text holds. -/
def ofText? (text : String) : Except Error (Option Composition) :=
  if text.toList.all isAllowed then do
    let tokens := TokenStream.ofText text
    let (top?, state) ← (documentNode? (8 * (tokens.cursor.rest.length + 4))).run { tokens }
    return top?.map (⟨state.nodes, ·⟩)
  else .error .character

theorem ofText?_empty : ofText? "" = .ok none := by
  rfl

end Node

end DesignTokens.Yaml
