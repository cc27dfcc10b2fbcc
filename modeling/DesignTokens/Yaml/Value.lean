import DesignTokens.Yaml.Merge
import DesignTokens.Yaml.Scalar

/-!
# Values of YAML nodes

The data that a node stands for. A mapping keeps its members in order; equal keys are one member, with the
first key and the last value.

A collection is a part of the data from the moment it is met, and its content is read later: collections are
read in the order in which they are met, the top one first. So an error in a collection comes after all those
in the scalars beside it, and a collection may lie inside itself.

* `setMember_keys` — setting a member that is there keeps the keys.
-/

namespace DesignTokens.Yaml

/-! ### Keys -/

/-- The integer that a key equals. -/
def wholeKey? : Datum → Option Int
  | .bool b => some (if b then 1 else 0)
  | .int n => some n
  | .float x _ => if Number.isInteger x then Number.truncate? x else none
  | _ => none

/-- Whether two keys are one. Numbers and truth values are compared by their value, dates with a time by the
instant. -/
def sameKey : Datum → Datum → Bool
  | .null, .null => true
  | .string a, .string b => a == b
  | .bytes a, .bytes b => a == b
  | .timestamp a, .timestamp b => a.isSame b
  | .float x source, .float y other => x == y || (source.isSome && source == other)
  | a, b => (wholeKey? a).isSome && wholeKey? a == wholeKey? b

/-- The members with one set: in the place of the same key, or at the end. -/
def setMember (key value : Datum) : List (Datum × Datum) → List (Datum × Datum)
  | [] => [(key, value)]
  | (k, v) :: rest => if sameKey k key then (k, value) :: rest else (k, v) :: setMember key value rest

theorem setMember_keys {key value : Datum} {members : List (Datum × Datum)}
    (h : members.any fun member => sameKey member.1 key) :
    (setMember key value members).map Prod.fst = members.map Prod.fst := by
  induction members with
  | nil => simp at h
  | cons member rest ih =>
    obtain ⟨k, v⟩ := member
    by_cases hk : sameKey k key
    · simp [setMember, hk]
    · simp only [List.any_cons, hk, Bool.false_or] at h
      simpa [setMember, hk] using ih h

/-! ### Nodes -/

/-- What is known while nodes are read. -/
structure ReadState where
  nodes : Array Node
  /-- The values of the nodes that have been met. -/
  values : Array (Option Datum)
  /-- The contents of the collections that have been read. -/
  parts : Array Datum
  /-- All collections that have been met, in order. -/
  met : Array NodeId := #[]

abbrev Read := StateT ReadState (Except Error)

namespace Node

/-- The text of a node. Of a mapping it is that of its default value; one that lies inside itself has none. -/
def text (nodes : Array Node) : (left : Nat) → NodeId → Except Error String
  | 0, _ => .error (.scalar .endless)
  | left + 1, id =>
    match nodes[id]? with
    | some ⟨_, .scalar text⟩ => .ok text
    | some ⟨_, .mapping members⟩ =>
      match members.find? fun member => hasTag nodes .default member.1 with
      | some (_, value) => text nodes left value
      | none => .error .value
    | _ => .error .value

/-- The value of a node that is no collection. -/
def scalar (nodes : Array Node) (id : NodeId) (node : Node) : Except Error Datum :=
  if [Tag.merge, .default, .unknown].contains node.tag then .error .value
  else do
    let text ← text nodes (nodes.size + 1) id
    match node.tag, node.content with
    | .timestamp, .mapping _ => throw (.scalar .dateOfMapping)
    | tag, _ => scalarValue id tag text

/-- The value of a node. A collection is a part, whose content is read later. -/
def value (id : NodeId) : Read Datum := do
  let state ← get
  match state.values[id]?.join, state.nodes[id]? with
  | some value, _ => return value
  | none, none => throw .value
  | none, some node =>
    if [Tag.sequence, .mapping, .set, .pairs].contains node.tag then
      set { state with values := state.values.set! id (some (.part id)), met := state.met.push id }
      return .part id
    else
      let value ← scalar state.nodes id node
      set { state with values := state.values.set! id (some value) }
      return value

/-- The value of a key, which must not be a collection. -/
def key (id : NodeId) : Read Datum := do
  match ← value id with
  | .part _ => throw .value
  | key => return key

/-- The members of a mapping, its merge keys resolved. -/
def mappingContent (id : NodeId) : Read (List (Datum × Datum)) := do
  let state ← get
  let (members, nodes) ← (do
    let _ ← ownMembers id
    resolveMerges id
    ownMembers id : Editing Members).run state.nodes
  set { state with nodes }
  members.foldlM (fun done (k, v) => do
    let key ← key k
    return setMember key (← value v) done) []

/-- An item of a list of pairs: a mapping of one member, taken as it is. -/
def pair (id : NodeId) : Read Datum := do
  match (← get).nodes[id]? with
  | some ⟨_, .mapping [(first, second)]⟩ =>
    let first ← value first
    return .pair first (← value second)
  | _ => throw .value

/-- The content of a collection. -/
def collectionContent (id : NodeId) : Read Datum := do
  match (← get).nodes[id]? with
  | some ⟨.mapping, _⟩ => return .map (← mappingContent id)
  | some ⟨.set, _⟩ => return .set ((← mappingContent id).map Prod.fst)
  | some ⟨.pairs, .sequence items⟩ => return .list (← items.mapM pair)
  | some ⟨_, .sequence items⟩ => return .list (← items.mapM value)
  | _ => throw .value

/-- Reads the contents of the collections met, from a place in their order on. Each is met once, so their
number is a bound. -/
def contents : (left place : Nat) → Read Unit
  | 0, _ => return
  | left + 1, place => do
    match (← get).met[place]? with
    | none => return
    | some id =>
      let content ← collectionContent id
      modify fun state => { state with parts := state.parts.set! id content }
      contents left (place + 1)

end Node

/-- The data of the node that a text holds. -/
def Composition.read (c : Composition) : Except Error DataGraph := do
  let count := c.nodes.size
  let start : ReadState :=
    ⟨c.nodes, Array.replicate count none, Array.replicate count .null, #[]⟩
  let (root, state) ← (do
    let root ← Node.value c.top
    Node.contents count 0
    return root : Read Datum).run start
  return ⟨root, state.parts⟩

/-- The data of a text; text without a document is null. -/
def read (text : String) : Except Error DataGraph := do
  match ← Node.ofText? text with
  | some composition => composition.read
  | none => return .ofDatum .null

end DesignTokens.Yaml
