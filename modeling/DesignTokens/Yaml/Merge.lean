import DesignTokens.Yaml.Node

/-!
# Merge keys

A merge key puts the members of other mappings in front of the members of its own mapping. Its value is one
mapping, or a sequence of them, of which the first one is to win and so comes last. The other mappings get
their own merge keys resolved before. A key that marks a default value becomes text on the way.

Since nodes may lie inside themselves, a merge key is taken off its mapping before its value is looked at, so
that each is resolved once.

* `splitAtMerge_members` — taking off a merge key keeps all other members in order.
-/

namespace DesignTokens.Yaml

/-- The keys and values of a mapping, in order. -/
abbrev Members := List (NodeId × NodeId)

/-- A change to the table of nodes. -/
abbrev Editing := StateT (Array Node) (Except Error)

namespace Node

/-- Whether a node has a tag. -/
def hasTag (nodes : Array Node) (tag : Tag) (id : NodeId) : Bool := nodes[id]?.any (·.tag = tag)

/-- The members before the first merge key, the value of that key and the members after it. -/
def splitAtMerge (nodes : Array Node) : Members → Option (Members × NodeId × Members)
  | [] => none
  | (key, value) :: rest =>
    if hasTag nodes .merge key then some ([], value, rest)
    else (splitAtMerge nodes rest).map fun (before, found, after) => ((key, value) :: before, found, after)

theorem splitAtMerge_members {nodes : Array Node} {members before after : Members} {found : NodeId}
    (h : splitAtMerge nodes members = some (before, found, after)) :
    ∃ key, members = before ++ (key, found) :: after := by
  induction members generalizing before with
  | nil => simp [splitAtMerge] at h
  | cons member rest ih =>
    obtain ⟨key, value⟩ := member
    unfold splitAtMerge at h
    split at h
    · simp only [Option.some.injEq, Prod.mk.injEq] at h
      obtain ⟨rfl, rfl, rfl⟩ := h
      exact ⟨key, rfl⟩
    · obtain ⟨⟨before, value', after'⟩, hrest, heq⟩ := Option.map_eq_some_iff.1 h
      simp only [Prod.mk.injEq] at heq
      obtain ⟨rfl, rfl, rfl⟩ := heq
      obtain ⟨other, rfl⟩ := ih hrest
      exact ⟨other, rfl⟩

/-- The members of a node that must be a mapping. -/
def ownMembers (id : NodeId) : Editing Members := do
  match (← get)[id]? with
  | some ⟨_, .mapping members⟩ => return members
  | _ => throw .value

def setMembers (id : NodeId) (members : Members) : Editing Unit :=
  modify (·.modify id fun node => { node with content := .mapping members })

/-- Makes text of the keys that mark default values. -/
def settleKeys (members : Members) : Editing Unit :=
  modify fun nodes => members.foldl (fun nodes (key, _) =>
    nodes.modify key fun node => if node.tag = .default then { node with tag := .string } else node) nodes

/-- Resolves the merge keys of a mapping, with members merged into it before. Each round takes off a merge
key, so a bound on their number is never reached. -/
def mergeInto : (left : Nat) → (merged : Members) → NodeId → Editing Unit
  | 0, _, _ => throw .value
  | left + 1, merged, id => do
    let own ← ownMembers id
    settleKeys own
    match splitAtMerge (← get) own with
    | none => setMembers id (merged ++ own)
    | some (before, value, after) =>
      setMembers id (before ++ after)
      let membersOf (other : NodeId) : Editing Members := do
        let _ ← ownMembers other
        mergeInto left [] other
        ownMembers other
      let nodes : Array Node ← get
      let more ← match nodes[value]? with
        | some ⟨_, .sequence items⟩ => (·.reverse.flatten) <$> items.mapM membersOf
        | _ => membersOf value
      mergeInto left (merged ++ more) id

/-- How many members there are in all mappings. -/
def countMembers (nodes : Array Node) : Nat :=
  nodes.foldl (fun count node =>
    match node.content with
    | .mapping members => count + members.length
    | _ => count) 0

/-- Resolves the merge keys of a mapping. -/
def resolveMerges (id : NodeId) : Editing Unit := do mergeInto (countMembers (← get) + 2) [] id

end Node

end DesignTokens.Yaml
