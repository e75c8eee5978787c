import CommandShell.Yaml.Scanner

/-! The first document of a YAML text as a tree of nodes. -/
namespace CommandShell.Yaml

/-- A plain scalar without a tag gets its meaning from its text; an alias stands for an earlier
node. -/
inductive Node where
  | scalar (tag : Bytes) (plain : Bool) (text : Bytes)
  | sequence (items : List Node)
  | mapping (entries : List (Node × Node))
  | reference (target : Node)
  deriving Repr, Inhabited

/-- An anchor stands for the node it is on, once that is complete. -/
structure Anchor where
  name : Bytes
  serial : Nat
  target : Option Node

structure Composer where
  tokens : List Token
  anchors : List Anchor
  handles : List (Bytes × Bytes)

abbrev Compose := StateT Composer Option

namespace Compose

def refuse {α : Type} : Compose α := fun _ => none

def peek : Compose Token := do
  match (← get).tokens with
  | token :: _ => return token
  | [] => refuse

def skip : Compose Unit := modify fun s => { s with tokens := s.tokens.tail }

private def emptyNode : Node := .scalar [] true []

private def setAnchor (name : Option Bytes) : Compose (Option Nat) := do
  match name with
  | none => return none
  | some name =>
    let s ← get
    let serial := s.anchors.length
    set { s with anchors := ⟨name, serial, none⟩ :: s.anchors }
    return some serial

private def fillAnchor (serial : Option Nat) (node : Node) : Compose Unit := do
  let fill (a : Anchor) := if serial == some a.serial then { a with target := some node } else a
  modify fun s => { s with anchors := s.anchors.map fill }

/-- Finds the latest node with an anchor's name; a node cannot contain itself. -/
private def resolveAlias (name : Bytes) : Compose Node := do
  match (← get).anchors.find? (·.name == name) with
  | some ⟨_, _, some node⟩ => return .reference node
  | _ => refuse

private def anchorToken : Compose (Option Bytes) := do
  match ← peek with
  | .anchor name =>
    skip
    return some name
  | _ => return none

private def tagToken : Compose (Option Bytes) := do
  match ← peek with
  | .tag handle suffix =>
    skip
    if handle.isEmpty then return some suffix
    match (← get).handles.find? (·.1 == handle) with
    | some (_, expansion) =>
      if (expansion ++ suffix).isEmpty then refuse
      return some (expansion ++ suffix)
    | none => refuse
  | _ => return none

private def properties : Compose (Option Bytes × Option Bytes) := do
  match ← anchorToken with
  | some anchor => return (some anchor, ← tagToken)
  | none =>
    match ← tagToken with
    | some tag => return (← anchorToken, some tag)
    | none => return (none, none)

private def isOneOf (tokens : List Token) : Compose Bool := return tokens.contains (← peek)

mutual

/-- A node. Block collections are possible in block context, and a sequence may start without
indentation as the value of a mapping. -/
private def node : Nat → Bool → Bool → Compose Node
  | 0, _, _ => refuse
  | n + 1, block, indentless => do
    match ← peek with
    | .reference name =>
      skip
      resolveAlias name
    | _ =>
      let (anchor, tag) ← properties
      let serial ← setAnchor anchor
      let result ← content n block indentless anchor.isSome (tag.getD [])
      fillAnchor serial result
      return result

private def content : Nat → Bool → Bool → Bool → Bytes → Compose Node
  | 0, _, _, _, _ => refuse
  | n + 1, block, indentless, anchored, tag => do
    match ← peek with
    | .scalar text plain =>
      skip
      return .scalar tag ((tag.isEmpty && plain) || tag == "!") text
    | .flowSequence =>
      skip
      return .sequence (← flowItems n true)
    | .flowMapping =>
      skip
      return .mapping (← flowEntries n true)
    | .blockEntry =>
      if indentless then return .sequence (← indentlessItems n)
      else if anchored || !tag.isEmpty then return .scalar tag tag.isEmpty []
      else refuse
    | token =>
      if block && token == .blockSequence then
        skip
        return .sequence (← blockItems n)
      else if block && token == .blockMapping then
        skip
        return .mapping (← blockEntries n)
      else if anchored || !tag.isEmpty then return .scalar tag tag.isEmpty []
      else refuse

private def blockItems : Nat → Compose (List Node)
  | 0 => refuse
  | n + 1 => do
    match ← peek with
    | .blockEntry =>
      skip
      let item ← if ← isOneOf [.blockEntry, .blockEnd] then pure emptyNode else node n true false
      return item :: (← blockItems n)
    | .blockEnd =>
      skip
      return []
    | _ => refuse

private def indentlessItems : Nat → Compose (List Node)
  | 0 => refuse
  | n + 1 => do
    match ← peek with
    | .blockEntry =>
      skip
      let item ←
        if ← isOneOf [.blockEntry, .key, .value, .blockEnd] then pure emptyNode
        else node n true false
      return item :: (← indentlessItems n)
    | _ => return []

private def blockEntries : Nat → Compose (List (Node × Node))
  | 0 => refuse
  | n + 1 => do
    match ← peek with
    | .key =>
      skip
      let name ←
        if ← isOneOf [.key, .value, .blockEnd] then pure emptyNode else node n true true
      let value ← blockValue n
      return (name, value) :: (← blockEntries n)
    | .blockEnd =>
      skip
      return []
    | _ => refuse

private def blockValue : Nat → Compose Node
  | 0 => refuse
  | n + 1 => do
    match ← peek with
    | .value =>
      skip
      if ← isOneOf [.key, .value, .blockEnd] then return emptyNode else node n true true
    | _ => return emptyNode

private def flowItems : Nat → Bool → Compose (List Node)
  | 0, _ => refuse
  | n + 1, first => do
    if (← peek) == .flowSequenceEnd then
      skip
      return []
    if !first then
      if (← peek) == .flowEntry then skip else refuse
    match ← peek with
    | .flowSequenceEnd =>
      skip
      return []
    | .key =>
      skip
      let item ← singleEntry n
      return item :: (← flowItems n false)
    | _ =>
      let item ← node n false false
      return item :: (← flowItems n false)

/-- A mapping of one entry inside a flow sequence. A missing key takes the token in its place. -/
private def singleEntry : Nat → Compose Node
  | 0 => refuse
  | n + 1 => do
    let name ←
      if ← isOneOf [.value, .flowEntry, .flowSequenceEnd] then
        skip
        pure emptyNode
      else node n false false
    if (← peek) == .value then
      skip
      if ← isOneOf [.flowEntry, .flowSequenceEnd] then return .mapping [(name, emptyNode)]
      return .mapping [(name, ← node n false false)]
    else return .mapping [(name, emptyNode)]

private def flowEntries : Nat → Bool → Compose (List (Node × Node))
  | 0, _ => refuse
  | n + 1, first => do
    if (← peek) == .flowMappingEnd then
      skip
      return []
    if !first then
      if (← peek) == .flowEntry then skip else refuse
    match ← peek with
    | .flowMappingEnd =>
      skip
      return []
    | .key =>
      skip
      let name ←
        if ← isOneOf [.value, .flowEntry, .flowMappingEnd] then pure emptyNode
        else node n false false
      let value ← flowValue n
      return (name, value) :: (← flowEntries n false)
    | _ =>
      let name ← node n false false
      return (name, emptyNode) :: (← flowEntries n false)

private def flowValue : Nat → Compose Node
  | 0 => refuse
  | n + 1 => do
    if (← peek) == .value then
      skip
      if ← isOneOf [.flowEntry, .flowMappingEnd] then return emptyNode else node n false false
    else return emptyNode

end

/-- Directives in front of a document; only one version is known. -/
private def directives : Nat → Bool → Compose Unit
  | 0, _ => refuse
  | n + 1, versioned => do
    match ← peek with
    | .version major minor =>
      if versioned || major ≠ 1 || minor ≠ 1 then refuse
      skip
      directives n true
    | .handle name expansion =>
      if (← get).handles.any (·.1 == name) then refuse
      skip
      modify fun s => { s with handles := (name, expansion) :: s.handles }
      directives n versioned
    | _ => pure ()

/-- The handles every document knows unless it defines them itself. -/
private def defaultHandles : List (Bytes × Bytes) := [("!", "!"), ("!!", "tag:yaml.org,2002:")]

private def addDefaultHandles : Compose Unit := modify fun s =>
  { s with handles := s.handles ++
      defaultHandles.filter fun handle => !s.handles.any (·.1 == handle.1) }

/-- The first document; none for a text without one. -/
def document (fuel : Nat) : Compose (Option Node) := do
  match ← peek with
  | .streamEnd => return none
  | .version .. | .handle .. | .documentStart =>
    directives fuel false
    addDefaultHandles
    if (← peek) ≠ .documentStart then refuse
    skip
    let root ← match ← peek with
      | .version .. | .handle .. | .documentStart | .documentEnd | .streamEnd => pure emptyNode
      | _ => node fuel true false
    discard peek
    return some root
  | _ =>
    addDefaultHandles
    let root ← node fuel true false
    discard peek
    return some root

end Compose

/-- The node of the first document, `some none` if there is no document, and none if the text is not
YAML that far. -/
def Node.ofBytes (s : Bytes) : Option (Option Node) :=
  let list := tokens (.ofBytes s)
  ((Compose.document (4 * list.length + 16)).run ⟨list, [], []⟩).map Prod.fst

end CommandShell.Yaml
