import JavaSlice.Table
import JavaSlice.Yaml.Token

/-!
# Nodes

A YAML document is a tree of scalars, sequences and mappings. A node may carry a tag and an anchor,
and an alias stands for the node with an anchor. Anchors are numbered in the order in which their
names first appear, and a name that is used again takes the next number; an alias refers to the last
node in document order that has the number of its name.

`Document.parse?` reads a text that holds one document. A text without any content is the empty
document.
-/

namespace JavaSlice.Yaml

/-- What a node may carry besides its content. -/
structure Properties where
  anchor : Option Nat
  tag : Option String
deriving Repr, Inhabited

inductive Node where
  | scalar (properties : Properties) (text : String) (style : Style)
  | sequence (properties : Properties) (items : List Node)
  | mapping (properties : Properties) (entries : List (Node × Node))
  | alias (anchor : Nat)
deriving Repr, Inhabited

namespace Node

/-- A scalar that is not written out. -/
def empty (properties : Properties) : Node :=
  .scalar properties "" .plain

def properties : Node → Properties
  | .scalar properties _ _ | .sequence properties _ | .mapping properties _ => properties
  | .alias _ => ⟨none, none⟩

mutual

def preorder : Node → List Node
  | .scalar properties text style => [.scalar properties text style]
  | .sequence properties items => .sequence properties items :: preorderOfAll items
  | .mapping properties entries => .mapping properties entries :: preorderOfEntries entries
  | .alias anchor => [.alias anchor]

def preorderOfAll : List Node → List Node
  | [] => []
  | node :: nodes => node.preorder ++ preorderOfAll nodes

def preorderOfEntries : List (Node × Node) → List Node
  | [] => []
  | (key, value) :: entries => key.preorder ++ value.preorder ++ preorderOfEntries entries

end

/-- The node that an alias in a tree refers to. -/
def target? (root : Node) (anchor : Nat) : Option Node :=
  root.preorder.reverse.find? (·.properties.anchor == some anchor)

/-- A node of a tree, or the node that it refers to if it is an alias. -/
def follow? (root : Node) : Node → Option Node
  | .alias anchor => root.target? anchor
  | node => some node

end Node

/-! ## Reading tokens -/

/-- The state in which tokens are read. -/
structure Reader where
  tokens : List Token
  /-- The numbers of the anchors seen so far. -/
  anchors : Table Nat
  /-- What the handles of tags stand for. -/
  handles : Table String

abbrev Read (α : Type) := StateT Reader Option α

namespace Read

def peek? : Read (Option Token) := do
  pure (← get).tokens.head?

def skip : Read Unit :=
  modify fun reader => { reader with tokens := reader.tokens.tail }

def isAt (expected : List Token) : Read Bool := do
  match ← peek? with
  | some token => pure (expected.contains token)
  | none => pure false

/-- Whether a block goes on without content: one of some tokens or the end is at the front. -/
def isAtOrEnd (expected : List Token) : Read Bool := do
  match ← peek? with
  | some token => pure (expected.contains token)
  | none => pure true

def expect (token : Token) : Read Unit := do
  if ← isAt [token] then skip else failure

/-- Takes a token if it is at the front, and says whether it did. -/
def accept (token : Token) : Read Bool := do
  if ← isAt [token] then
    skip
    pure true
  else pure false

def newAnchor (name : String) : Read Nat := do
  let number := (← get).anchors.length
  modify fun reader => { reader with anchors := reader.anchors.put name number }
  pure number

/-- The tag that a handle and a suffix stand for. -/
def resolveTag (handle suffix : String) : Read String := do
  if handle.isEmpty then pure suffix
  else
    match (← get).handles.get? handle with
    | some expansion => pure (expansion ++ suffix)
    | none => failure

def anchor? : Read (Option Nat) := do
  match ← peek? with
  | some (.anchor name) =>
    skip
    pure (some (← newAnchor name))
  | _ => pure none

def tag? : Read (Option String) := do
  match ← peek? with
  | some (.tag handle suffix) =>
    skip
    pure (some (← resolveTag handle suffix))
  | _ => pure none

/-- The anchor and the tag in front of a node, in either order. -/
def properties : Read Properties := do
  match ← anchor? with
  | some anchor => pure ⟨some anchor, ← tag?⟩
  | none =>
    let tag ← tag?
    pure ⟨← anchor?, tag⟩

mutual

/-- A node. `block` says whether the content may be an indented block, and `indentless` whether a
sequence may start without being indented. Each step uses up some `fuel`. -/
def node (block indentless : Bool) : Nat → Read Node
  | 0 => failure
  | fuel + 1 => do
    match ← peek? with
    | some (.alias name) =>
      skip
      match (← get).anchors.get? name with
      | some number => pure (.alias number)
      | none => failure
    | _ =>
      let properties ← properties
      match ← peek? with
      | some (.scalar text style) =>
        skip
        pure (.scalar properties text style)
      | some .flowSequenceStart =>
        skip
        pure (.sequence properties (← flowItems true fuel))
      | some .flowMappingStart =>
        skip
        pure (.mapping properties (← flowEntries true fuel))
      | some .blockEntry =>
        if indentless then pure (.sequence properties (← indentlessItems fuel))
        else emptyNode properties
      | some .blockSequenceStart =>
        if block then
          skip
          pure (.sequence properties (← blockItems fuel))
        else emptyNode properties
      | some .blockMappingStart =>
        if block then
          skip
          pure (.mapping properties (← blockEntries fuel))
        else emptyNode properties
      | _ => emptyNode properties

/-- A node without content, which needs an anchor or a tag. -/
def emptyNode (properties : Properties) : Read Node :=
  if properties.anchor.isSome || properties.tag.isSome then pure (.empty properties) else failure

def blockItems : Nat → Read (List Node)
  | 0 => failure
  | fuel + 1 => do
    if ← accept .blockEntry then
      let item ← blockContent false [.blockEntry, .blockEnd] fuel
      pure (item :: (← blockItems fuel))
    else
      expect .blockEnd
      pure []

def indentlessItems : Nat → Read (List Node)
  | 0 => failure
  | fuel + 1 => do
    if ← accept .blockEntry then
      let item ← blockContent false [.blockEntry, .key, .value, .blockEnd] fuel
      pure (item :: (← indentlessItems fuel))
    else pure []

def blockEntries : Nat → Read (List (Node × Node))
  | 0 => failure
  | fuel + 1 => do
    if ← accept .key then
      let key ← blockContent true [.key, .value, .blockEnd] fuel
      let value ← blockValue fuel
      pure ((key, value) :: (← blockEntries fuel))
    else
      expect .blockEnd
      pure []

def blockValue : Nat → Read Node
  | 0 => failure
  | fuel + 1 => do
    if ← accept .value then blockContent true [.key, .value, .blockEnd] fuel
    else pure (.empty ⟨none, none⟩)

/-- The content of an entry of a block, which is empty if one of the tokens `ends` follows. -/
def blockContent (indentless : Bool) (ends : List Token) : Nat → Read Node
  | 0 => failure
  | fuel + 1 => do
    if ← isAt ends then pure (.empty ⟨none, none⟩) else node true indentless fuel

/-- The content of an entry between brackets, which is empty if one of the tokens `ends` follows. -/
def flowContent (ends : List Token) : Nat → Read Node
  | 0 => failure
  | fuel + 1 => do
    if ← isAt ends then pure (.empty ⟨none, none⟩) else node false false fuel

/-- The entries of a sequence between brackets, and its end; `first` says whether none came
before. -/
def flowItems (first : Bool) : Nat → Read (List Node)
  | 0 => failure
  | fuel + 1 => do
    if ← accept .flowSequenceEnd then pure []
    else
      if !first then expect .flowEntry
      if ← accept .flowSequenceEnd then pure []
      else
        let item ← flowItem fuel
        pure (item :: (← flowItems false fuel))

/-- An entry of a sequence between brackets: a node, or a mapping with a single entry. A key that is
left out takes the token that follows with it. -/
def flowItem : Nat → Read Node
  | 0 => failure
  | fuel + 1 => do
    if ← accept .key then
      let key ← (do
        if ← isAt [.value, .flowEntry, .flowSequenceEnd] then
          skip
          pure (.empty ⟨none, none⟩)
        else node false false fuel)
      let value ← (do
        if ← accept .value then flowContent [.flowEntry, .flowSequenceEnd] fuel
        else pure (.empty ⟨none, none⟩))
      pure (.mapping ⟨none, none⟩ [(key, value)])
    else node false false fuel

/-- The entries of a mapping between brackets, and its end; `first` says whether none came
before. -/
def flowEntries (first : Bool) : Nat → Read (List (Node × Node))
  | 0 => failure
  | fuel + 1 => do
    if ← accept .flowMappingEnd then pure []
    else
      if !first then expect .flowEntry
      if ← accept .flowMappingEnd then pure []
      else
        let entry ← flowPair fuel
        pure (entry :: (← flowEntries false fuel))

/-- An entry of a mapping between brackets; without the sign of a key it has no value. -/
def flowPair : Nat → Read (Node × Node)
  | 0 => failure
  | fuel + 1 => do
    if ← accept .key then
      let key ← flowContent [.value, .flowEntry, .flowMappingEnd] fuel
      let value ← (do
        if ← accept .value then flowContent [.flowEntry, .flowMappingEnd] fuel
        else pure (.empty ⟨none, none⟩))
      pure (key, value)
    else
      let key ← node false false fuel
      pure (key, .empty ⟨none, none⟩)

end

/-! ## Documents -/

def defaultHandles : Table String :=
  [("!", "!"), ("!!", "tag:yaml.org,2002:")]

/-- Reads the directives in front of a document, at most one for each token of `bound`; `versioned`
says whether a version has been given. The version is 1.1 or 1.2, and neither it nor a handle is
given twice. -/
def directives (versioned : Bool) (given : List String) : List Token → Read Unit
  | [] => pure ()
  | _ :: bound => do
    match ← peek? with
    | some (.versionDirective major minor) =>
      if versioned || major != 1 || (minor != 1 && minor != 2) then failure
      else
        skip
        directives true given bound
    | some (.tagDirective handle expansion) =>
      if given.contains handle then failure
      else
        skip
        modify fun reader => { reader with handles := reader.handles.put handle expansion }
        directives versioned (handle :: given) bound
    | _ => pure ()

def atDirective : Read Bool := do
  match ← peek? with
  | some (.versionDirective _ _) | some (.tagDirective _ _) => pure true
  | _ => pure false

/-- The content of a document after its marker, which may be left out. -/
def markedContent (fuel : Nat) : Read Node := do
  if (← atDirective) || (← isAtOrEnd [.documentStart, .documentEnd]) then pure (.empty ⟨none, none⟩)
  else node true false fuel

/-- Drops the markers at the end of a document, at most one for each token of `bound`. -/
def documentEnds : List Token → Read Unit
  | [] => pure ()
  | _ :: bound => do
    if ← accept .documentEnd then documentEnds bound

/-- A text that holds at most one document. -/
def document : Read (Option Node) := do
  let tokens := (← get).tokens
  if tokens.isEmpty then pure none
  else
    let fuel := 4 * (tokens.length + 2)
    let marked := (← atDirective) || (← isAt [.documentStart])
    let content ← (do
      if marked then
        directives false [] tokens
        expect .documentStart
        markedContent fuel
      else node true false fuel)
    documentEnds tokens
    if (← get).tokens.isEmpty then pure (some content) else failure

end Read

/-- The content of a text that holds one document: `none` if it cannot be read, and no node if there
is no document in it. -/
def Document.parse? (text : String) : Option (Option Node) := do
  let tokens ← Token.scan? text.toList
  let (content, _) ← Read.document ⟨tokens, [], Read.defaultHandles⟩
  some content

end JavaSlice.Yaml
