import JavaSlice.Slice.Outline
import JavaSlice.Table

/-!
# The registry of a slice

While a slice grows, the registry holds what has been found: the declarations as numbered nodes in
the order of their discovery, the edges between them, the nodes that still wait to be scanned, and
an output file for every type that owns a node.

A node is found once; its number never changes and it enters the work list once. Between two nodes
there is at most one edge, which remembers the kind it was given last, and no node has an edge to
itself.
-/

namespace JavaSlice.Slice

open Source

/-- A declaration that has been found. -/
structure Node where
  key : Key
  /-- Whether the declaration has been taken up for scanning. -/
  visited : Bool
deriving DecidableEq, Repr, Inhabited

namespace Node

/-- The node of a key that has not been scanned. -/
def found (key : Key) : Node :=
  ⟨key, false⟩

/-- The qualified name of the type that owns a declaration. -/
def enclosingType (node : Node) : String :=
  node.key.owner

/-- Marks a node as visited, and says whether it was not so before. -/
def mark (node : Node) : Bool × Node :=
  (!node.visited, { node with visited := true })

end Node

/-- A use of one node by another, both given by their numbers. -/
structure Edge where
  source : Nat
  target : Nat
  kind : EdgeKind
deriving DecidableEq, Repr, Inhabited

/-- What has been found so far. -/
structure Registry where
  /-- The nodes; the number of a node is its place in the list. -/
  nodes : List Node
  edges : List Edge
  /-- The numbers of the nodes that wait to be scanned, the next one first. -/
  workList : List Nat
  files : Table OutputFile
deriving Inhabited

namespace Registry

/-- The registry in which nothing has been found. -/
def empty : Registry :=
  ⟨[], [], [], []⟩

/-! ## Nodes -/

/-- The number of the node of a key. The nodes are searched; a map from keys to numbers gives the
same answers as long as every new node enters both. -/
def find? (registry : Registry) (key : Key) : Option Nat :=
  registry.nodes.findIdx? (·.key == key)

/-- Whether a key has a node. -/
def contains (registry : Registry) (key : Key) : Bool :=
  (registry.find? key).isSome

/-- The number of the node of a key, which is created and put on the work list if there is none. The
flag says whether it was created. -/
def intern (registry : Registry) (key : Key) : (Nat × Bool) × Registry :=
  match registry.find? key with
  | some number => ((number, false), registry)
  | none =>
    let number := registry.nodes.length
    ((number, true),
      { registry with
        nodes := registry.nodes ++ [.found key], workList := number :: registry.workList })

/-- Takes the next number from the work list. -/
def pop (registry : Registry) : Option Nat × Registry :=
  match registry.workList with
  | [] => (none, registry)
  | number :: rest => (some number, { registry with workList := rest })

/-- Marks the node of a number as visited, and says whether it was not so before. -/
def markVisited (registry : Registry) (number : Nat) : Bool × Registry :=
  match registry.nodes[number]? with
  | none => (false, registry)
  | some node =>
    let (fresh, marked) := node.mark
    (fresh, { registry with nodes := registry.nodes.set number marked })

/-- The number of declarations found. -/
def nodeCount (registry : Registry) : Nat :=
  registry.nodes.length

/-- The number of declarations taken up for scanning. -/
def visitedCount (registry : Registry) : Nat :=
  registry.nodes.countP (·.visited)

/-- The keys of the visited nodes, in order. -/
def visitedKeys (registry : Registry) : List Key :=
  Key.sort ((registry.nodes.filter (·.visited)).map (·.key))

/-! ## Edges -/

/-- Gives an edge a kind in a list of edges, and adds it if it is not there. -/
def putEdge (edges : List Edge) (edge : Edge) : List Edge :=
  match edges with
  | [] => [edge]
  | first :: rest =>
    if first.source == edge.source && first.target == edge.target then edge :: rest
    else first :: putEdge rest edge

/-- Gives the edge between two nodes a kind; a node has no edge to itself. -/
def addEdge (registry : Registry) (source target : Nat) (kind : EdgeKind) : Registry :=
  if source == target then registry
  else { registry with edges := putEdge registry.edges ⟨source, target, kind⟩ }

/-- The number of edges. -/
def edgeCount (registry : Registry) : Nat :=
  registry.edges.length

/-- Edges are ordered by source, then by target, then by the name of the kind. -/
def edgeLe (first second : Key × Key × EdgeKind) : Bool :=
  ((first.1.compare second.1).then <|
    (first.2.1.compare second.2.1).then (Ord.compare first.2.2.name second.2.2.name)).isLE

/-- An edge with the keys of its nodes. -/
def edgeKeys? (registry : Registry) (edge : Edge) : Option (Key × Key × EdgeKind) := do
  let source ← registry.nodes[edge.source]?
  let target ← registry.nodes[edge.target]?
  pure (source.key, target.key, edge.kind)

/-- The edges with the keys of their nodes, in order. -/
def edgeList (registry : Registry) : List (Key × Key × EdgeKind) :=
  (registry.edges.filterMap registry.edgeKeys?).mergeSort edgeLe

/-- The keys to which edges lead from the node of a key, in order. -/
def dependencies (registry : Registry) (key : Key) : List Key :=
  match registry.find? key with
  | none => []
  | some number =>
    Key.sort <| (registry.edges.filter (·.source == number)).filterMap fun edge =>
      registry.nodes[edge.target]?.map (·.key)

/-! ## Output files -/

/-- Whether a type has an output file. -/
def hasFile (registry : Registry) (name : String) : Bool :=
  registry.files.has name

/-- The output file of a type. -/
def file? (registry : Registry) (name : String) : Option OutputFile :=
  registry.files.get? name

/-- Creates the output file of a type if there is none, and says whether it did. -/
def ensureFile (registry : Registry) (unit : CompilationUnit) (decl : TypeDecl) : Bool × Registry :=
  if registry.hasFile decl.qualifiedName then (false, registry)
  else
    (true,
      { registry with files := registry.files.put decl.qualifiedName (.ofDecl unit decl) })

/-- Changes the output file of a type, if there is one. -/
def updateFile (registry : Registry) (name : String) (change : OutputFile → OutputFile) :
    Registry :=
  { registry with files := registry.files.update name change }

/-! ## Folding member types into their enclosing types -/

/-- The order in which the files of member types are folded away: longer names first, so that a
member type is complete before it moves, and names of one length in their order. -/
def foldLe (first second : String) : Bool :=
  if first.utf8ByteSize = second.utf8ByteSize then decide (first ≤ second)
  else decide (second.utf8ByteSize < first.utf8ByteSize)

/-- The warning for a member type whose enclosing type has no output file. -/
def orphanWarning (outer name : String) : String :=
  "no output file for " ++ outer ++ ", enclosing " ++ name

/-- Folds the file of one member type into the file of its enclosing type; without such a file it
stays and gives a warning. -/
def foldFile (files : Table OutputFile) (name : String) : Table OutputFile × List String :=
  match files.get? name with
  | none => (files, [])
  | some file =>
    let outer := file.outer.getD ""
    let rest := files.drop name
    if rest.has outer then (rest.update outer (·.absorb file), [])
    else (rest.put name file, [orphanWarning outer name])

/-- Folds the files of several member types, one after the other. -/
def foldFiles (files : Table OutputFile) : List String → Table OutputFile × List String
  | [] => (files, [])
  | name :: names =>
    let (folded, warnings) := foldFile files name
    let (result, more) := foldFiles folded names
    (result, warnings ++ more)

/-- The output files that are left when member types have been folded into their enclosing types,
each in the order of output, by qualified name; and the warnings that arose. -/
def outputFiles (registry : Registry) : Table OutputFile × List String :=
  let members := (registry.files.filter (·.2.outer.isSome)).map (·.2.qualifiedName)
  let (files, warnings) := foldFiles registry.files (members.mergeSort foldLe)
  let sorted := files.mergeSort fun first second => decide (first.1 ≤ second.1)
  (sorted.map fun (name, file) => (name, file.finalize), warnings)

end Registry

end JavaSlice.Slice
