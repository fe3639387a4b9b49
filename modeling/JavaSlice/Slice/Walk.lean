import JavaSlice.Slice.Registry
import JavaSlice.Slice.Scan
import JavaSlice.Slice.Seed

/-!
# The walk

The walk finds everything that a set of seeds needs. It keeps a registry of what has been found and
a stack of types whose headers are still to be scanned, because the header of a type is copied as
soon as something of the type is kept. Pending headers are scanned first; then the node found last
is taken off the work list and scanned, until nothing is left. A declaration that cannot be scanned
stops the walk, which then stays as it was at that step.
-/

namespace JavaSlice.Slice

open Source

/-- The state of a run. -/
structure Walk where
  registry : Registry
  /-- Types whose headers wait to be scanned, each with the node that made its file; the next one
  first. -/
  pending : List (String × Nat)
  /-- The seeds that mean no declaration, as written. -/
  unresolved : List String
deriving Inhabited

/-- A declaration that could not be scanned. -/
structure ScanError where
  key : Key
  fault : Fault
deriving DecidableEq, Repr, Inhabited

/-- The text of an error. -/
def ScanError.message (error : ScanError) : String :=
  "dependency solving failed at " ++ error.key.display ++ ": " ++ error.fault.reason

namespace Walk

/-- The state before the first seed. -/
def start : Walk :=
  ⟨.empty, [], []⟩

/-! ## Finding declarations -/

/-- Makes the file of a type if there is none; its header then waits to be scanned on behalf of a
node. -/
def ensureFile (unit : CompilationUnit) (number : Nat) (walk : Walk) (decl : TypeDecl) : Walk :=
  match walk.registry.ensureFile unit decl with
  | (true, registry) =>
    { walk with registry, pending := (decl.qualifiedName, number) :: walk.pending }
  | (false, registry) => { walk with registry }

/-- Finds a declaration on behalf of a node, for a reason. A key that the project does not declare
is passed over. The first node of a type makes the file of the type and of all types that enclose
it. -/
def push (index : Index) (walk : Walk) (source : Option (Nat × EdgeKind)) (key : Key) :
    Option Nat × Walk :=
  match index.unitOf? key.owner, index.typeDecl? key.owner with
  | some unit, some decl =>
    if Index.declaresMember decl key.member then
      let ((number, _), interned) := walk.registry.intern key
      let registry := match source with
        | some (origin, kind) => interned.addEdge origin number kind
        | none => interned
      (some number,
        (index.scopeTypes decl).foldl (ensureFile unit number) { walk with registry })
    else (none, walk)
  | _, _ => (none, walk)

/-- The warning for a seed that means nothing. -/
def unresolvedWarning (seed : String) : String :=
  "seed " ++ seed ++ " does not resolve to a declaration"

/-- Finds the declaration of a seed; a seed without one is remembered. -/
def addSeed (index : Index) (walk : Walk) (seed : Seed) : Option Nat × Walk :=
  let (number, next) := match index.resolveSeed? seed.owner seed.member with
    | some key => walk.push index none key
    | none => (none, walk)
  match number with
  | some number => (some number, next)
  | none => (none, { next with unresolved := next.unresolved ++ [seed.display] })

/-! ## Carrying out scans -/

/-- Carries out one step of the scan of a node, in the file of the type that owns it. -/
def perform (index : Index) (number : Nat) (owner : String) (walk : Walk) :
    Step → Except Fault Walk
  | .need kind key => .ok (walk.push index (some (number, kind)) key).2
  | .useImport line =>
    .ok { walk with registry := walk.registry.updateFile owner (·.addImport line) }
  | .keepField field =>
    .ok { walk with registry := walk.registry.updateFile owner (·.addField field) }
  | .keepMethod key method =>
    .ok { walk with registry := walk.registry.updateFile owner (·.addMethod key method) }
  | .fail fault => .error fault

/-- Carries out steps one after the other, up to the first that fails; the state reached is kept
either way. -/
def performAll (index : Index) (number : Nat) (owner : String) :
    Walk → List Step → Walk × Option Fault
  | walk, [] => (walk, none)
  | walk, step :: steps =>
    match walk.perform index number owner step with
    | .ok next => performAll index number owner next steps
    | .error fault => (walk, some fault)

/-- The outcome of a scan, with the key on which a fault is reported. -/
def report (key : Key) : Walk × Option Fault → Walk × Option ScanError
  | (walk, fault) => (walk, fault.map (⟨key, ·⟩))

/-- Scans the header of a type. -/
def scanPending (index : Index) (walk : Walk) (name : String) (number : Nat) :
    Walk × Option ScanError :=
  report (.type name) (performAll index number name walk (scanHeader index name))

/-- Scans the declaration of a node. -/
def scanNode (index : Index) (walk : Walk) (number : Nat) (key : Key) : Walk × Option ScanError :=
  report key (performAll index number key.owner walk (scan index key))

/-- One turn of the walk; `none` when nothing is left to do. -/
def turn? (index : Index) (walk : Walk) : Option (Walk × Option ScanError) :=
  match walk.pending with
  | (name, number) :: pending => some (scanPending index { walk with pending } name number)
  | [] =>
    match walk.registry.pop with
    | (none, _) => none
    | (some number, popped) =>
      match popped.markVisited number, popped.nodes[number]? with
      | (true, registry), some node =>
        some (scanNode index { walk with registry } number node.key)
      | (_, registry), _ => some ({ walk with registry }, none)

/-- Takes at most `bound` turns, up to the first error. -/
def turns (index : Index) : Nat → Walk → Walk × Option ScanError
  | 0, walk => (walk, none)
  | bound + 1, walk =>
    match walk.turn? index with
    | none => (walk, none)
    | some (next, some error) => (next, some error)
    | some (next, none) => turns index bound next

/-- The number of keys that a type declares: itself, its field names, methods and constructors. -/
def keyCount (decl : TypeDecl) : Nat :=
  1 + (decl.fields.flatMap (·.names)).length + decl.methods.length + decl.constructors.length

/-- A bound on the turns of a walk: what waits, one scan for every declared key and one for every
header. -/
def turnBound (index : Index) (walk : Walk) : Nat :=
  walk.pending.length + walk.registry.workList.length +
    index.types.total (keyCount ·.decl + 1) + 1

/-- Takes turns until nothing is left or a declaration cannot be scanned. -/
def run (index : Index) (walk : Walk) : Walk × Option ScanError :=
  turns index (turnBound index walk) walk

/-- Adds seeds and scans all that they need, up to the first error. -/
def solve (index : Index) (walk : Walk) (seeds : List Seed) : Walk × Option ScanError :=
  (seeds.foldl (fun walk seed => (walk.addSeed index seed).2) walk).run index

end Walk

end JavaSlice.Slice
