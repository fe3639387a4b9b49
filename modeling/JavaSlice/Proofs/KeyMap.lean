import JavaSlice.Proofs.Calls
import Mathlib.Logic.Function.Basic

/-!
# The map of keys

A registry finds the node of a key by a search through its nodes. A registry that is used for long
does not search. It keeps a map from keys to the numbers of their nodes, asks the map before it
makes a node, and enters the node in it afterwards. The module puts such a map beside a registry.
The map and the nodes stay in step under all calls (`MappedRegistry.Logged.inStep`), and every
sequence of calls has the answers that it has on a registry that searches
(`MappedRegistry.logged_iff`).
-/

namespace JavaSlice.Slice

open List

/-- A registry with a map from the keys of its nodes to their numbers. -/
structure MappedRegistry where
  registry : Registry
  numbers : Key → Option Nat

namespace MappedRegistry

open Registry (Call Answer Log)

/-- Nothing has been found, and the map is empty. -/
def empty : MappedRegistry :=
  ⟨.empty, fun _ => none⟩

/-- The number of the node of a key by the map. A node that is created is entered in the map. -/
def intern (mapped : MappedRegistry) (key : Key) : (Nat × Bool) × MappedRegistry :=
  match mapped.numbers key with
  | some number => ((number, false), mapped)
  | none =>
    let number := mapped.registry.nodes.length
    let registry :=
      { mapped.registry with
        nodes := mapped.registry.nodes ++ [.found key]
        workList := number :: mapped.registry.workList }
    ((number, true), ⟨registry, Function.update mapped.numbers key (some number)⟩)

/-- Makes a call with the help of the map. Only a new node changes the map. -/
def call (mapped : MappedRegistry) : Call → Answer × MappedRegistry
  | .intern key =>
    let ((number, created), next) := mapped.intern key
    (.node number created, next)
  | other =>
    let (answer, registry) := mapped.registry.call other
    (answer, { mapped with registry })

/-- The registries with maps that calls lead to, each with the log of these calls. -/
inductive Logged : Log → MappedRegistry → Prop where
  | start : Logged [] .empty
  | call {log : Log} {mapped : MappedRegistry} (call : Call) :
      Logged log mapped → call.Valid mapped.registry →
        Logged (log ++ [(call, (mapped.call call).1)]) (mapped.call call).2

/-- The map has the number that a search finds, for every key. -/
def InStep (mapped : MappedRegistry) : Prop :=
  ∀ key, mapped.numbers key = mapped.registry.find? key

/-- A search sees nothing of the nodes but their keys. -/
theorem find?_eq (registry : Registry) (key : Key) :
    registry.find? key = registry.keys.findIdx? (· == key) := by
  rw [Registry.keys, findIdx?_map]
  rfl

/-- A new node is found under its key, and nothing else is found than before. -/
theorem find?_append (absent : nodes.findIdx? (·.key == key) = none) (other : Key) :
    (nodes ++ [Node.found key]).findIdx? (·.key == other) =
      if other = key then some nodes.length else nodes.findIdx? (·.key == other) := by
  rw [findIdx?_append]
  split
  next same =>
    rw [same, absent]
    simp [Node.found]
  next different => simp [Node.found, Ne.symm different]

variable {mapped : MappedRegistry} {log : Log}

theorem InStep.intern (inStep : mapped.InStep) (key : Key) :
    (mapped.intern key).1 = (mapped.registry.intern key).1 ∧
      (mapped.intern key).2.registry = (mapped.registry.intern key).2 ∧
      (mapped.intern key).2.InStep := by
  unfold MappedRegistry.intern Registry.intern
  rw [inStep key]
  cases found : mapped.registry.find? key with
  | some number => exact ⟨rfl, rfl, inStep⟩
  | none =>
    refine ⟨rfl, rfl, fun other => ?_⟩
    refine (Function.update_apply ..).trans (.trans ?_ (find?_append found other).symm)
    rw [inStep other]
    rfl

/-- A call has the same answer with the map as without, and keeps the map in step. -/
theorem InStep.call (inStep : mapped.InStep) (call : Call) :
    (mapped.call call).1 = (mapped.registry.call call).1 ∧
      (mapped.call call).2.registry = (mapped.registry.call call).2 ∧
      (mapped.call call).2.InStep := by
  have others : (∀ key, call ≠ .intern key) →
      InStep { mapped with registry := (mapped.registry.call call).2 } := by
    intro other key
    rw [inStep key, find?_eq, find?_eq, Registry.call_keys other]
  cases call with
  | intern key =>
    obtain ⟨answer, registry, inStep⟩ := inStep.intern key
    exact ⟨congrArg (fun (number, created) => Answer.node number created) answer, registry, inStep⟩
  | addEdge | pop | markVisited | ensureFile => exact ⟨rfl, rfl, others (by simp)⟩

/-- Whatever calls are made, the map stays in step. -/
theorem Logged.inStep (logged : Logged log mapped) : mapped.InStep := by
  induction logged with
  | start => exact fun _ => rfl
  | call call _ _ inStep => exact (inStep.call call).2.2

/-- The same calls with the same answers lead to a registry with a map and to one without. -/
theorem logged_iff {registry : Registry} :
    registry.Logged log ↔ ∃ mapped, Logged log mapped ∧ mapped.registry = registry := by
  constructor
  · intro logged
    induction logged with
    | start => exact ⟨_, .start, rfl⟩
    | call call _ valid ih =>
      obtain ⟨mapped, logged, rfl⟩ := ih
      obtain ⟨answer, registry, -⟩ := logged.inStep.call call
      exact ⟨_, answer ▸ .call call logged valid, registry⟩
  · rintro ⟨mapped, logged, rfl⟩
    induction logged with
    | start => exact .start
    | call call logged valid ih =>
      obtain ⟨answer, registry, -⟩ := logged.inStep.call call
      rw [answer, registry]
      exact .call call ih valid

end MappedRegistry

end JavaSlice.Slice
