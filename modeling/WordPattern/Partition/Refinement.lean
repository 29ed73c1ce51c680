import WordPattern.Automaton.Preorder
import WordPattern.Lookup
import WordPattern.Partition.Worklist

/-!
# Refining a partition until no block can be told apart

The states that runs can reach are first divided into accepting and rejecting
ones. A block that waits is then used as a splitter: for each letter, the
states with an edge on that letter into the splitter divide every block they
touch. Of the two parts of a divided block the smaller one waits next, or the
new one if the block was waiting already. When nothing waits, no block can be
divided any more.
-/

namespace WordPattern

/-- For each state, the sources of the edges that lead into it, by letter. -/
abbrev Incoming := Array (Table Char IdSet)

namespace Incoming

/-- Lists a state as the source of an edge, under the edge's target and letter. -/
def addEdge (id : StateId) (incoming : Incoming) (edge : Char × StateId) : Except Error Incoming :=
  Row.change incoming edge.2 fun sources => sources.merge IdSet.union edge.1 (.singleton id)

/-- Lists a state as the source of all edges that leave it. -/
def addState (a : Automaton) (incoming : Incoming) (id : StateId) : Except Error Incoming := do
  (← a.state id).edges.entries.foldlM (addEdge id) incoming

/-- The sources of the edges that leave the listed states. -/
def ofStates (a : Automaton) (ids : List StateId) : Except Error Incoming :=
  ids.foldlM (addState a) (Array.replicate a.numStates .empty)

/-- The sources of the edges that lead into a set of states, by letter. -/
def into (incoming : Incoming) (targets : IdSet) : Except Error (Table Char IdSet) :=
  targets.members.foldlM (fun found id => do
    return (← Row.read incoming id).entries.foldl (fun found entry =>
      found.merge IdSet.union entry.1 entry.2) found)
    .empty

end Incoming

/-- A partition that is being refined. -/
structure Refinement where
  /-- The blocks so far. -/
  partition : Partition
  /-- The blocks to be used as splitters. -/
  worklist : Worklist
deriving DecidableEq

namespace Refinement

/-- Adds a block and lets it wait; the empty set is no block. -/
def addBlock (r : Refinement) (block : IdSet) : Except Error Refinement :=
  if block.isEmpty then .ok r
  else do
    let (partition, result) := r.partition.insert block
    return ⟨partition, r.worklist.push (← result)⟩

/-- Accepting states in one block and rejecting states in another, both
waiting. -/
def start (a : Automaton) (ids : List StateId) : Except Error Refinement := do
  let marked ← ids.mapM fun id => do return (id, (← a.state id).accepting)
  let (accepting, rejecting) := marked.partition Prod.snd
  let r ← addBlock ⟨.empty a.numStates, .empty⟩ (.ofList (accepting.map Prod.fst))
  r.addBlock (.ofList (rejecting.map Prod.fst))

/-- Divides a block into the part inside a set and the part outside, if
neither is empty. -/
def divide (sources : IdSet) (r : Refinement) (id : BlockId) : Except Error Refinement := do
  let block ← r.partition.get id
  let inside := block.inter sources
  let outside := block.diff sources
  if inside.isEmpty || outside.isEmpty then return r
  let (partition, result) := r.partition.split id inside outside
  let new ← result
  let next :=
    if r.worklist.contains id then new
    else if inside.size ≤ outside.size then id
    else new
  return ⟨partition, r.worklist.push next⟩

/-- Divides every block that a set of states touches. -/
def divideAll (r : Refinement) (sources : IdSet) : Except Error Refinement :=
  (r.partition.touchedBy sources).foldlM (divide sources) r

/-- Divides by the edges that lead into a splitter, letter by letter. -/
def splitBy (incoming : Incoming) (r : Refinement) (splitter : IdSet) :
    Except Error Refinement := do
  (← incoming.into splitter).values.foldlM divideAll r

/-- Takes the block that has waited longest and splits by it. The result holds
the splitter too; there is none when nothing waits. -/
def step (incoming : Incoming) (r : Refinement) : Except Error (Option (IdSet × Refinement)) :=
  match r.worklist.pop? with
  | none => .ok none
  | some (id, worklist) => do
    let splitter ← r.partition.get id
    let next ← splitBy incoming ⟨r.partition, worklist⟩ splitter
    return some (splitter, next)

/-- Splits until nothing waits, `fuel` times at most. -/
def run (incoming : Incoming) : Nat → Refinement → Except Error Refinement
  | 0, r => .ok r
  | fuel + 1, r => do
    match ← r.step incoming with
    | none => return r
    | some (_, next) => run incoming fuel next

end Refinement

/-- The partition of the listed states of an automaton in which states share a
block when no word tells them apart. Every division adds a block and lets one
wait, so there are no more splitters than states. -/
def Partition.refined (a : Automaton) (ids : List StateId) : Except Error Partition := do
  let incoming ← Incoming.ofStates a ids
  let r ← Refinement.start a ids
  let r ← r.run incoming (a.numStates + 1)
  return r.partition

end WordPattern
