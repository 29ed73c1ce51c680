import WordPattern.Error
import WordPattern.IdSet
import WordPattern.Table

/-!
# Partitions of states into blocks

Blocks are numbered in the order in which they are added, and a number is
never given again: when a block is split, one part keeps the number and the
other gets the next one. Each state knows the block that it was put into last.
A split stores the kept part as it is told, so the parts have to be chosen
well by whoever splits; the operations themselves do not compare them with
the old block.

An operation that fails may have changed the partition before, so each gives
the partition that it leaves behind beside its result.
-/

namespace WordPattern

/-- The number of a block. -/
abbrev BlockId := Nat

/-- Blocks of states, and the way back from states to blocks. -/
structure Partition where
  /-- The blocks under their numbers. -/
  blocks : Table BlockId IdSet := .empty
  /-- For each state the block that holds it, if it was put into any. -/
  owners : Array (Option BlockId)
  /-- The number that the next block gets. -/
  nextId : Nat := 0
deriving DecidableEq

namespace Partition

/-- The partition without blocks, for states below `numStates`. -/
def empty (numStates : Nat) : Partition := { owners := Array.replicate numStates none }

/-- The number of blocks. -/
def size (p : Partition) : Nat := p.blocks.entries.length

/-- Whether there is no block. -/
def isEmpty (p : Partition) : Bool := p.blocks.entries.isEmpty

/-- The states of a block. -/
def get (p : Partition) (id : BlockId) : Except Error IdSet :=
  match p.blocks.find? id with
  | some block => .ok block
  | none => .error (.missingBlock id)

/-- The block that holds a state, if it was put into any. -/
def blockOf (p : Partition) (state : Nat) : Option BlockId := p.owners[state]?.join

/-- Names a block as the owner of the listed states one by one, up to the first
that is out of range. -/
def claim (id : BlockId) (owners : Array (Option BlockId)) :
    List Nat → Array (Option BlockId) × Except Error Unit
  | [] => (owners, .ok ())
  | state :: rest =>
    if state < owners.size then claim id (owners.setIfInBounds state (some id)) rest
    else (owners, .error (.noSuchState state))

/-- Adds a block under the next number. -/
def insert (p : Partition) (block : IdSet) : Partition × Except Error BlockId :=
  match claim p.nextId p.owners block.members with
  | (owners, .ok ()) =>
    (⟨p.blocks.insert p.nextId block, owners, p.nextId + 1⟩, .ok p.nextId)
  | (owners, .error error) => (⟨p.blocks, owners, p.nextId + 1⟩, .error error)

/-- Replaces a block by two: `kept` stays under its number, `moved` gets the
next one. -/
def split (p : Partition) (id : BlockId) (kept moved : IdSet) :
    Partition × Except Error BlockId :=
  let rest := p.blocks.erase id
  match p.blocks.find? id with
  | none => ({ p with blocks := rest }, .error (.missingBlock id))
  | some _ => insert { p with blocks := rest.insert id kept } moved

/-- The blocks that hold some of the states, ascending. States without a block
do not count. -/
def touchedBy (p : Partition) (states : IdSet) : List BlockId :=
  (IdSet.ofList (states.members.filterMap p.blockOf)).members

end Partition

end WordPattern
