import WordPattern.Partition.Basic

/-!
# Blocks that wait

A worklist is a queue of blocks in which a block waits at most once: adding a
block that already waits changes nothing. The front of the queue is a list to
take from, its back a list to add to; the blocks that wait are also kept as a
set.
-/

namespace WordPattern

/-- A queue of blocks without repetition. -/
structure Worklist where
  /-- The blocks to be taken next, first one first. -/
  front : List BlockId := []
  /-- The blocks added last, last one first. -/
  back : List BlockId := []
  /-- The blocks that wait. -/
  waiting : IdSet := .empty
deriving DecidableEq

namespace Worklist

/-- The worklist on which nothing waits. -/
def empty : Worklist := {}

/-- Whether nothing waits. -/
def isEmpty (w : Worklist) : Bool := w.front.isEmpty && w.back.isEmpty

/-- Whether a block waits. -/
def contains (w : Worklist) (id : BlockId) : Bool := id ∈ w.waiting

/-- Lets a block wait behind all others, unless it waits already. -/
def push (w : Worklist) (id : BlockId) : Worklist :=
  if id ∈ w.waiting then w
  else { w with back := id :: w.back, waiting := w.waiting.insert id }

/-- Takes the block that has waited longest. -/
def pop? (w : Worklist) : Option (BlockId × Worklist) :=
  match w.front with
  | id :: front => some (id, { w with front, waiting := w.waiting.erase id })
  | [] =>
    match w.back.reverse with
    | id :: front => some (id, { front, waiting := w.waiting.erase id })
    | [] => none

end Worklist

end WordPattern
