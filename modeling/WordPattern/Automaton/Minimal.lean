import WordPattern.Partition.Refinement
import WordPattern.Untried

/-!
# The minimal automaton

The minimal automaton has one state per block of the refined partition. The
block of the start comes first, and the others follow breadth first, in the
order in which edges lead to them. A block has the edges and the acceptance of
its lowest state; by the choice of the partition its other states have the
same. States that accept nothing are kept apart from missing edges.
-/

namespace WordPattern.Automaton

/-- The lowest state of a block, with blocks as the targets of its edges. -/
def blockState (a : Automaton) (p : Partition) (id : BlockId) : Except Error State := do
  match (← p.get id).least? with
  | none => return {}
  | some lowest =>
    let state ← a.state lowest
    return { state with edges := state.edges.filterMap p.blockOf }

/-- A block that can be looked into has a number in use. -/
theorem mem_keys_of_blockState {a : Automaton} {p : Partition} {id : BlockId} {state : State}
    (h : a.blockState p id = .ok state) : id ∈ p.blocks.keys := by
  rw [blockState, Partition.get] at h
  split at h
  · rename_i block hfind
    obtain ⟨entry, hentry, hvalue⟩ := Option.map_eq_some_iff.mp hfind
    have hkey : entry.1 = id := by simpa using List.find?_some hentry
    exact hkey ▸ List.mem_map_of_mem (List.mem_of_find?_eq_some hentry)
  · cases h

/-- Goes on with a breadth-first tour of the blocks. `queue` are the blocks
whose turn comes, and `found` all blocks that were ever queued, each of them
having its place there as its number. -/
def tourFrom (a : Automaton) (p : Partition) (queue found : List BlockId) :
    Except Error (List (BlockId × State)) :=
  match queue with
  | [] => .ok []
  | id :: queue =>
    match _ : a.blockState p id with
    | .error error => .error error
    | .ok state => do
      let _ ← Row.placeOf found id
      let fresh := (state.successors.filter (· ∉ found)).eraseDups
      let later ← a.tourFrom p (queue ++ fresh) (found ++ fresh)
      return (id, state) :: later
termination_by ((untried p.blocks.keys found).length, (queue.filter (· ∈ p.blocks.keys)).length)
decreasing_by
  rename_i hstate
  have hid := mem_keys_of_blockState hstate
  by_cases hfresh : ∃ other ∈ fresh, other ∈ p.blocks.keys
  · -- a block is found for the first time
    obtain ⟨other, hother, hkey⟩ := hfresh
    have hnew : other ∉ found := by
      have hmem := (List.mem_filter.mp (List.mem_eraseDups.mp hother)).2
      simpa using hmem
    exact Prod.Lex.left _ _ (length_untried_lt (List.subset_append_left found fresh) hkey hnew
      (List.mem_append_right found hother))
  · -- the queue has one block less
    have hnone : fresh.filter (· ∈ p.blocks.keys) = [] := by
      rw [List.filter_eq_nil_iff]
      exact fun other hother hkey => hfresh ⟨other, hother, of_decide_eq_true hkey⟩
    have hfound : (untried p.blocks.keys (found ++ fresh)).length ≤
        (untried p.blocks.keys found).length :=
      length_untried_le (List.subset_append_left found fresh)
    rcases Nat.lt_or_eq_of_le hfound with hlt | heq
    · exact Prod.Lex.left _ _ hlt
    · rw [heq]
      apply Prod.Lex.right
      rw [List.filter_append, hnone, List.append_nil, List.filter_cons_of_pos (by simpa using hid)]
      exact Nat.lt_succ_self _

/-- The blocks that runs from the start can reach, breadth first. -/
def tour (a : Automaton) (p : Partition) : Except Error (List (BlockId × State)) :=
  let first := (p.blockOf start).toList
  a.tourFrom p first first

/-- The automaton whose states are those of listed blocks, in that order. -/
def ofBlocks (blocks : List (BlockId × State)) : Automaton :=
  let order := blocks.map Prod.fst
  ⟨(blocks.map fun block =>
    { block.2 with edges := block.2.edges.map order.idxOf }).toArray⟩

/-- One state per block, numbered in the order of the tour. -/
def quotient (a : Automaton) (p : Partition) : Except Error Automaton := do
  return ofBlocks (← a.tour p)

/-- The automaton with the fewest states among those that tell the reachable
states apart in the same way. -/
def minimal (a : Automaton) : Except Error Automaton := do
  let reachable ← a.preorder
  let p ← Partition.refined a reachable
  a.quotient p

end WordPattern.Automaton
