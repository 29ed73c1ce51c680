import WordPattern.Partition.Refinement
import WordPattern.Proofs.Fallible
import WordPattern.Proofs.Partition.Basic
import WordPattern.Proofs.Partition.Worklist

/-!
# What one division does

A refinement is coherent when its partition and its worklist are consistent,
the blocks hold exactly the listed states, none is empty, and only existing
blocks wait. Dividing a block of a coherent refinement succeeds: it leaves
everything as it is if the block lies on one side, and otherwise does what is
said here of a division, which keeps the refinement coherent.
-/

namespace WordPattern.Refinement

variable {ids : List StateId} {r next : Refinement} {sources : IdSet} {id : BlockId}

/-- What holds whenever a block is divided, whatever the automaton. -/
structure Coherent (ids : List StateId) (r : Refinement) : Prop where
  /-- States and blocks agree. -/
  partition : r.partition.Consistent
  /-- Queue and set agree. -/
  worklist : r.worklist.Consistent
  /-- Exactly the listed states have a block. -/
  covers : ∀ {s}, (∃ id, r.partition.blockOf s = some id) ↔ s ∈ ids
  /-- The listed states are in range. -/
  inRange : ∀ {s}, s ∈ ids → s < r.partition.owners.size
  /-- No block is empty. -/
  inhabited : ∀ {id}, id < r.partition.nextId → ∃ s, s ∈ r.partition.blockAt id
  /-- Only existing blocks wait. -/
  queued : ∀ {id}, id ∈ r.worklist.queue → id < r.partition.nextId

/-- The block lies inside a set or outside of it. -/
def OneSided (r : Refinement) (sources : IdSet) (id : BlockId) : Prop :=
  (∀ s ∈ r.partition.blockAt id, s ∈ sources) ∨ ∀ s ∈ r.partition.blockAt id, s ∉ sources

/-- A block is divided by a set: its part inside stays under its number, and its
part outside becomes the next block. The next block waits if the divided one
does; otherwise the smaller part waits, the part inside if they are as large. -/
structure Division (sources : IdSet) (id : BlockId) (r next : Refinement) : Prop where
  /-- The divided block exists. -/
  exists_block : id < r.partition.nextId
  /-- Some of the block's states lie inside. -/
  inside : ∃ s ∈ r.partition.blockAt id, s ∈ sources
  /-- Some of the block's states lie outside. -/
  outside : ∃ s ∈ r.partition.blockAt id, s ∉ sources
  /-- No other state is taken in. -/
  owners : next.partition.owners.size = r.partition.owners.size
  /-- There is one block more. -/
  nextId : next.partition.nextId = r.partition.nextId + 1
  /-- The states outside change their block. -/
  blockOf : ∀ s, next.partition.blockOf s =
    if s ∈ (r.partition.blockAt id).diff sources then some r.partition.nextId
    else r.partition.blockOf s
  /-- Both parts are blocks. -/
  find? : ∀ other, next.partition.blocks.find? other =
    if other = r.partition.nextId then some ((r.partition.blockAt id).diff sources)
    else if other = id then some ((r.partition.blockAt id).inter sources)
    else r.partition.blocks.find? other
  /-- One of the parts is let wait. -/
  worklist : next.worklist = r.worklist.push
    (if r.worklist.contains id then r.partition.nextId
    else if ((r.partition.blockAt id).inter sources).size ≤
      ((r.partition.blockAt id).diff sources).size then id
    else r.partition.nextId)

/-- Both parts of a divided block are blocks. -/
theorem Division.blockAt (d : Division sources id r next) (other : BlockId) :
    next.partition.blockAt other =
      if other = r.partition.nextId then (r.partition.blockAt id).diff sources
      else if other = id then (r.partition.blockAt id).inter sources
      else r.partition.blockAt other := Partition.blockAt_of_find?_split d.find? other

/-- The states of blocks are the listed ones. -/
theorem Coherent.mem_ids (h : r.Coherent ids) {s : StateId} (hs : s ∈ r.partition.blockAt id) :
    s ∈ ids := h.covers.mp ⟨id, h.partition.owner_iff.mpr hs⟩

/-- A refinement stays coherent when a block is taken from its worklist. -/
theorem Coherent.pop (h : r.Coherent ids) {rest : Worklist}
    (hpop : r.worklist.pop? = some (id, rest)) : Coherent ids ⟨r.partition, rest⟩ where
  partition := h.partition
  worklist := h.worklist.pop hpop
  covers := h.covers
  inRange := h.inRange
  inhabited := h.inhabited
  queued := by
    intro other hother
    have hqueue := Worklist.queue_eq_cons_of_pop? hpop
    exact h.queued (hqueue ▸ List.mem_cons_of_mem id hother)

/-- Dividing an existing block succeeds. -/
theorem Coherent.divide_spec (h : r.Coherent ids) (sources : IdSet)
    (hid : id < r.partition.nextId) :
    ∃ next, divide sources r id = .ok next ∧
      (next = r ∧ r.OneSided sources id ∨ Division sources id r next) := by
  have hget := h.partition.get_eq_ok hid
  cases hin : ((r.partition.blockAt id).inter sources).isEmpty with
  | true =>
    refine ⟨r, ?_, Or.inl ⟨rfl, Or.inr ?_⟩⟩
    · simp [divide, hget, hin, bind, Except.bind, pure, Except.pure]
    · intro s hs hmem
      exact IdSet.isEmpty_iff.mp hin s (IdSet.mem_inter.mpr ⟨hs, hmem⟩)
  | false =>
    cases hout : ((r.partition.blockAt id).diff sources).isEmpty with
    | true =>
      refine ⟨r, ?_, Or.inl ⟨rfl, Or.inl ?_⟩⟩
      · simp [divide, hget, hout, bind, Except.bind, pure, Except.pure]
      · intro s hs
        by_contra hnot
        exact IdSet.isEmpty_iff.mp hout s (IdSet.mem_diff.mpr ⟨hs, hnot⟩)
    | false =>
      have hrange : ∀ s ∈ (r.partition.blockAt id).diff sources, s < r.partition.owners.size := by
        intro s hs
        exact h.inRange (h.mem_ids (IdSet.mem_diff.mp hs).1)
      have hsome : r.partition.blocks.find? id ≠ none := fun hnone =>
        Nat.not_le_of_lt hid (h.partition.find?_eq_none_iff.mp hnone)
      obtain ⟨q, hsplit, howners, hnext, hof, hfind⟩ :=
        Partition.split_spec ((r.partition.blockAt id).inter sources) hsome hrange
      obtain ⟨s, hs⟩ := IdSet.exists_mem_of_isEmpty_false hin
      obtain ⟨t, ht⟩ := IdSet.exists_mem_of_isEmpty_false hout
      let part := if r.worklist.contains id then r.partition.nextId
        else if ((r.partition.blockAt id).inter sources).size ≤
          ((r.partition.blockAt id).diff sources).size then id
        else r.partition.nextId
      refine ⟨⟨q, r.worklist.push part⟩, ?_, Or.inr ⟨hid, ⟨s, IdSet.mem_inter.mp hs⟩,
        ⟨t, IdSet.mem_diff.mp ht⟩, howners, hnext, hof, hfind, rfl⟩⟩
      simp [divide, hget, hin, hout, hsplit, part, bind, Except.bind, pure, Except.pure]

section

variable (h : r.Coherent ids) (d : Division sources id r next)

include h d

/-- The part that is let wait is one of the two, and does not wait yet. If the
divided block waits, it is the next one, and otherwise the smaller one. -/
theorem Division.queue :
    ∃ part, next.worklist.queue = r.worklist.queue ++ [part] ∧
      (part = id ∨ part = r.partition.nextId) ∧
      (id ∈ r.worklist.queue → part = r.partition.nextId) ∧
      (id ∉ r.worklist.queue →
        2 * (next.partition.blockAt part).size ≤ (r.partition.blockAt id).size) := by
  have hnew : r.partition.nextId ∉ r.worklist.queue := fun hmem =>
    Nat.lt_irrefl _ (h.queued hmem)
  have hpush := h.worklist.queue_push
  have htotal := IdSet.size_inter_add_size_diff (r.partition.blockAt id) sources
  cases hwait : r.worklist.contains id with
  | true =>
    have hid : id ∈ r.worklist.queue := h.worklist.contains_iff.mp hwait
    refine ⟨r.partition.nextId, ?_, Or.inr rfl, fun _ => rfl, fun hnot => absurd hid hnot⟩
    rw [d.worklist, hwait, if_pos rfl, hpush, if_neg hnew]
  | false =>
    have hid : id ∉ r.worklist.queue := by
      rw [← h.worklist.contains_iff, hwait]
      exact Bool.false_ne_true
    by_cases hle : ((r.partition.blockAt id).inter sources).size ≤
        ((r.partition.blockAt id).diff sources).size
    · refine ⟨id, ?_, Or.inl rfl, fun hmem => absurd hmem hid, fun _ => ?_⟩
      · rw [d.worklist, hwait, if_neg Bool.false_ne_true, if_pos hle, hpush, if_neg hid]
      · rw [d.blockAt id, if_neg (Nat.ne_of_lt d.exists_block), if_pos rfl]
        omega
    · refine ⟨r.partition.nextId, ?_, Or.inr rfl, fun hmem => absurd hmem hid, fun _ => ?_⟩
      · rw [d.worklist, hwait, if_neg Bool.false_ne_true, if_neg hle, hpush, if_neg hnew]
      · rw [d.blockAt, if_pos rfl]
        omega

/-- A block that waits after a division comes from one that waited, or is at most
half of the block that it comes from. -/
theorem Division.waiting {other : BlockId} (hother : other ∈ next.worklist.queue) :
    (if other = r.partition.nextId then id else other) ∈ r.worklist.queue ∨
      2 * (next.partition.blockAt other).size ≤
        (r.partition.blockAt (if other = r.partition.nextId then id else other)).size := by
  obtain ⟨part, hqueue, hpart, hwaited, hsmaller⟩ := d.queue h
  rw [hqueue, List.mem_append, List.mem_singleton] at hother
  have hpartid : (if part = r.partition.nextId then id else part) = id := by
    rcases hpart with rfl | rfl
    · exact ite_self part
    · exact if_pos rfl
  rcases hother with hold | rfl
  · have hne : other ≠ r.partition.nextId := Nat.ne_of_lt (h.queued hold)
    rw [if_neg hne]
    exact Or.inl hold
  · rw [hpartid]
    exact (Classical.em (id ∈ r.worklist.queue)).imp_right hsmaller

/-- Putting the next block back into the divided one undoes the division. -/
theorem Division.blockOf_eq_map (s : StateId) :
    r.partition.blockOf s =
      (next.partition.blockOf s).map fun other =>
        if other = r.partition.nextId then id else other := by
  rw [d.blockOf s]
  by_cases hs : s ∈ (r.partition.blockAt id).diff sources
  · rw [if_pos hs, Option.map_some, if_pos rfl]
    exact h.partition.owner_iff.mpr (IdSet.mem_diff.mp hs).1
  · rw [if_neg hs]
    cases hof : r.partition.blockOf s with
    | none => rfl
    | some other => rw [Option.map_some, if_neg (h.partition.not_mem_next hof)]

/-- Division keeps a refinement coherent. -/
theorem Division.coherent : next.Coherent ids := by
  have hdiff : ∀ {s}, s ∈ (r.partition.blockAt id).diff sources ↔
      s ∈ r.partition.blockAt id ∧ s ∉ sources := IdSet.mem_diff
  obtain ⟨part, hqueue, hpart, -⟩ := d.queue h
  refine ⟨?_, ?_, ?_, ?_, ?_, ?_⟩
  · refine h.partition.split d.exists_block ?_ ?_ d.nextId d.blockOf d.find?
    · intro s
      rw [IdSet.mem_inter, IdSet.mem_diff]
      by_cases hs : s ∈ sources <;> simp [hs]
    · intro s hin hout
      exact (IdSet.mem_diff.mp hout).2 (IdSet.mem_inter.mp hin).2
  · rw [d.worklist]
    exact h.worklist.push _
  · intro s
    rw [← h.covers, d.blockOf_eq_map h s]
    simp
  · intro s hs
    rw [d.owners]
    exact h.inRange hs
  · intro other hother
    rw [d.nextId] at hother
    rw [d.blockAt other]
    by_cases hnew : other = r.partition.nextId
    · obtain ⟨s, hs⟩ := d.outside
      rw [if_pos hnew]
      exact ⟨s, hdiff.mpr hs⟩
    · rw [if_neg hnew]
      by_cases he : other = id
      · obtain ⟨s, hs⟩ := d.inside
        rw [if_pos he]
        exact ⟨s, IdSet.mem_inter.mpr hs⟩
      · rw [if_neg he]
        exact h.inhabited (by omega)
  · intro other hother
    rw [hqueue] at hother
    rw [d.nextId]
    rcases List.mem_append.mp hother with hold | hlast
    · exact Nat.lt_succ_of_lt (h.queued hold)
    · rw [List.mem_singleton.mp hlast]
      rcases hpart with rfl | rfl
      · exact Nat.lt_succ_of_lt d.exists_block
      · exact Nat.lt_succ_self _

/-- States that share a block after the division shared one before. -/
theorem Division.coarser {s t : StateId}
    (hst : next.partition.blockOf s = next.partition.blockOf t) :
    r.partition.blockOf s = r.partition.blockOf t := by
  rw [d.blockOf_eq_map h s, d.blockOf_eq_map h t, hst]

end

/-- A block after a division is a part of the block that it comes from. -/
theorem Division.sublist (d : Division sources id r next) (other : BlockId) :
    (next.partition.blockAt other).members.Sublist
      (r.partition.blockAt (if other = r.partition.nextId then id else other)).members := by
  rw [d.blockAt other]
  by_cases hnew : other = r.partition.nextId
  · rw [if_pos hnew, if_pos hnew]
    exact IdSet.diffLists_sublist _ _
  · rw [if_neg hnew, if_neg hnew]
    by_cases he : other = id
    · rw [if_pos he, he]
      exact IdSet.interLists_sublist _ _
    · rw [if_neg he]

/-- Both parts of a division lie on one side, and the sides of the other blocks
do not change. -/
theorem Division.oneSided (d : Division sources id r next) {other : BlockId}
    (hother : other ≠ id → other ≠ r.partition.nextId → r.OneSided sources other) :
    next.OneSided sources other := by
  rw [OneSided, d.blockAt other]
  by_cases hnew : other = r.partition.nextId
  · rw [if_pos hnew]
    exact Or.inr fun s hs => (IdSet.mem_diff.mp hs).2
  · rw [if_neg hnew]
    by_cases he : other = id
    · rw [if_pos he]
      exact Or.inl fun s hs => (IdSet.mem_inter.mp hs).2
    · rw [if_neg he]
      exact hother he hnew

end WordPattern.Refinement
