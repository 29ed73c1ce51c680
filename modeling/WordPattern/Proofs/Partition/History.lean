import WordPattern.Proofs.Partition.Basic

/-!
# Partitions through any sequence of calls

Blocks are inserted and split in any order, provided that inserted states are in range
and in no block yet, and that a block is split into two parts that make it up. Then
both views of the partition agree all the time: a state is in the block that owns it
and in no other, the states in blocks are those that were inserted, and the blocks that
a set touches are those that share a state with it. Each call that succeeds hands out
the next number and changes no block but those that it names. A split of a block that
does not exist fails and changes nothing. What becomes of a partition whose callers
choose the parts badly is not described here.
-/

namespace WordPattern.Partition

/-- A call that changes a partition. -/
inductive Call where
  /-- A block is added. -/
  | insert (block : IdSet)
  /-- A block is replaced by two. -/
  | split (id : BlockId) (kept moved : IdSet)

/-- The partition that a call leaves behind, whether it failed or not, with the
call's answer. -/
def perform (p : Partition) : Call → Partition × Except Error BlockId
  | .insert block => p.insert block
  | .split id kept moved => p.split id kept moved

variable {p q : Partition} {numStates : Nat} {id : BlockId} {s : Nat} {block kept moved : IdSet}
  {call : Call} {events : List (Call × Except Error BlockId)}

/-- What a caller has to see to: inserted states are in range and in no block, and a
block that exists is split into parts that make it up and share no state. -/
def Fits (numStates : Nat) (p : Partition) : Call → Prop
  | .insert block => ∀ s ∈ block, s < numStates ∧ ∀ id old, p.get id = .ok old → s ∉ old
  | .split id kept moved => ∀ block, p.get id = .ok block →
      (∀ s, s ∈ block ↔ s ∈ kept ∨ s ∈ moved) ∧ ∀ s ∈ kept, s ∉ moved

/-- The partitions that calls lead to from one without blocks, with the calls so far
and their answers. -/
inductive Reached (numStates : Nat) : List (Call × Except Error BlockId) → Partition → Prop where
  /-- At first there are no blocks. -/
  | new : Reached numStates [] (empty numStates)
  /-- A call is made as it should be. -/
  | call {events : List (Call × Except Error BlockId)} {p : Partition}
    (before : Reached numStates events p) (call : Call) (fits : p.Fits numStates call) :
    Reached numStates (events ++ [(call, (p.perform call).2)]) (p.perform call).1

/-- What a call does to the blocks, and what it answers. -/
inductive Effect (p : Partition) : Call → Partition × Except Error BlockId → Prop where
  /-- The block gets the next number, and all other blocks stay. -/
  | inserted {q : Partition} {block : IdSet}
    (get : ∀ id, q.get id = if id = p.nextId then .ok block else p.get id) :
    Effect p (.insert block) (q, .ok p.nextId)
  /-- The kept part stays under the number of the block, the moved part gets the next
  one, and all other blocks stay. -/
  | divided {q : Partition} {id : BlockId} {kept moved : IdSet} (exists_old : id < p.nextId)
    (get : ∀ other, q.get other =
      if other = p.nextId then .ok moved else if other = id then .ok kept else p.get other) :
    Effect p (.split id kept moved) (q, .ok p.nextId)
  /-- There is no such block, and the whole partition stays. -/
  | refused {id : BlockId} {kept moved : IdSet} (missing : p.nextId ≤ id) :
    Effect p (.split id kept moved) (p, .error (.missingBlock id))

/-- The states that a call inserts. -/
def Call.inserted : Call → IdSet
  | .insert block => block
  | .split .. => .empty

/-- The state was inserted by some call. -/
def Inserted (events : List (Call × Except Error BlockId)) (s : Nat) : Prop :=
  ∃ event ∈ events, s ∈ event.1.inserted

/-- The numbers that calls handed out, in order. -/
def handedOut (events : List (Call × Except Error BlockId)) : List BlockId :=
  events.filterMap fun event => event.2.toOption

/-- A block that is handed out with a state in it is the block with that number. -/
theorem Consistent.exists_get_iff (h : p.Consistent) :
    (∃ block, p.get id = .ok block ∧ s ∈ block) ↔ s ∈ p.blockAt id := by
  constructor
  · rintro ⟨block, hget, hs⟩
    rwa [blockAt_eq_of_get hget]
  · exact fun hs => ⟨p.blockAt id, h.get_eq_ok (h.lt_nextId hs), hs⟩

/-- What holds of a partition and the calls that led to it. -/
structure Recorded (numStates : Nat) (events : List (Call × Except Error BlockId))
    (p : Partition) : Prop where
  /-- The range of states stays. -/
  size_owners : p.owners.size = numStates
  /-- Both views agree. -/
  consistent : p.Consistent
  /-- The states with an owner are those that were inserted. -/
  inserted : ∀ s, (∃ id, p.blockOf s = some id) ↔ Inserted events s
  /-- Numbers are handed out in order, each once. -/
  handedOut : handedOut events = List.range p.nextId

theorem recorded_empty (numStates : Nat) : Recorded numStates [] (empty numStates) where
  size_owners := Array.size_replicate
  consistent := consistent_empty numStates
  inserted := by
    intro s
    simp [blockOf_empty, Inserted]
  handedOut := rfl

/-- A call that adds a block and changes no owners but to that block is recorded. -/
theorem Recorded.concat (h : Recorded numStates events p)
    (howners : q.owners.size = p.owners.size) (hnext : q.nextId = p.nextId + 1)
    (hconsistent : q.Consistent)
    (hinserted : ∀ s, (∃ id, q.blockOf s = some id) ↔
      (∃ id, p.blockOf s = some id) ∨ s ∈ call.inserted) :
    Recorded numStates (events ++ [(call, .ok p.nextId)]) q where
  size_owners := howners.trans h.size_owners
  consistent := hconsistent
  inserted := by
    intro s
    rw [hinserted, h.inserted, Inserted, Inserted]
    simp only [List.mem_append, List.mem_singleton, or_and_right, exists_or, exists_eq_left]
  handedOut := by
    rw [Partition.handedOut, List.filterMap_append, ← Partition.handedOut, h.handedOut, hnext,
      List.range_succ]
    rfl

/-- Inserting states that are in no block adds the block. -/
theorem Recorded.insert (h : Recorded numStates events p)
    (hfits : p.Fits numStates (.insert block)) :
    ∃ q, p.perform (.insert block) = (q, .ok p.nextId) ∧
      (∀ id, q.get id = if id = p.nextId then .ok block else p.get id) ∧
      Recorded numStates (events ++ [(.insert block, .ok p.nextId)]) q := by
  have hrange : ∀ s ∈ block, s < p.owners.size := fun s hs => h.size_owners ▸ (hfits s hs).1
  have hfree : ∀ s ∈ block, p.blockOf s = none := by
    intro s hs
    by_contra howned
    obtain ⟨id, hid⟩ := Option.ne_none_iff_exists'.mp howned
    obtain ⟨old, hget, hold⟩ := h.consistent.exists_get_iff.mpr (h.consistent.owner_iff.mp hid)
    exact (hfits s hs).2 id old hget hold
  obtain ⟨q, hok, howners, hnext, hof, hfind⟩ := insert_spec hrange
  refine ⟨q, hok, ?_, h.concat howners hnext (h.consistent.insert hfree hnext hof hfind) ?_⟩
  · intro id
    rw [get, get, hfind]
    by_cases hid : id = p.nextId
    · rw [if_pos hid, if_pos hid]
    · rw [if_neg hid, if_neg hid]
  · intro s
    rw [hof s]
    by_cases hs : s ∈ block
    · simp [Call.inserted, hs]
    · simp [Call.inserted, hs]

/-- Splitting a block into its two parts replaces it by them. -/
theorem Recorded.split (h : Recorded numStates events p) (hid : id < p.nextId)
    (hfits : p.Fits numStates (.split id kept moved)) :
    ∃ q, p.perform (.split id kept moved) = (q, .ok p.nextId) ∧
      (∀ other, q.get other =
        if other = p.nextId then .ok moved else if other = id then .ok kept else p.get other) ∧
      Recorded numStates (events ++ [(.split id kept moved, .ok p.nextId)]) q := by
  obtain ⟨hparts, hapart⟩ := hfits (p.blockAt id) (h.consistent.get_eq_ok hid)
  -- the states that move have an owner already, so a split inserts none
  have howned : ∀ s ∈ moved, p.blockOf s = some id := fun s hs =>
    h.consistent.owner_iff.mpr ((hparts s).mpr (Or.inr hs))
  have hrange : ∀ s ∈ moved, s < p.owners.size := by
    -- out of range there are no owners
    intro s hs
    by_contra hge
    have hnone : p.owners[s]? = none := Array.getElem?_eq_none (Nat.le_of_not_lt hge)
    have howner := howned s hs
    rw [blockOf, hnone] at howner
    cases howner
  have hsome : p.blocks.find? id ≠ none := fun hnone =>
    Nat.not_le_of_lt hid (h.consistent.find?_eq_none_iff.mp hnone)
  obtain ⟨q, hok, howners, hnext, hof, hfind⟩ := split_spec kept hsome hrange
  have hconsistent := h.consistent.split hid hparts hapart hnext hof hfind
  refine ⟨q, hok, ?_, h.concat howners hnext hconsistent ?_⟩
  · intro other
    rw [get, get, hfind]
    by_cases hnew : other = p.nextId
    · rw [if_pos hnew, if_pos hnew]
    · rw [if_neg hnew, if_neg hnew]
      by_cases he : other = id
      · rw [if_pos he, if_pos he]
      · rw [if_neg he, if_neg he]
  · intro s
    rw [hof s]
    by_cases hs : s ∈ moved
    · simp [Call.inserted, hs, howned s hs]
    · simp [Call.inserted, hs]

/-- A split of a block that does not exist fails, and what it leaves behind is the
partition that it began with. -/
theorem Consistent.perform_split_eq (h : p.Consistent) (kept moved : IdSet) (hid : p.nextId ≤ id) :
    p.perform (.split id kept moved) = (p, .error (.missingBlock id)) :=
  split_eq_missing kept moved (h.find?_eq_none_iff.mpr hid)

/-- A failed split is recorded. -/
theorem Recorded.refuse (h : Recorded numStates events p) (id : BlockId) (kept moved : IdSet)
    (error : Error) :
    Recorded numStates (events ++ [(.split id kept moved, .error error)]) p where
  size_owners := h.size_owners
  consistent := h.consistent
  inserted := by
    intro s
    rw [h.inserted, Inserted, Inserted]
    simp [Call.inserted, or_and_right, exists_or]
  handedOut := by
    rw [Partition.handedOut, List.filterMap_append, ← Partition.handedOut, h.handedOut]
    exact List.append_nil _

/-- A call that is made as it should be has its effect and is recorded. -/
theorem Recorded.perform (h : Recorded numStates events p) (hfits : p.Fits numStates call) :
    p.Effect call (p.perform call) ∧
      Recorded numStates (events ++ [(call, (p.perform call).2)]) (p.perform call).1 := by
  cases call with
  | insert block =>
    obtain ⟨q, hperform, hget, hq⟩ := h.insert hfits
    rw [hperform]
    exact ⟨.inserted hget, hq⟩
  | split id kept moved =>
    by_cases hid : id < p.nextId
    · obtain ⟨q, hperform, hget, hq⟩ := h.split hid hfits
      rw [hperform]
      exact ⟨.divided hid hget, hq⟩
    · have hmissing := Nat.le_of_not_lt hid
      rw [h.consistent.perform_split_eq kept moved hmissing]
      exact ⟨.refused hmissing, h.refuse id kept moved _⟩

/-- Whatever calls led to a partition are recorded. -/
theorem Reached.recorded (h : Reached numStates events p) : Recorded numStates events p := by
  induction h with
  | new => exact recorded_empty numStates
  | call _ _ hfits ih => exact (ih.perform hfits).2

/-- What is true of a partition at any time, as far as it can be seen from outside. -/
structure Holds (numStates : Nat) (events : List (Call × Except Error BlockId))
    (p : Partition) : Prop where
  /-- The block of a state is the one that has it. -/
  blockOf_iff : ∀ s id, p.blockOf s = some id ↔ ∃ block, p.get id = .ok block ∧ s ∈ block
  /-- Different blocks share no state. -/
  apart : ∀ i j first second, p.get i = .ok first → p.get j = .ok second → i ≠ j →
    ∀ s ∈ first, s ∉ second
  /-- The states in blocks are those that were inserted. -/
  covered : ∀ s, (∃ id block, p.get id = .ok block ∧ s ∈ block) ↔ Inserted events s
  /-- No number is handed out twice. -/
  nodup : (handedOut events).Nodup
  /-- Numbers are handed out in ascending order, from 0 on. -/
  numbers : handedOut events = List.range p.nextId
  /-- There are as many blocks as numbers. -/
  size : p.size = p.nextId
  /-- A number is that of a block if it was handed out, and otherwise names none. -/
  get_cases : ∀ id, (id ∈ handedOut events ∧ ∃ block, p.get id = .ok block) ∨
    (id ∉ handedOut events ∧ p.get id = .error (.missingBlock id))
  /-- The touched blocks ascend. -/
  ascending : ∀ states, (p.touchedBy states).Pairwise (· < ·)
  /-- The touched blocks are those that have some of the states. -/
  touched : ∀ states id, id ∈ p.touchedBy states ↔
    ∃ block, p.get id = .ok block ∧ ∃ s ∈ states, s ∈ block
  /-- Each further call that is made as it should be has its effect. -/
  effect : ∀ call, p.Fits numStates call → p.Effect call (p.perform call)
  /-- A split under a number that was not handed out fails, and the whole partition
  stays. -/
  missing : ∀ id kept moved, id ∉ handedOut events →
    p.perform (.split id kept moved) = (p, .error (.missingBlock id))

/-- A set touches the blocks that have some of its states. -/
theorem Consistent.mem_touchedBy_iff (h : p.Consistent) {states : IdSet} :
    id ∈ p.touchedBy states ↔ ∃ block, p.get id = .ok block ∧ ∃ s ∈ states, s ∈ block := by
  rw [mem_touchedBy]
  constructor
  · rintro ⟨s, hs, howner⟩
    obtain ⟨block, hget, hin⟩ := h.exists_get_iff.mpr (h.owner_iff.mp howner)
    exact ⟨block, hget, s, hs, hin⟩
  · rintro ⟨block, hget, s, hs, hin⟩
    exact ⟨s, hs, h.owner_iff.mpr (h.exists_get_iff.mp ⟨block, hget, hin⟩)⟩

/-- Whatever sequence of calls led to a partition, if each was made as it should be,
both views of the partition agree, its blocks share no state and have the inserted ones,
no number was handed out twice, a set touches the blocks that it shares a state with,
listed in ascending order, each further call changes the blocks that it names and no
others, and a split under a number that was not handed out fails without a change. -/
theorem reached_holds (h : Reached numStates events p) : Holds numStates events p := by
  have hrecorded := h.recorded
  have hexists : ∀ {id s}, (∃ block, p.get id = .ok block ∧ s ∈ block) ↔ s ∈ p.blockAt id :=
    hrecorded.consistent.exists_get_iff
  have hhanded : ∀ id, id ∈ handedOut events ↔ id < p.nextId := by
    intro id
    rw [hrecorded.handedOut, List.mem_range]
  refine ⟨?_, ?_, ?_, ?_, hrecorded.handedOut, hrecorded.consistent.size_eq, ?_, ?_, ?_, ?_, ?_⟩
  · exact fun s id => hrecorded.consistent.owner_iff.trans hexists.symm
  · intro i j first second hi hj hne s hs hother
    have hfirst := hrecorded.consistent.owner_iff.mpr (hexists.mp ⟨first, hi, hs⟩)
    have hsecond := hrecorded.consistent.owner_iff.mpr (hexists.mp ⟨second, hj, hother⟩)
    exact hne (Option.some.inj (hfirst.symm.trans hsecond))
  · intro s
    rw [← hrecorded.inserted]
    exact exists_congr fun id => hexists.trans hrecorded.consistent.owner_iff.symm
  · rw [hrecorded.handedOut]
    exact List.nodup_range
  · intro id
    rw [hhanded, hrecorded.consistent.get_eq]
    by_cases hid : id < p.nextId
    · rw [if_pos hid]
      exact Or.inl ⟨hid, _, rfl⟩
    · rw [if_neg hid]
      exact Or.inr ⟨hid, rfl⟩
  · exact fun states => (IdSet.ofList (states.members.filterMap p.blockOf)).ascending
  · exact fun states id => hrecorded.consistent.mem_touchedBy_iff
  · exact fun call hfits => (hrecorded.perform hfits).1
  · intro id kept moved hnot
    rw [hhanded] at hnot
    exact hrecorded.consistent.perform_split_eq kept moved (Nat.le_of_not_lt hnot)

/-- States that no block owns may be inserted. -/
theorem Recorded.fits_insert (h : Recorded numStates events p)
    (hfree : ∀ s ∈ block.members, s < numStates ∧ p.blockOf s = none) :
    p.Fits numStates (.insert block) := by
  intro s hs
  obtain ⟨hlt, hnone⟩ := hfree s hs
  refine ⟨hlt, fun id old hget hold => ?_⟩
  have howner := h.consistent.owner_iff.mpr (h.consistent.exists_get_iff.mp ⟨old, hget, hold⟩)
  rw [hnone] at howner
  cases howner

/-- A block may be split into two sets that make it up and share no state. -/
theorem fits_split (hget : p.get id = .ok (kept.union moved))
    (hapart : ∀ s ∈ kept.members, s ∉ moved) : p.Fits numStates (.split id kept moved) := by
  intro block hblock
  obtain rfl := Except.ok.inj (hget.symm.trans hblock)
  exact ⟨fun s => IdSet.mem_union, hapart⟩

/-- Under a number that is not in use there is nothing to be split. -/
theorem Consistent.fits_split_of_le (h : p.Consistent) (hid : p.nextId ≤ id) :
    p.Fits numStates (.split id kept moved) := by
  intro block hget
  exact absurd (h.lt_nextId_of_get hget) (Nat.not_lt_of_le hid)

/-- Two insertions, a split of the first block, and a split of a block that does not
exist. -/
def fourCalls : List (Call × Except Error BlockId) :=
  [(.insert ⟨[0, 1, 3], by simp⟩, .ok 0), (.insert ⟨[2], by simp⟩, .ok 1),
    (.split 0 ⟨[0, 3], by simp⟩ ⟨[1], by simp⟩, .ok 2),
    (.split 7 ⟨[0], by simp⟩ ⟨[3], by simp⟩, .error (.missingBlock 7))]

/-- The partition that the calls lead to. -/
def afterFourCalls : Partition :=
  ⟨{ entries := [(1, ⟨[2], by simp⟩), (0, ⟨[0, 3], by simp⟩), (2, ⟨[1], by simp⟩)] },
    #[some 0, some 2, some 1, some 0, none], 3⟩

theorem reached_holds_afterFourCalls :
    Reached 5 fourCalls afterFourCalls ∧ Holds 5 fourCalls afterFourCalls := by
  have hone := Reached.new.call (.insert ⟨[0, 1, 3], by simp⟩)
    ((recorded_empty 5).fits_insert (by decide))
  have htwo := hone.call (.insert ⟨[2], by simp⟩) (hone.recorded.fits_insert (by decide))
  have hthree := htwo.call (.split 0 ⟨[0, 3], by simp⟩ ⟨[1], by simp⟩)
    (fits_split rfl (by decide))
  have hfour := hthree.call (.split 7 ⟨[0], by simp⟩ ⟨[3], by simp⟩)
    (hthree.recorded.consistent.fits_split_of_le (by decide))
  exact ⟨hfour, reached_holds hfour⟩

end WordPattern.Partition
