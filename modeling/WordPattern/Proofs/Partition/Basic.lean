import Mathlib.Data.List.Basic
import WordPattern.Partition.Basic
import WordPattern.Proofs.Table

/-!
# What partitions hold after each operation

A partition is consistent when the two views of it agree: a state is owned by a
block exactly when the block holds it. Adding a block of unowned states and
splitting a block into its two parts keep a partition consistent. Parts that
are chosen badly are not excluded by the operations, and nothing is said about
the partition that results from them.
-/

namespace WordPattern

namespace IdSet

variable {set : IdSet} {id : Nat}

theorem isEmpty_iff : set.isEmpty = true ↔ ∀ id, id ∉ set := by
  rw [isEmpty, List.isEmpty_iff, List.eq_nil_iff_forall_not_mem]
  rfl

theorem exists_mem_of_isEmpty_false (h : set.isEmpty = false) : ∃ id, id ∈ set := by
  by_contra hnone
  have hall : ∀ id, id ∉ set := fun id hid => hnone ⟨id, hid⟩
  rw [isEmpty_iff.mpr hall] at h
  cases h

/-- The lowest member is a member. -/
theorem mem_of_least? (h : set.least? = some id) : id ∈ set := List.mem_of_head? h

/-- A set with a member has a lowest one. -/
theorem exists_least? (h : id ∈ set) : ∃ lowest, set.least? = some lowest := by
  cases hleast : set.least? with
  | some lowest => exact ⟨lowest, rfl⟩
  | none =>
    have hnil : set.members = [] := List.head?_eq_none_iff.mp hleast
    rw [← mem_members, hnil] at h
    cases h

/-- No member is listed twice. -/
theorem nodup_members (set : IdSet) : set.members.Nodup := set.ascending.imp Nat.ne_of_lt

/-- What two sets share and what the second lacks are as many as the first has. -/
theorem size_inter_add_size_diff (a b : IdSet) : (a.inter b).size + (a.diff b).size = a.size := by
  have hapart : ((a.inter b).members ++ (a.diff b).members).Nodup := by
    rw [List.nodup_append]
    refine ⟨(a.inter b).nodup_members, (a.diff b).nodup_members, ?_⟩
    intro shared hshared other hother
    have hboth := mem_inter.mp hshared
    have hlacks := mem_diff.mp hother
    exact fun he => hlacks.2 (he ▸ hboth.2)
  have hsame : ∀ id, id ∈ (a.inter b).members ++ (a.diff b).members ↔ id ∈ a.members := by
    intro id
    rw [List.mem_append, mem_members, mem_members, mem_members, mem_inter, mem_diff, ← and_or_left,
      and_iff_left (Classical.em (id ∈ b))]
  have hperm := (List.perm_ext_iff_of_nodup hapart a.nodup_members).mpr hsame
  calc (a.inter b).size + (a.diff b).size
      = ((a.inter b).members ++ (a.diff b).members).length := List.length_append.symm
    _ = a.size := hperm.length_eq

end IdSet

namespace Partition

variable {p : Partition} {id : BlockId} {s : Nat}

/-- The block with a number, the empty set where there is none. -/
def blockAt (p : Partition) (id : BlockId) : IdSet := (p.blocks.find? id).getD .empty

/-- A state is owned by a block exactly when the block holds it, and the numbers
in use are those that were given. -/
structure Consistent (p : Partition) : Prop where
  /-- The way from states to blocks inverts that from blocks to states. -/
  owner_iff : ∀ {s id}, p.blockOf s = some id ↔ s ∈ p.blockAt id
  /-- There is a block under each number below the next one, and under no other. -/
  find?_eq_none_iff : ∀ {id}, p.blocks.find? id = none ↔ p.nextId ≤ id

theorem blockOf_empty (numStates s : Nat) : (empty numStates).blockOf s = none := by
  rw [blockOf, empty, Array.getElem?_replicate]
  split <;> rfl

/-- The partition without blocks is consistent. -/
theorem consistent_empty (numStates : Nat) : (empty numStates).Consistent where
  owner_iff := by
    intro s id
    rw [blockOf_empty]
    exact iff_of_false (by simp) (IdSet.not_mem_empty s)
  find?_eq_none_iff := iff_of_true rfl (Nat.zero_le _)

/-- A block that holds a state has a number that was given. -/
theorem Consistent.lt_nextId (h : p.Consistent) (hs : s ∈ p.blockAt id) : id < p.nextId := by
  by_contra hge
  rw [blockAt, h.find?_eq_none_iff.mpr (Nat.le_of_not_lt hge)] at hs
  exact IdSet.not_mem_empty s hs

/-- A number that was given is that of a block, any other is that of none. -/
theorem Consistent.get_eq (h : p.Consistent) (id : BlockId) :
    p.get id = if id < p.nextId then .ok (p.blockAt id) else .error (.missingBlock id) := by
  rw [get, blockAt]
  cases hfind : p.blocks.find? id with
  | none => rw [if_neg (Nat.not_lt_of_le (h.find?_eq_none_iff.mp hfind))]
  | some block =>
    have hlt : id < p.nextId := by
      by_contra hge
      rw [h.find?_eq_none_iff.mpr (Nat.le_of_not_lt hge)] at hfind
      cases hfind
    rw [if_pos hlt]
    rfl

theorem Consistent.get_eq_ok (h : p.Consistent) (hid : id < p.nextId) :
    p.get id = .ok (p.blockAt id) := (h.get_eq id).trans (if_pos hid)

/-- A block that is handed out is the one with that number. -/
theorem blockAt_eq_of_get {block : IdSet} (h : p.get id = .ok block) : p.blockAt id = block := by
  rw [get] at h
  rw [blockAt]
  cases hfind : p.blocks.find? id with
  | none =>
    rw [hfind] at h
    cases h
  | some found =>
    rw [hfind] at h
    exact Except.ok.inj h

/-- Only blocks whose numbers were given are handed out. -/
theorem Consistent.lt_nextId_of_get (h : p.Consistent) {block : IdSet}
    (hget : p.get id = .ok block) : id < p.nextId := by
  by_contra hge
  rw [h.get_eq, if_neg hge] at hget
  cases hget

/-- There are as many blocks as numbers were given. -/
theorem Consistent.size_eq (h : p.Consistent) : p.size = p.nextId := by
  have hperm : p.blocks.keys.Perm (List.range p.nextId) := by
    refine (List.perm_ext_iff_of_nodup p.blocks.distinct List.nodup_range).mpr fun id => ?_
    rw [List.mem_range, ← Nat.not_le, ← h.find?_eq_none_iff, Table.find?_eq_none_iff, not_not,
      Table.keys]
  rw [size, ← List.length_map Prod.fst]
  exact hperm.length_eq.trans List.length_range

/-- Naming a block as an owner succeeds for states in range, and changes only what
owns them. -/
theorem claim_spec {owners : Array (Option BlockId)} {states : List Nat}
    (h : ∀ s ∈ states, s < owners.size) (id : BlockId) :
    ∃ claimed, claim id owners states = (claimed, .ok ()) ∧ claimed.size = owners.size ∧
      ∀ s, claimed[s]? = if s ∈ states then some (some id) else owners[s]? := by
  induction states generalizing owners with
  | nil => exact ⟨owners, rfl, rfl, fun s => by simp⟩
  | cons state rest ih =>
    obtain ⟨hstate, hrest⟩ := List.forall_mem_cons.mp h
    have hsize : (owners.setIfInBounds state (some id)).size = owners.size :=
      Array.size_setIfInBounds
    obtain ⟨claimed, hok, hclaimed, hat⟩ := ih fun s hs => hsize ▸ hrest s hs
    refine ⟨claimed, ?_, hclaimed.trans hsize, ?_⟩
    · rw [claim, if_pos hstate, hok]
    · intro s
      rw [hat, Array.getElem?_setIfInBounds]
      by_cases hmem : s ∈ rest
      · simp [hmem]
      · by_cases he : state = s
        · subst he
          simp [hmem, hstate]
        · simp [hmem, he, Ne.symm he]

/-- Adding a block of states in range succeeds. The block gets the next
number, it owns its states, and all else stays. -/
theorem insert_spec {block : IdSet} (h : ∀ s ∈ block, s < p.owners.size) :
    ∃ q : Partition, p.insert block = (q, .ok p.nextId) ∧ q.owners.size = p.owners.size ∧
      q.nextId = p.nextId + 1 ∧
      (∀ s, q.blockOf s = if s ∈ block then some p.nextId else p.blockOf s) ∧
      ∀ id, q.blocks.find? id = if id = p.nextId then some block else p.blocks.find? id := by
  obtain ⟨claimed, hclaim, hsize, hat⟩ := claim_spec h p.nextId
  refine ⟨⟨p.blocks.insert p.nextId block, claimed, p.nextId + 1⟩, ?_, hsize, rfl, ?_, ?_⟩
  · rw [insert, hclaim]
  · intro s
    rw [blockOf, hat]
    by_cases hs : s ∈ block <;> simp [hs, blockOf]
  · exact fun id => Table.find?_insert p.blocks p.nextId id block

/-- Splitting an existing block succeeds if the states that move are in range.
The kept part stays under the block's number, the moved part gets the next one
and owns its states, and all else stays. -/
theorem split_spec (kept : IdSet) {moved : IdSet} (hid : p.blocks.find? id ≠ none)
    (h : ∀ s ∈ moved, s < p.owners.size) :
    ∃ q : Partition, p.split id kept moved = (q, .ok p.nextId) ∧
      q.owners.size = p.owners.size ∧ q.nextId = p.nextId + 1 ∧
      (∀ s, q.blockOf s = if s ∈ moved then some p.nextId else p.blockOf s) ∧
      ∀ other, q.blocks.find? other =
        if other = p.nextId then some moved else if other = id then some kept
        else p.blocks.find? other := by
  obtain ⟨old, hold⟩ := Option.ne_none_iff_exists'.mp hid
  let shrunk : Partition := { p with blocks := (p.blocks.erase id).insert id kept }
  obtain ⟨q, hok, howners, hnext, hof, hfind⟩ := insert_spec (p := shrunk) h
  refine ⟨q, ?_, howners, hnext, hof, ?_⟩
  · rw [split, hold]
    exact hok
  · intro other
    rw [hfind, Table.find?_insert, Table.find?_erase]
    by_cases he : other = id
    · rw [if_pos he, if_pos he]
    · rw [if_neg he, if_neg he, if_neg he]

/-- Splitting under a number that names no block fails, and leaves the partition
as it was. -/
theorem split_eq_missing (kept moved : IdSet) (hid : p.blocks.find? id = none) :
    p.split id kept moved = (p, .error (.missingBlock id)) := by
  rw [split, hid, Table.erase_eq_self hid]

/-- The number of the next block is not in use. -/
theorem Consistent.not_mem_next (h : p.Consistent) (hs : p.blockOf s = some id) :
    id ≠ p.nextId := Nat.ne_of_lt (h.lt_nextId (h.owner_iff.mp hs))

/-- A block that is added under the next number stands there. -/
theorem blockAt_of_find?_insert {q : Partition} {block : IdSet}
    (hfind : ∀ id, q.blocks.find? id = if id = p.nextId then some block else p.blocks.find? id)
    (id : BlockId) : q.blockAt id = if id = p.nextId then block else p.blockAt id := by
  rw [blockAt, hfind, apply_ite (Option.getD · IdSet.empty)]
  rfl

/-- The parts of a split block stand under its number and under the next one. -/
theorem blockAt_of_find?_split {q : Partition} {kept moved : IdSet}
    (hfind : ∀ other, q.blocks.find? other =
      if other = p.nextId then some moved else if other = id then some kept
      else p.blocks.find? other) (other : BlockId) :
    q.blockAt other =
      if other = p.nextId then moved else if other = id then kept else p.blockAt other := by
  rw [blockAt, hfind, apply_ite (Option.getD · IdSet.empty), apply_ite (Option.getD · IdSet.empty)]
  rfl

/-- Adding a block of unowned states keeps a partition consistent. -/
theorem Consistent.insert (h : p.Consistent) {q : Partition} {block : IdSet}
    (hfree : ∀ s ∈ block, p.blockOf s = none) (hnext : q.nextId = p.nextId + 1)
    (hof : ∀ s, q.blockOf s = if s ∈ block then some p.nextId else p.blockOf s)
    (hfind : ∀ id, q.blocks.find? id = if id = p.nextId then some block else p.blocks.find? id) :
    q.Consistent where
  owner_iff := by
    intro s id
    rw [hof s, blockAt_of_find?_insert hfind]
    by_cases hs : s ∈ block
    · rw [if_pos hs]
      by_cases hid : id = p.nextId
      · simp [hid, hs]
      · have hnot : s ∉ p.blockAt id := by
          rw [← h.owner_iff, hfree s hs]
          simp
        simp [hid, hnot, Ne.symm hid]
    · rw [if_neg hs]
      by_cases hid : id = p.nextId
      · have hnot : p.blockOf s ≠ some id := fun hsome => h.not_mem_next hsome hid
        rw [if_pos hid]
        exact iff_of_false hnot hs
      · rw [if_neg hid]
        exact h.owner_iff
  find?_eq_none_iff := by
    intro id
    rw [hfind, hnext]
    by_cases hid : id = p.nextId
    · simp [hid]
    · rw [if_neg hid, h.find?_eq_none_iff]
      exact ⟨fun hle => Nat.lt_of_le_of_ne hle (Ne.symm hid), Nat.le_of_succ_le⟩

/-- Splitting a block into its two parts keeps a partition consistent. -/
theorem Consistent.split (h : p.Consistent) {q : Partition} {kept moved : IdSet}
    (hid : id < p.nextId) (hparts : ∀ s, s ∈ p.blockAt id ↔ s ∈ kept ∨ s ∈ moved)
    (hapart : ∀ s ∈ kept, s ∉ moved) (hnext : q.nextId = p.nextId + 1)
    (hof : ∀ s, q.blockOf s = if s ∈ moved then some p.nextId else p.blockOf s)
    (hfind : ∀ other, q.blocks.find? other =
      if other = p.nextId then some moved else if other = id then some kept
      else p.blocks.find? other) :
    q.Consistent where
  owner_iff := by
    intro s other
    rw [hof s, blockAt_of_find?_split hfind]
    by_cases hs : s ∈ moved
    · have howner : p.blockOf s = some id := h.owner_iff.mpr ((hparts s).mpr (Or.inr hs))
      have hkept : s ∉ kept := fun hk => hapart s hk hs
      rw [if_pos hs]
      by_cases hnew : other = p.nextId
      · simp [hnew, hs]
      · have hnot : s ∉ p.blockAt other ∨ other = id := by
          by_cases he : other = id
          · exact Or.inr he
          · left
            rw [← h.owner_iff, howner]
            simpa using Ne.symm he
        rw [if_neg hnew]
        by_cases he : other = id
        · simp [he, hkept, Ne.symm (he ▸ hnew)]
        · simp [he, hnot.resolve_right he, Ne.symm hnew]
    · rw [if_neg hs]
      by_cases hnew : other = p.nextId
      · have hnot : p.blockOf s ≠ some other := fun hsome => h.not_mem_next hsome hnew
        rw [if_pos hnew]
        exact iff_of_false hnot hs
      · rw [if_neg hnew]
        by_cases he : other = id
        · rw [if_pos he, h.owner_iff, he, hparts s]
          simp [hs]
        · rw [if_neg he]
          exact h.owner_iff
  find?_eq_none_iff := by
    intro other
    rw [hfind, hnext]
    by_cases hnew : other = p.nextId
    · simp [hnew]
    · rw [if_neg hnew]
      by_cases he : other = id
      · rw [if_pos he]
        exact iff_of_false (by simp) fun hle => Nat.lt_asymm hid (he ▸ hle)
      · rw [if_neg he, h.find?_eq_none_iff]
        exact ⟨fun hle => Nat.lt_of_le_of_ne hle (Ne.symm hnew), Nat.le_of_succ_le⟩

/-- A set touches the blocks that own some of its states. -/
theorem mem_touchedBy {states : IdSet} :
    id ∈ p.touchedBy states ↔ ∃ s ∈ states, p.blockOf s = some id := by
  rw [touchedBy, IdSet.mem_members, IdSet.mem_ofList, List.mem_filterMap]
  rfl

end Partition

end WordPattern
