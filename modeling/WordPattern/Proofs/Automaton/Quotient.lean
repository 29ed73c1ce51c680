import WordPattern.Automaton.Minimal
import WordPattern.Proofs.Automaton.Alike
import WordPattern.Proofs.Distinct
import WordPattern.Proofs.Partition.Coarsest

/-!
# One state per block

A partition of the reachable states into blocks whose states accept alike and
have edges into the same blocks can be made into an automaton with one state
per block. The tour of the blocks never fails, and it comes to every block
once. What results is an image of the automaton: numbering
states by their blocks keeps acceptance and edges, so every word has the
verdict that it had.
-/

namespace WordPattern

namespace Automaton

variable {a m : Automaton} {f : StateId → StateId} {s t : StateId}

/-- The reachable states of an automaton are numbered by the states of another
one, which keeps the start, acceptance and the edges, and leaves no number
out. -/
structure Image (a m : Automaton) (f : StateId → StateId) : Prop where
  /-- The start is the start. -/
  start : f start = start
  /-- Every number is a state. -/
  lt : ∀ {s}, a.Reachable s → f s < m.numStates
  /-- Every state is a number. -/
  onto : ∀ {i}, i < m.numStates → ∃ s, a.Reachable s ∧ f s = i
  /-- Numbers accept as the states that they number. -/
  accepting : ∀ {s}, a.Reachable s → m.isAccepting (f s) = a.isAccepting s
  /-- Numbers have the edges of the states that they number. -/
  target? : ∀ {s}, a.Reachable s → ∀ letter, m.target? (f s) letter = (a.target? s letter).map f

/-- Runs are numbered state by state. -/
theorem Image.runFrom (h : Image a m f) (hs : a.Reachable s) (word : Word) :
    m.runFrom (f s) word = (a.runFrom s word).map f := by
  induction word generalizing s with
  | nil => rfl
  | cons letter rest ih =>
    rw [Automaton.runFrom, Automaton.runFrom, h.target? hs]
    cases hedge : a.target? s letter with
    | none => rfl
    | some next => exact ih (hs.edge hedge)

/-- Every word has the verdict that it had. -/
theorem Image.verdict (h : Image a m f) (hs : a.Reachable s) (word : Word) :
    m.verdict (f s) word = a.verdict s word := by
  rw [Automaton.verdict, Automaton.verdict, h.runFrom hs]
  cases hrun : a.runFrom s word with
  | none => rfl
  | some last => simp [h.accepting (hs.runFrom hrun)]

/-- The states of an image are the numbers of reachable states, and reachable. -/
theorem Image.reachable_iff (h : Image a m f) {i : StateId} :
    m.Reachable i ↔ ∃ s, a.Reachable s ∧ f s = i := by
  constructor
  · intro hi
    obtain ⟨word, hword⟩ := reachable_iff_run.mp hi
    rw [← h.start, h.runFrom .start] at hword
    obtain ⟨s, hrun, hs⟩ := Option.map_eq_some_iff.mp hword
    exact ⟨s, Reachable.start.runFrom hrun, hs⟩
  · intro hi
    obtain ⟨s, hs, rfl⟩ := hi
    obtain ⟨word, hword⟩ := reachable_iff_run.mp hs
    refine reachable_iff_run.mpr ⟨word, ?_⟩
    rw [← h.start, h.runFrom .start, hword]
    rfl

/-- An image is closed, whatever the automaton. -/
theorem Image.closed (h : Image a m f) : m.Closed where
  nonempty := Nat.zero_lt_of_lt (h.lt .start)
  inRange := by
    intro p q letter hp hedge
    obtain ⟨s, hs, rfl⟩ := h.reachable_iff.mp hp
    rw [h.target? hs] at hedge
    obtain ⟨next, hnext, rfl⟩ := Option.map_eq_some_iff.mp hedge
    exact h.lt (hs.edge hnext)

/-- An image accepts the same words. -/
theorem Image.accepts (h : Image a m f) (hclosed : a.Closed) (word : Word) :
    m.accepts word = a.accepts word := by
  have hverdict := h.verdict .start word
  rw [h.start] at hverdict
  rw [h.closed.accepts_eq, hclosed.accepts_eq, hverdict]

end Automaton

/-- A partition of the reachable states whose blocks are not empty, accept
alike and have edges into the same blocks. -/
structure Partition.Stable (a : Automaton) (p : Partition) : Prop where
  /-- States and blocks agree. -/
  consistent : p.Consistent
  /-- Exactly the reachable states have a block. -/
  covers : ∀ {s}, (∃ id, p.blockOf s = some id) ↔ a.Reachable s
  /-- No block is empty. -/
  inhabited : ∀ {id}, id < p.nextId → ∃ s, s ∈ p.blockAt id
  /-- States in one block accept alike. -/
  accepting : ∀ {s t}, a.Reachable s → a.Reachable t → p.blockOf s = p.blockOf t →
    a.isAccepting s = a.isAccepting t
  /-- States in one block have edges into the same blocks. -/
  arrives : ∀ {s t}, a.Reachable s → a.Reachable t → p.blockOf s = p.blockOf t →
    ∀ letter, p.arrives a s letter = p.arrives a t letter

namespace Partition.Stable

variable {a : Automaton} {p : Partition} {id : BlockId} {s : StateId}

theorem reachable (h : p.Stable a) (hs : s ∈ p.blockAt id) : a.Reachable s :=
  h.covers.mp ⟨id, h.consistent.owner_iff.mpr hs⟩

/-- The state of a block accepts as the states of the block do, and its edges
lead where theirs lead. -/
def Represents (a : Automaton) (p : Partition) (id : BlockId) (state : State) : Prop :=
  ∀ s ∈ p.blockAt id, state.accepting = a.isAccepting s ∧
    ∀ letter, state.edges.find? letter = p.arrives a s letter

/-- An existing block has a state, which represents it. -/
theorem blockState_spec (hclosed : a.Closed) (h : p.Stable a) (hid : id < p.nextId) :
    ∃ state, a.blockState p id = .ok state ∧ Represents a p id state := by
  obtain ⟨s, hs⟩ := h.inhabited hid
  obtain ⟨lowest, hleast⟩ := IdSet.exists_least? hs
  have hlow := IdSet.mem_of_least? hleast
  have hstate := Automaton.state_eq_ok (hclosed.lt (h.reachable hlow))
  refine ⟨{ a.stateAt lowest with edges := (a.stateAt lowest).edges.filterMap p.blockOf }, ?_, ?_⟩
  · simp [Automaton.blockState, h.consistent.get_eq_ok hid, hleast, hstate, bind, Except.bind, pure,
      Except.pure]
  · intro t ht
    have hblock : p.blockOf lowest = p.blockOf t := by
      rw [h.consistent.owner_iff.mpr hlow, h.consistent.owner_iff.mpr ht]
    refine ⟨h.accepting (h.reachable hlow) (h.reachable ht) hblock, ?_⟩
    intro letter
    rw [← h.arrives (h.reachable hlow) (h.reachable ht) hblock, Table.find?_filterMap,
      Partition.arrives, Automaton.target?_eq]

/-- The successors of a block are existing blocks. -/
theorem lt_of_mem_successors (h : p.Stable a) {state : State} (hid : id < p.nextId)
    (hrep : Represents a p id state) {other : BlockId} (hother : other ∈ state.successors) :
    other < p.nextId := by
  obtain ⟨s, hs⟩ := h.inhabited hid
  obtain ⟨letter, hfind⟩ := Table.mem_values.mp hother
  rw [(hrep s hs).2 letter] at hfind
  obtain ⟨target, -, howner⟩ := Option.bind_eq_some_iff.mp hfind
  exact h.consistent.lt_nextId (h.consistent.owner_iff.mp howner)

end Partition.Stable

namespace Automaton

open Partition.Stable

variable {a : Automaton} {p : Partition}

/-- The successors that are found for the first time. -/
theorem mem_fresh {successors found : List BlockId} {id : BlockId} :
    id ∈ (successors.filter (· ∉ found)).eraseDups ↔ id ∈ successors ∧ id ∉ found := by
  simp [List.mem_eraseDups]

/-- What is found for the first time is not found twice. -/
theorem nodup_append_fresh {successors found : List BlockId} (h : found.Nodup) :
    (found ++ (successors.filter (· ∉ found)).eraseDups).Nodup := by
  rw [List.nodup_append]
  refine ⟨h, nodup_eraseDups _, ?_⟩
  intro x hx y hy he
  exact (mem_fresh.mp hy).2 (he ▸ hx)

theorem tourFrom_nil (found : List BlockId) : a.tourFrom p [] found = .ok [] := by rw [tourFrom]

theorem tourFrom_of_error {id : BlockId} {queue found : List BlockId} {error : Error}
    (h : a.blockState p id = .error error) :
    a.tourFrom p (id :: queue) found = .error error := by
  rw [tourFrom]
  split
  · rename_i he
    exact congrArg Except.error (Except.error.inj (he.symm.trans h))
  · rename_i he
    cases he.symm.trans h

/-- A tour lists the next block, which was found, and goes on with those that are
found there. -/
theorem tourFrom_of_ok {id : BlockId} {queue found : List BlockId} {state : State}
    (h : a.blockState p id = .ok state) (hid : id ∈ found) :
    a.tourFrom p (id :: queue) found =
      (a.tourFrom p (queue ++ (state.successors.filter (· ∉ found)).eraseDups)
        (found ++ (state.successors.filter (· ∉ found)).eraseDups)).map ((id, state) :: ·) := by
  rw [tourFrom]
  split
  · rename_i he
    cases he.symm.trans h
  · rename_i he
    cases Except.ok.inj (he.symm.trans h)
    rw [Row.placeOf_eq_ok hid]
    rfl

/-- A tour of existing blocks runs through. With the blocks that came before, it
comes to no block twice and to every block found, it gives each block the state
that represents it, and leaves out no successor. -/
theorem tourFrom_spec (hclosed : a.Closed) (h : p.Stable a) (queue found before : List BlockId)
    (hfound : found = before ++ queue) (hnodup : found.Nodup) (hin : ∀ id ∈ found, id < p.nextId) :
    ∃ blocks, a.tourFrom p queue found = .ok blocks ∧
      (before ++ blocks.map Prod.fst).Nodup ∧
      (∃ later, blocks.map Prod.fst = queue ++ later) ∧
      ∀ block ∈ blocks, block.1 < p.nextId ∧ Represents a p block.1 block.2 ∧
        ∀ other ∈ block.2.successors, other ∈ before ++ blocks.map Prod.fst := by
  induction queue, found using tourFrom.induct a p generalizing before with
  | case1 found =>
    rw [List.append_nil] at hfound
    exact ⟨[], tourFrom_nil found, by simpa [← hfound], ⟨[], rfl⟩, by simp⟩
  | case2 found id queue error herror =>
    have hid : id < p.nextId := hin id (by simp [hfound])
    obtain ⟨state, hstate, -⟩ := blockState_spec hclosed h hid
    cases hstate.symm.trans herror
  | case3 found id queue state hstate ih =>
    have hmem : id ∈ found := by simp [hfound]
    have hid := hin id hmem
    obtain ⟨represented, hok, hrep⟩ := blockState_spec hclosed h hid
    cases Except.ok.inj (hok.symm.trans hstate)
    let fresh := (state.successors.filter (· ∉ found)).eraseDups
    have hfresh : ∀ {other}, other ∈ fresh ↔ other ∈ state.successors ∧ other ∉ found := mem_fresh
    have hshift : found ++ fresh = (before ++ [id]) ++ (queue ++ fresh) := by simp [hfound]
    have hin' : ∀ other ∈ found ++ fresh, other < p.nextId := by
      intro other hother
      rcases List.mem_append.mp hother with hold | hnew
      · exact hin other hold
      · exact h.lt_of_mem_successors hid hrep (hfresh.mp hnew).1
    obtain ⟨blocks, hblocks, hdistinct, ⟨later, hlater⟩, hall⟩ :=
      ih (before ++ [id]) hshift (nodup_append_fresh hnodup) hin'
    have hkeys : before ++ ((id, state) :: blocks).map Prod.fst =
        (before ++ [id]) ++ blocks.map Prod.fst := by simp
    refine ⟨(id, state) :: blocks, ?_, ?_, ⟨fresh ++ later, ?_⟩, ?_⟩
    · rw [tourFrom_of_ok hstate hmem, hblocks]
      rfl
    · rw [hkeys]
      exact hdistinct
    · rw [List.map_cons, hlater, List.append_assoc]
      rfl
    · intro block hblock
      rw [hkeys]
      rcases List.mem_cons.mp hblock with rfl | hmem
      · refine ⟨hid, hrep, ?_⟩
        intro other hother
        by_cases hold : other ∈ found
        · simp only [hfound, List.mem_append, List.mem_cons] at hold
          simp only [hlater, List.mem_append, List.mem_singleton]
          tauto
        · have hnew := hfresh.mpr ⟨hother, hold⟩
          simp only [hlater, List.mem_append]
          tauto
      · exact hall block hmem

/-- The tour comes to every block once, to that of the start first, and gives
each the state that represents it. -/
theorem tour_spec (hclosed : a.Closed) (h : p.Stable a) :
    ∃ blocks, a.tour p = .ok blocks ∧ (blocks.map Prod.fst).Nodup ∧
      (blocks.map Prod.fst).head? = p.blockOf start ∧
      (∀ id, id ∈ blocks.map Prod.fst ↔ id < p.nextId) ∧
      ∀ block ∈ blocks, Represents a p block.1 block.2 := by
  obtain ⟨first, hfirst⟩ := h.covers.mpr Reachable.start
  have hlt : first < p.nextId := h.consistent.lt_nextId (h.consistent.owner_iff.mp hfirst)
  obtain ⟨blocks, hok, hnodup, ⟨later, hlater⟩, hall⟩ :=
    tourFrom_spec hclosed h [first] [first] [] rfl (List.nodup_singleton first) (by simpa)
  simp only [List.nil_append] at hnodup hall
  refine ⟨blocks, ?_, hnodup, ?_, ?_, fun block hblock => (hall block hblock).2.1⟩
  · rw [tour, hfirst]
    exact hok
  · rw [hlater, hfirst]
    rfl
  · have hreached : ∀ {s}, a.Reachable s → ∀ id, p.blockOf s = some id →
        id ∈ blocks.map Prod.fst := by
      intro s hs
      induction hs with
      | start =>
        intro id hid
        rw [hfirst] at hid
        cases hid
        rw [hlater]
        exact List.mem_append_left _ List.mem_cons_self
      | @edge s t letter before hedge ih =>
        intro id hid
        obtain ⟨source, hsource⟩ := h.covers.mpr before
        obtain ⟨block, hblock, rfl⟩ := List.mem_map.mp (ih source hsource)
        obtain ⟨-, hrep, hsucc⟩ := hall block hblock
        refine hsucc id (Table.mem_values.mpr ⟨letter, ?_⟩)
        rw [(hrep s (h.consistent.owner_iff.mp hsource)).2 letter, Partition.arrives, hedge]
        exact hid
    intro id
    constructor
    · intro hid
      obtain ⟨block, hblock, rfl⟩ := List.mem_map.mp hid
      exact (hall block hblock).1
    · intro hid
      obtain ⟨s, hs⟩ := h.inhabited hid
      exact hreached (h.reachable hs) id (h.consistent.owner_iff.mpr hs)

/-- The number of a state's block in an order of the blocks. -/
def blockNumber (p : Partition) (order : List BlockId) (s : StateId) : StateId :=
  order.idxOf ((p.blockOf s).getD 0)

variable {blocks : List (BlockId × State)} {order : List BlockId} {s t : StateId}

theorem numStates_ofBlocks : (ofBlocks blocks).numStates = (blocks.map Prod.fst).length := by
  simp [ofBlocks, numStates]

/-- A block that is listed has a state under its number. -/
theorem stateAt_ofBlocks {id : BlockId} (hid : id ∈ blocks.map Prod.fst) :
    ∃ state, (id, state) ∈ blocks ∧ (ofBlocks blocks).stateAt ((blocks.map Prod.fst).idxOf id) =
      { state with edges := state.edges.map (blocks.map Prod.fst).idxOf } := by
  have hlt := List.idxOf_lt_length_of_mem hid
  have hlt' : (blocks.map Prod.fst).idxOf id < blocks.length := by simpa using hlt
  have hkey : (blocks[(blocks.map Prod.fst).idxOf id]).1 = id :=
    (List.getElem_map Prod.fst).symm.trans (List.getElem_idxOf hlt)
  refine ⟨(blocks[(blocks.map Prod.fst).idxOf id]).2, ?_, ?_⟩
  · have hmem := List.getElem_mem hlt'
    rwa [← Prod.mk.eta (p := blocks[(blocks.map Prod.fst).idxOf id]), hkey] at hmem
  · rw [stateAt]
    simp [ofBlocks, hlt']

/-- In an order of all blocks, the block of a reachable state has a number. -/
theorem blockNumber_spec (h : p.Stable a) (hmem : ∀ id, id ∈ order ↔ id < p.nextId)
    (hs : a.Reachable s) :
    ∃ id, p.blockOf s = some id ∧ id ∈ order ∧ blockNumber p order s = order.idxOf id := by
  obtain ⟨id, hid⟩ := h.covers.mpr hs
  have hlt := h.consistent.lt_nextId (h.consistent.owner_iff.mp hid)
  exact ⟨id, hid, (hmem id).mpr hlt, by rw [blockNumber, hid, Option.getD_some]⟩

/-- States have one number exactly when they share a block. -/
theorem blockNumber_inj (h : p.Stable a) (hmem : ∀ id, id ∈ order ↔ id < p.nextId)
    (hs : a.Reachable s) (ht : a.Reachable t) :
    blockNumber p order s = blockNumber p order t ↔ p.blockOf s = p.blockOf t := by
  obtain ⟨i, hi, hin, hnumber⟩ := blockNumber_spec h hmem hs
  obtain ⟨j, hj, -, hnumber'⟩ := blockNumber_spec h hmem ht
  rw [hnumber, hnumber', hi, hj, List.idxOf_inj hin, Option.some.injEq]

/-- If each block is listed once, that of the start first, with a state that
represents it, the states make an image of the automaton. -/
theorem image_ofBlocks (h : p.Stable a) (hnodup : (blocks.map Prod.fst).Nodup)
    (hhead : (blocks.map Prod.fst).head? = p.blockOf start)
    (hmem : ∀ id, id ∈ blocks.map Prod.fst ↔ id < p.nextId)
    (hrep : ∀ block ∈ blocks, Represents a p block.1 block.2) :
    Image a (ofBlocks blocks) (blockNumber p (blocks.map Prod.fst)) := by
  have hstate : ∀ {s}, a.Reachable s → ∃ state id, p.blockOf s = some id ∧
      Represents a p id state ∧ (ofBlocks blocks).stateAt (blockNumber p (blocks.map Prod.fst) s) =
        { state with edges := state.edges.map (blocks.map Prod.fst).idxOf } := by
    intro s hs
    obtain ⟨id, hid, hin, hnumber⟩ := blockNumber_spec h hmem hs
    obtain ⟨state, hlisted, hat⟩ := stateAt_ofBlocks hin
    exact ⟨state, id, hid, hrep _ hlisted, hnumber ▸ hat⟩
  refine ⟨?_, ?_, ?_, ?_, ?_⟩
  · obtain ⟨id, hid, -, hnumber⟩ := blockNumber_spec h hmem Reachable.start
    rw [hid] at hhead
    obtain ⟨rest, hrest⟩ := List.head?_eq_some_iff.mp hhead
    rw [hnumber]
    simp [hrest, start]
  · intro s hs
    obtain ⟨id, -, hin, hnumber⟩ := blockNumber_spec h hmem hs
    rw [hnumber, numStates_ofBlocks]
    exact List.idxOf_lt_length_of_mem hin
  · intro i hi
    rw [numStates_ofBlocks] at hi
    have hid := (hmem _).mp (List.getElem_mem hi)
    obtain ⟨s, hs⟩ := h.inhabited hid
    refine ⟨s, h.reachable hs, ?_⟩
    rw [blockNumber, h.consistent.owner_iff.mpr hs, Option.getD_some]
    exact hnodup.idxOf_getElem i hi
  · intro s hs
    obtain ⟨state, id, hid, hrepresents, hat⟩ := hstate hs
    rw [isAccepting, hat]
    exact (hrepresents s (h.consistent.owner_iff.mp hid)).1
  · intro s hs letter
    obtain ⟨state, id, hid, hrepresents, hat⟩ := hstate hs
    rw [target?_eq, hat, Table.find?_map, (hrepresents s (h.consistent.owner_iff.mp hid)).2,
      Partition.arrives]
    cases hedge : a.target? s letter with
    | none => rfl
    | some next =>
      obtain ⟨other, hother, -, hnumber⟩ := blockNumber_spec h hmem (hs.edge hedge)
      rw [Option.bind_some, hother, Option.map_some, Option.map_some, hnumber]

/-- The quotient by a stable partition never fails. It is an image of the
automaton, in which states have one number exactly when they share a block. -/
theorem quotient_spec (hclosed : a.Closed) (h : p.Stable a) :
    ∃ m f, a.quotient p = .ok m ∧ Image a m f ∧ m.numStates = p.nextId ∧
      ∀ {s t}, a.Reachable s → a.Reachable t → (f s = f t ↔ p.blockOf s = p.blockOf t) := by
  obtain ⟨blocks, htour, hnodup, hhead, hmem, hrep⟩ := tour_spec hclosed h
  refine ⟨ofBlocks blocks, blockNumber p (blocks.map Prod.fst), ?_,
    image_ofBlocks h hnodup hhead hmem hrep, ?_, blockNumber_inj h hmem⟩
  · simp [quotient, htour, bind, Except.bind, pure, Except.pure, ofBlocks]
  · have hperm : (blocks.map Prod.fst).Perm (List.range p.nextId) := by
      rw [List.perm_ext_iff_of_nodup hnodup List.nodup_range]
      intro id
      rw [hmem id, List.mem_range]
    rw [numStates_ofBlocks, hperm.length_eq, List.length_range]

end Automaton

end WordPattern
