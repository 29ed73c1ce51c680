import WordPattern.Proofs.Automaton.Minimal
import WordPattern.Proofs.Automaton.Tour

/-!
# A minimal automaton is its own minimal automaton

In the minimal automaton no two states are alike, so a second refinement ends
in blocks of one state each, whatever their numbers. Its tour visits them in the
order in which the first tour visited the blocks they came from, and so gives
every state the number that it has. What results is the same automaton: states,
acceptance, edges and the order of the edges.
-/

namespace WordPattern

/-- A state with other targets of its edges. -/
def State.redirect (state : State) (f : StateId → StateId) : State :=
  { state with edges := state.edges.map f }

namespace State

variable {state : State} {f g : StateId → StateId}

@[simp] theorem successors_redirect : (state.redirect f).successors = state.successors.map f := by
  simp [redirect, successors, Table.map, Table.values]

@[simp] theorem redirect_redirect : (state.redirect f).redirect g = state.redirect (g ∘ f) := by
  simp [redirect, Table.map]

theorem redirect_congr (h : ∀ next ∈ state.successors, f next = g next) :
    state.redirect f = state.redirect g := by
  have hentries : ∀ entry ∈ state.edges.entries, (entry.1, f entry.2) = (entry.1, g entry.2) :=
    fun entry hentry => by rw [h entry.2 (List.mem_map_of_mem hentry)]
  simp only [redirect, Table.map, List.map_congr_left hentries]

end State

/-- Where every value can be converted, all are kept. -/
theorem Table.filterMap_eq_map {κ α β : Type} {table : Table κ α} {f : α → Option β} {g : α → β}
    (h : ∀ value ∈ table.values, f value = some (g value)) : table.filterMap f = table.map g := by
  have hentries : ∀ entry ∈ table.entries,
      (f entry.2).map (entry.1, ·) = some (entry.1, g entry.2) :=
    fun entry hentry => by rw [h entry.2 (List.mem_map_of_mem hentry)]; rfl
  simp only [filterMap, map, List.filterMap_congr hentries, List.filterMap_eq_map']

namespace Automaton

variable {a m : Automaton} {p q : Partition} {f : StateId → StateId} {s t : StateId}
  {blocks : List (BlockId × State)}

/-- Numbers are alike when the states that they number are. -/
theorem Image.alike_iff (h : Image a m f) (hs : a.Reachable s) (ht : a.Reachable t) :
    m.Alike (f s) (f t) ↔ a.Alike s t := by
  simp only [Alike, h.verdict hs, h.verdict ht]

/-- The construction of the minimal automaton refines the reachable states into
blocks of alike states, and makes a state of each block that the tour lists. -/
theorem Closed.minimal_eq_ofBlocks (h : a.Closed) :
    ∃ p blocks, p.Stable a ∧
      (∀ {s t}, a.Reachable s → a.Reachable t → (p.blockOf s = p.blockOf t ↔ a.Alike s t)) ∧
      a.tour p = .ok blocks ∧ a.minimal = .ok (ofBlocks blocks) := by
  obtain ⟨ids, splitters, last, hids, -, hrefined, hstable, halike⟩ := h.refined_stable
  obtain ⟨blocks, htour, -⟩ := tour_spec h hstable
  refine ⟨last.partition, blocks, hstable, halike, htour, ?_⟩
  simp [minimal, hids, hrefined, quotient_eq, htour, bind, Except.bind, Except.map]

/-- A tour lists blocks with their states. -/
theorem blockState_of_mem_tourFrom {queue found : List BlockId}
    (hok : a.tourFrom p queue found = .ok blocks) (hqueue : queue ⊆ found) :
    ∀ block ∈ blocks, a.blockState p block.1 = .ok block.2 := by
  induction queue, found using tourFrom.induct a p generalizing blocks with
  | case1 found =>
    rw [tourFrom_nil] at hok
    cases hok
    simp
  | case2 found id queue error herror =>
    rw [tourFrom_of_error herror] at hok
    cases hok
  | case3 found id queue state hstate ih =>
    obtain ⟨hmem, hrest⟩ := List.cons_subset.mp hqueue
    rw [tourFrom_of_ok hstate hmem] at hok
    obtain ⟨later, hlater, rfl⟩ := map_eq_ok_iff.mp hok
    have hall := ih hlater (append_subset_append hrest _)
    exact List.forall_mem_cons.mpr ⟨hstate, hall⟩

theorem blockState_of_mem_tour (htour : a.tour p = .ok blocks) :
    ∀ block ∈ blocks, a.blockState p block.1 = .ok block.2 :=
  blockState_of_mem_tourFrom htour (List.Subset.refl _)

/-- The block of a state, 0 where there is none. -/
def blockIn (q : Partition) (i : StateId) : BlockId := (q.blockOf i).getD 0

/-- Every state can be reached and has a block of its own. -/
structure Discrete (m : Automaton) (q : Partition) : Prop where
  /-- The blocks are stable. -/
  stable : q.Stable m
  /-- Every state can be reached. -/
  reachable : ∀ {i}, i < m.numStates → m.Reachable i
  /-- No two states share a block. -/
  alone : ∀ {i j}, m.Reachable i → m.Reachable j → q.blockOf i = q.blockOf j → i = j

namespace Discrete

variable {i j : StateId}

theorem blockOf_eq (h : Discrete m q) (hi : m.Reachable i) : q.blockOf i = some (blockIn q i) := by
  obtain ⟨id, hid⟩ := h.stable.covers.mpr hi
  rw [blockIn, hid, Option.getD_some]

theorem blockIn_inj (h : Discrete m q) (hi : m.Reachable i) (hj : m.Reachable j)
    (heq : blockIn q i = blockIn q j) : i = j :=
  h.alone hi hj (by rw [h.blockOf_eq hi, h.blockOf_eq hj, heq])

/-- The state of a block is its only state, edges leading to blocks. -/
theorem blockState_eq (h : Discrete m q) (hi : i < m.numStates) :
    m.blockState q (blockIn q i) = .ok ((m.stateAt i).redirect (blockIn q)) := by
  have hreach := h.reachable hi
  have hmem := h.stable.consistent.owner_iff.mp (h.blockOf_eq hreach)
  obtain ⟨lowest, hleast⟩ := IdSet.exists_least? hmem
  have hlow := IdSet.mem_of_least? hleast
  have hlowest : lowest = i := by
    apply h.alone (h.stable.reachable hlow) hreach
    rw [h.stable.consistent.owner_iff.mpr hlow, h.blockOf_eq hreach]
  have hedges : (m.stateAt i).edges.filterMap q.blockOf = (m.stateAt i).edges.map (blockIn q) :=
    Table.filterMap_eq_map fun next hnext => h.blockOf_eq (hreach.successors next hnext)
  subst hlowest
  have hget := h.stable.consistent.get_eq_ok (h.stable.consistent.lt_nextId hmem)
  simp [blockState, hget, hleast, state_eq_ok hi, hedges, State.redirect, bind, Except.bind, pure,
    Except.pure]

end Discrete

/-- Blocks that are renamed one to one give the same states. -/
theorem ofBlocks_redirect {φ : BlockId → BlockId}
    (hinj : ∀ i ∈ blocks.map Prod.fst, ∀ j ∈ blocks.map Prod.fst, φ i = φ j → i = j)
    (hnext : ∀ block ∈ blocks, ∀ next ∈ block.2.successors, next ∈ blocks.map Prod.fst) :
    ofBlocks (blocks.map (Prod.map φ (·.redirect φ))) = ofBlocks blocks := by
  have horder : (blocks.map (Prod.map φ (·.redirect φ))).map Prod.fst =
      (blocks.map Prod.fst).map φ := by simp
  have hstate : ∀ block ∈ blocks, (block.2.redirect φ).redirect
      ((blocks.map Prod.fst).map φ).idxOf = block.2.redirect (blocks.map Prod.fst).idxOf := by
    intro block hblock
    rw [State.redirect_redirect]
    apply State.redirect_congr
    intro next hmem
    have hin := hnext block hblock next hmem
    exact idxOf_map_eq fun y hy => hinj y hy next hin
  rw [ofBlocks, ofBlocks, horder, List.map_map]
  congr 2
  exact List.map_congr_left hstate

/-- The number of the only block of the state that a block was made into. -/
def renumber (blocks : List (BlockId × State)) (q : Partition) (id : BlockId) : BlockId :=
  blockIn q ((blocks.map Prod.fst).idxOf id)

/-- The edges of a block lead to existing blocks. -/
theorem successors_lt (hclosed : a.Closed) (h : p.Stable a) {id : BlockId} (hid : id < p.nextId)
    {state : State} (hok : a.blockState p id = .ok state) :
    ∀ next ∈ state.successors, next < p.nextId := by
  intro next hnext
  obtain ⟨found, hfound, hrepresents⟩ := Partition.Stable.blockState_spec hclosed h hid
  cases hok.symm.trans hfound
  exact h.lt_of_mem_successors hid hrepresents hnext

/-- If no two states of a quotient share a block, its blocks are those of the
automaton under other numbers. -/
theorem Discrete.matches_ofBlocks (hclosed : a.Closed) (hstable : p.Stable a)
    (htour : a.tour p = .ok blocks) (hmem : ∀ id, id ∈ blocks.map Prod.fst ↔ id < p.nextId)
    (h : Discrete (ofBlocks blocks) q) :
    Matches a p (ofBlocks blocks) q (renumber blocks q) (·.redirect (renumber blocks q))
      {id | id < p.nextId} := by
  have hplace : ∀ {id}, id < p.nextId →
      (blocks.map Prod.fst).idxOf id < (ofBlocks blocks).numStates := by
    intro id hid
    rw [numStates_ofBlocks]
    exact List.idxOf_lt_length_of_mem ((hmem id).mpr hid)
  refine ⟨?_, fun id hid state => successors_lt hclosed hstable hid, ?_,
    fun state => State.successors_redirect⟩
  · intro i hi j hj heq
    have hsame := h.blockIn_inj (h.reachable (hplace hi)) (h.reachable (hplace hj)) heq
    exact (List.idxOf_inj ((hmem i).mpr hi)).mp hsame
  · intro id hid
    obtain ⟨state, hlisted, hat⟩ := stateAt_ofBlocks ((hmem id).mpr hid)
    have hstate := blockState_of_mem_tour htour (id, state) hlisted
    rw [renumber, h.blockState_eq (hplace hid), hat, hstate]
    exact congrArg Except.ok State.redirect_redirect

/-- A quotient no two states of which share a block is its own quotient. -/
theorem Discrete.quotient_ofBlocks (hclosed : a.Closed) (hstable : p.Stable a)
    (htour : a.tour p = .ok blocks) (h : Discrete (ofBlocks blocks) q) :
    (ofBlocks blocks).quotient q = .ok (ofBlocks blocks) := by
  obtain ⟨listed, hlisted, hnodup, hhead, hmem, hrep⟩ := tour_spec hclosed hstable
  cases htour.symm.trans hlisted
  have himage := image_ofBlocks hstable hnodup hhead hmem hrep
  have hmatches := h.matches_ofBlocks hclosed hstable htour hmem
  obtain ⟨first, hfirst⟩ := hstable.covers.mpr Reachable.start
  have hstart : q.blockOf start = (p.blockOf start).map (renumber blocks q) := by
    obtain ⟨rest, hrest⟩ := List.head?_eq_some_iff.mp (hhead.trans hfirst)
    have hzero : (blocks.map Prod.fst).idxOf first = start := by simp [hrest, start]
    rw [hfirst, h.blockOf_eq .start, Option.map_some, renumber, hzero]
  -- The second tour lists the blocks of the first one, renumbered, so their places are the same.
  have hagain := hmatches.tour hstart fun id hid =>
    hstable.consistent.lt_nextId (hstable.consistent.owner_iff.mp hid)
  rw [quotient_eq, hagain, htour]
  refine congrArg Except.ok (ofBlocks_redirect ?_ ?_)
  · intro i hi j hj
    exact hmatches.inj i ((hmem i).mp hi) j ((hmem j).mp hj)
  · intro block hblock next hnext
    have hid := (hmem block.1).mp (List.mem_map_of_mem hblock)
    have hstate := blockState_of_mem_tour htour block hblock
    exact (hmem next).mpr (successors_lt hclosed hstable hid hstate next hnext)

/-- The minimal automaton of a closed automaton is its own minimal automaton, and
all of its states can be reached. -/
theorem minimal_minimal (h : a.Closed) :
    ∃ m, a.minimal = .ok m ∧ m.minimal = .ok m ∧ ∀ i < m.numStates, m.Reachable i := by
  obtain ⟨p, blocks, hstable, halike, htour, hminimal⟩ := h.minimal_eq_ofBlocks
  obtain ⟨m, f, hquotient, himage, -, hnumber⟩ := quotient_spec h hstable
  rw [quotient_eq, htour] at hquotient
  cases hquotient
  have hreach : ∀ i < (ofBlocks blocks).numStates, (ofBlocks blocks).Reachable i :=
    fun i hi => himage.reachable_iff.mpr (himage.onto hi)
  obtain ⟨q, again, hstable', halike', htour', hminimal'⟩ := himage.closed.minimal_eq_ofBlocks
  have hdiscrete : Discrete (ofBlocks blocks) q := by
    refine ⟨hstable', fun hi => hreach _ hi, ?_⟩
    intro i j hi hj hij
    obtain ⟨s, hs, rfl⟩ := himage.reachable_iff.mp hi
    obtain ⟨t, ht, rfl⟩ := himage.reachable_iff.mp hj
    have hst := (himage.alike_iff hs ht).mp ((halike' hi hj).mp hij)
    exact (hnumber hs ht).mpr ((halike hs ht).mpr hst)
  have hsame := hdiscrete.quotient_ofBlocks h hstable htour
  rw [quotient_eq, htour'] at hsame
  exact ⟨ofBlocks blocks, hminimal, hminimal'.trans hsame, hreach⟩

theorem minimal_minimal_twoWays :
    twoWays.Closed ∧ ∃ m, twoWays.minimal = .ok m ∧ m.minimal = .ok m ∧
      ∀ i < m.numStates, m.Reachable i :=
  ⟨closed_twoWays, minimal_minimal closed_twoWays⟩

end Automaton

end WordPattern
