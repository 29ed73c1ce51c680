import WordPattern.Proofs.Partition.Refinement

/-!
# The blocks at the end of a refinement

A refinement starts with accepting and rejecting states apart and both waiting,
and runs until nothing waits. On the reachable states of a closed automaton it
never fails, the fuel that it is given is enough, and at its end states share a
block exactly when they are alike. The numbers of the blocks depend on the order
of the divisions and are not described.
-/

namespace WordPattern

namespace Refinement

variable {a : Automaton} {ids : List StateId} {r : Refinement} {s t : StateId}

/-- Every block waits, in order of number. -/
def AllWaiting (r : Refinement) : Prop := r.worklist.queue = List.range r.partition.nextId

/-- Adding a block of further states in range succeeds. If all blocks wait, so
do they afterwards. -/
theorem Coherent.addBlock_spec (h : r.Coherent ids) (hall : r.AllWaiting) (block : IdSet)
    (grown : List StateId) (hgrown : ∀ s, s ∈ grown ↔ s ∈ ids ∨ s ∈ block)
    (hfresh : ∀ s ∈ block, s ∉ ids) (hrange : ∀ s ∈ block, s < r.partition.owners.size) :
    ∃ next, r.addBlock block = .ok next ∧ next.Coherent grown ∧ next.AllWaiting ∧
      next.partition.owners.size = r.partition.owners.size ∧
      ∀ s, next.partition.blockOf s =
        if s ∈ block then some r.partition.nextId else r.partition.blockOf s := by
  cases hempty : block.isEmpty with
  | true =>
    have hnone := IdSet.isEmpty_iff.mp hempty
    have hsame : ∀ s, s ∈ grown ↔ s ∈ ids := fun s => (hgrown s).trans (or_iff_left (hnone s))
    refine ⟨r, ?_, ⟨h.partition, h.worklist, ?_, ?_, h.inhabited, h.queued⟩, hall, rfl, ?_⟩
    · simp [addBlock, hempty]
    · exact h.covers.trans (hsame _).symm
    · exact fun hs => h.inRange ((hsame _).mp hs)
    · exact fun s => (if_neg (hnone s)).symm
  | false =>
    obtain ⟨q, hok, howners, hnext, hof, hfind⟩ := Partition.insert_spec hrange
    have hnew : r.partition.nextId ∉ r.worklist.queue := fun hmem =>
      Nat.lt_irrefl _ (h.queued hmem)
    have hqueue := h.worklist.queue_push r.partition.nextId
    rw [if_neg hnew, hall, ← List.range_succ] at hqueue
    have hfree : ∀ s ∈ block, r.partition.blockOf s = none := by
      intro s hs
      cases hsome : r.partition.blockOf s with
      | none => rfl
      | some id => exact absurd (h.covers.mp ⟨id, hsome⟩) (hfresh s hs)
    refine ⟨⟨q, r.worklist.push r.partition.nextId⟩, ?_,
      ⟨h.partition.insert hfree hnext hof hfind, h.worklist.push _, ?_, ?_, ?_, ?_⟩, ?_, howners,
      hof⟩
    · simp [addBlock, hempty, hok, bind, Except.bind, pure, Except.pure]
    · intro s
      rw [hgrown s, ← h.covers, hof s]
      by_cases hs : s ∈ block <;> simp [hs]
    · intro s hs
      rw [howners]
      exact ((hgrown s).mp hs).elim h.inRange (hrange s)
    · intro id hid
      rw [Partition.blockAt_of_find?_insert hfind]
      by_cases he : id = r.partition.nextId
      · rw [if_pos he]
        exact IdSet.exists_mem_of_isEmpty_false hempty
      · rw [if_neg he]
        rw [hnext] at hid
        exact h.inhabited (Nat.lt_of_le_of_ne (Nat.le_of_lt_succ hid) he)
    · intro id hid
      rw [hqueue, List.mem_range] at hid
      rw [hnext]
      exact hid
    · rw [AllWaiting, hqueue, hnext]

/-- The refinement without blocks is coherent. -/
theorem coherent_empty (n : Nat) : Coherent [] ⟨.empty n, .empty⟩ where
  partition := Partition.consistent_empty n
  worklist := Worklist.consistent_empty
  covers := by
    intro s
    simp [Partition.blockOf_empty]
  inRange := fun hs => absurd hs List.not_mem_nil
  inhabited := fun hid => absurd hid (Nat.not_lt_zero _)
  queued := fun hid => absurd hid List.not_mem_nil

/-- While every block waits, edges that agree about what waits lead into one
block. -/
theorem AllWaiting.arrives_eq (hall : r.AllWaiting) (h : r.partition.Consistent) {letter : Char}
    (hagree : AgreeOnWaiting a r s t letter) :
    r.partition.arrives a s letter = r.partition.arrives a t letter := by
  have hqueued : ∀ {u id}, r.partition.arrives a u letter = some id → id ∈ r.worklist.queue := by
    intro u id harrives
    obtain ⟨target, -, howner⟩ := Option.bind_eq_some_iff.mp harrives
    rw [hall, List.mem_range]
    exact h.lt_nextId (h.owner_iff.mp howner)
  ext id
  constructor
  · intro hs
    exact (hagree id (hqueued hs)).mp hs
  · intro ht
    exact (hagree id (hqueued ht)).mpr ht

/-- For states in range, first the accepting and then the rejecting ones are made a
block. -/
theorem start_eq (hrange : ∀ s ∈ ids, s < a.numStates) :
    start a ids = addBlock ⟨.empty a.numStates, .empty⟩ (.ofList (ids.filter a.isAccepting)) >>=
      fun r => r.addBlock (.ofList (ids.filter fun id => !a.isAccepting id)) := by
  have hmarked : ids.mapM (fun id => do return (id, (← a.state id).accepting)) =
      Except.ok (ids.map fun id => (id, a.isAccepting id)) := by
    refine mapM_ok fun id hid => ?_
    rw [Automaton.state_eq_ok (hrange id hid)]
    rfl
  have hparts : (ids.map fun id => (id, a.isAccepting id)).partition Prod.snd =
      ((ids.filter a.isAccepting).map fun id => (id, a.isAccepting id),
        (ids.filter fun id => !a.isAccepting id).map fun id => (id, a.isAccepting id)) := by
    simp [List.partition_eq_filter_filter, List.filter_map, Function.comp_def]
  rw [start, hmarked]
  simp only [bind, Except.bind, hparts, List.map_map, Function.comp_def, List.map_id']

/-- A refinement of states in range starts with at most two blocks, of the
accepting and of the rejecting states, and every block waits. -/
theorem start_blocks (hrange : ∀ s ∈ ids, s < a.numStates) :
    ∃ first, start a ids = .ok first ∧ first.Coherent ids ∧ first.AllWaiting ∧
      ∀ {s t}, s ∈ ids → t ∈ ids →
        (first.partition.blockOf s = first.partition.blockOf t ↔
          a.isAccepting s = a.isAccepting t) := by
  let accepting := ids.filter a.isAccepting
  let rejecting := ids.filter fun id => !a.isAccepting id
  have hfilter : ∀ {s}, s ∈ accepting ↔ s ∈ ids ∧ a.isAccepting s = true := List.mem_filter
  have haccepting : ∀ {s}, s ∈ IdSet.ofList accepting ↔ s ∈ ids ∧ a.isAccepting s = true :=
    IdSet.mem_ofList.trans hfilter
  have hrejecting : ∀ {s}, s ∈ IdSet.ofList rejecting ↔ s ∈ ids ∧ a.isAccepting s = false := by
    intro s
    rw [IdSet.mem_ofList, List.mem_filter, Bool.not_eq_true']
  have howners : (Partition.empty a.numStates).owners.size = a.numStates := Array.size_replicate
  obtain ⟨mid, hmid, hcoh, hall, hsize, hofmid⟩ :=
    (coherent_empty a.numStates).addBlock_spec rfl (.ofList accepting) accepting (by simp)
      (by simp) (by
        intro s hs
        rw [howners]
        exact hrange s (haccepting.mp hs).1)
  obtain ⟨first, hfirst, hcohfirst, hallfirst, -, hof⟩ :=
    hcoh.addBlock_spec hall (.ofList rejecting) ids (by
        intro s
        rw [hrejecting, hfilter]
        cases a.isAccepting s <;> simp) (by
        intro s hs hmem
        rw [hfilter, (hrejecting.mp hs).2] at hmem
        exact Bool.false_ne_true hmem.2) (by
        intro s hs
        rw [hsize, howners]
        exact hrange s (hrejecting.mp hs).1)
  have hmidblock : ∀ {s}, s ∈ ids → a.isAccepting s = true →
      mid.partition.blockOf s = some 0 := by
    intro s hs hacc
    rw [hofmid s, if_pos (haccepting.mpr ⟨hs, hacc⟩)]
    rfl
  have hpos : ∀ {s}, s ∈ ids → a.isAccepting s = true → 0 < mid.partition.nextId := fun hs hacc =>
    hcoh.partition.lt_nextId (hcoh.partition.owner_iff.mp (hmidblock hs hacc))
  have hblock : ∀ {s}, s ∈ ids → first.partition.blockOf s =
      some (if a.isAccepting s then 0 else mid.partition.nextId) := by
    intro s hs
    rw [hof s]
    cases hacc : a.isAccepting s with
    | true => simp [hrejecting, hacc, hmidblock hs hacc]
    | false => simp [hrejecting, hacc, hs]
  refine ⟨first, ?_, hcohfirst, hallfirst, ?_⟩
  · rw [start_eq hrange, hmid]
    exact hfirst
  · intro s t hs ht
    rw [hblock hs, hblock ht, Option.some.injEq]
    cases hsacc : a.isAccepting s with
    | true =>
      have hne := Nat.ne_of_lt (hpos hs hsacc)
      cases a.isAccepting t <;> simp [hne]
    | false =>
      cases htacc : a.isAccepting t with
      | true => simp [Nat.ne_of_gt (hpos ht htacc)]
      | false => simp

/-- A refinement of states in range starts in the invariant, with every block
waiting. -/
theorem start_spec (hrange : ∀ s ∈ ids, s < a.numStates) :
    ∃ first, start a ids = .ok first ∧ Invariant a ids [] first ∧ first.AllWaiting := by
  obtain ⟨first, hfirst, hcoherent, hall, hiff⟩ := start_blocks hrange
  refine ⟨first, hfirst, ⟨hcoherent, ?_, ?_, ?_⟩, hall⟩
  · intro s t hs ht halike
    exact (hiff hs ht).mpr halike.accepting
  · exact fun hs ht => (hiff hs ht).mp
  · intro s t letter _ _ _ hwaiting _
    exact hall.arrives_eq hcoherent.partition hwaiting

/-- When nothing waits, states in one block have edges into one block. -/
theorem Invariant.stable (h : Invariant a ids [] r) (hempty : r.worklist.queue = [])
    (hs : s ∈ ids) (ht : t ∈ ids) (hst : r.partition.blockOf s = r.partition.blockOf t)
    (letter : Char) : r.partition.arrives a s letter = r.partition.arrives a t letter := by
  refine h.settled hs ht hst ?_ fun _ hnone => absurd hnone List.not_mem_nil
  intro id hid
  rw [hempty] at hid
  exact absurd hid List.not_mem_nil

/-- When nothing waits, states share a block exactly when they are alike. -/
theorem Invariant.blockOf_eq_iff (h : Invariant a ids [] r) (hempty : r.worklist.queue = [])
    (hclosed : ∀ {s t letter}, s ∈ ids → a.target? s letter = some t → t ∈ ids)
    (hs : s ∈ ids) (ht : t ∈ ids) :
    r.partition.blockOf s = r.partition.blockOf t ↔ a.Alike s t := by
  refine ⟨fun hst => ?_, h.together hs ht⟩
  let same : StateId → StateId → Prop := fun p q =>
    p ∈ ids ∧ q ∈ ids ∧ r.partition.blockOf p = r.partition.blockOf q
  have hrelated : same s t := ⟨hs, ht, hst⟩
  refine Automaton.alike_of_related ?_ ?_ hrelated
  · exact fun hpq => h.accepting hpq.1 hpq.2.1 hpq.2.2
  · intro p q hpq letter
    obtain ⟨hp, hq, hsame⟩ := hpq
    have harrives := h.stable hempty hp hq hsame letter
    rw [Partition.arrives, Partition.arrives] at harrives
    have howned : ∀ {u v}, u ∈ ids → a.target? u letter = some v →
        ∃ id, r.partition.blockOf v = some id := fun hu hedge =>
      h.coherent.covers.mpr (hclosed hu hedge)
    cases hpt : a.target? p letter with
    | none =>
      cases hqt : a.target? q letter with
      | none => exact .none
      | some v =>
        obtain ⟨id, hid⟩ := howned hq hqt
        simp [hpt, hqt, hid] at harrives
    | some u =>
      cases hqt : a.target? q letter with
      | none =>
        obtain ⟨id, hid⟩ := howned hp hpt
        simp [hpt, hqt, hid] at harrives
      | some v =>
        simp only [hpt, hqt, Option.bind_some] at harrives
        exact .some ⟨hclosed hp hpt, hclosed hq hqt, harrives⟩

end Refinement

/-- The index of the listed states' edges and the first blocks are made. From there
on, the refinement splits by the given sets one after the other, and comes to its
end, where nothing waits. -/
def Refinement.Ends (a : Automaton) (ids : List StateId) (splitters : List IdSet)
    (last : Refinement) : Prop :=
  ∃ incoming first, Incoming.ofStates a ids = .ok incoming ∧
    Refinement.start a ids = .ok first ∧ Refinement.Trace incoming first splitters last ∧
    last.step incoming = .ok none

/-- On the reachable states of a closed automaton, the refinement comes to its
end, and hands out the partition that it ends in. -/
theorem Automaton.Closed.refined_spec {a : Automaton} (h : a.Closed) :
    ∃ ids splitters last, a.preorder = .ok ids ∧ (∀ id, id ∈ ids ↔ a.Reachable id) ∧
      Refinement.Ends a ids splitters last ∧ last.worklist.queue = [] ∧
      Refinement.Invariant a ids [] last ∧ Partition.refined a ids = .ok last.partition := by
  obtain ⟨ids, hids, hnodup, hreach⟩ := h.preorder_spec
  have hrange : ∀ s ∈ ids, s < a.numStates := fun s hs => h.lt ((hreach s).mp hs)
  have hclosed : ∀ {s t letter}, s ∈ ids → a.target? s letter = some t → t ∈ ids :=
    fun hs hedge => (hreach _).mpr (((hreach _).mp hs).edge hedge)
  obtain ⟨incoming, hincoming, hindex⟩ := Incoming.ofStates_spec hrange fun hs hedge =>
    hrange _ (hclosed hs hedge)
  obtain ⟨first, hfirst, hinv, hall⟩ := Refinement.start_spec hrange
  have hlen : ids.length ≤ a.numStates := by
    have hsub : ids ⊆ List.range a.numStates := fun s hs => List.mem_range.mpr (hrange s hs)
    have hle := hnodup.length_le_of_subset hsub
    rwa [List.length_range] at hle
  have hqueue : first.worklist.queue.length = first.partition.nextId := by
    rw [hall, List.length_range]
  obtain ⟨splitters, last, htrace, hstop, hempty, hlast, hrun⟩ :=
    hinv.run_spec hclosed hrange hindex (a.numStates + 1) (by omega)
  refine ⟨ids, splitters, last, hids, hreach, ⟨incoming, first, hincoming, hfirst, htrace, hstop⟩,
    hempty, hlast, ?_⟩
  simp [Partition.refined, hincoming, hfirst, hrun, bind, Except.bind, pure, Except.pure]

end WordPattern
