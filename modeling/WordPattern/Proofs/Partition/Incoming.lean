import WordPattern.Partition.Refinement
import WordPattern.Proofs.Automaton.Reachable

/-!
# The index of incoming edges

The index holds, for each state and letter, the sources of the edges that lead
there, and from it the sources of all edges into a set are gathered letter by
letter. Both are described by membership: a state is listed exactly when it has
such an edge. Edges of states that were not listed are left out.
-/

namespace WordPattern.Incoming

variable {a : Automaton} {s t id : StateId} {letter : Char}

/-- The states that a table lists under a letter. -/
def under (table : Table Char IdSet) (letter : Char) : IdSet :=
  (table.find? letter).getD .empty

@[simp] theorem not_mem_under_empty : s ∉ under .empty letter := IdSet.not_mem_empty s

/-- A state is listed under a letter exactly when an entry of the letter has it. -/
theorem mem_under {table : Table Char IdSet} :
    s ∈ under table letter ↔ ∃ states, (letter, states) ∈ table.entries ∧ s ∈ states := by
  simp only [under, ← Table.find?_eq_some_iff]
  cases table.find? letter with
  | none => simp
  | some states => simp

/-- Merging states in lists them under their letter, and changes nothing else. -/
theorem mem_under_merge {table : Table Char IdSet} {key : Char} {states : IdSet} :
    s ∈ under (table.merge IdSet.union key states) letter ↔
      s ∈ under table letter ∨ letter = key ∧ s ∈ states := by
  rw [under, Table.find?_merge]
  by_cases hk : letter = key
  · subst hk
    rw [if_pos rfl, under]
    cases table.find? letter <;> simp
  · rw [if_neg hk]
    simp [under, hk]

/-- Merging entries in lists all their states under their letters. -/
theorem mem_under_foldl_merge (entries : List (Char × IdSet)) (table : Table Char IdSet) :
    s ∈ under (entries.foldl (fun found entry => found.merge IdSet.union entry.1 entry.2) table)
        letter ↔
      s ∈ under table letter ∨ ∃ states, (letter, states) ∈ entries ∧ s ∈ states := by
  induction entries generalizing table with
  | nil => simp
  | cons entry rest ih =>
    obtain ⟨key, states⟩ := entry
    rw [List.foldl_cons, ih, mem_under_merge, or_assoc]
    apply or_congr_right
    constructor
    · rintro (⟨rfl, hs⟩ | ⟨states', hmem, hs⟩)
      · exact ⟨states, List.mem_cons_self, hs⟩
      · exact ⟨states', List.mem_cons_of_mem _ hmem, hs⟩
    · rintro ⟨states', hmem, hs⟩
      rcases List.mem_cons.mp hmem with he | hrest
      · cases he
        exact Or.inl ⟨rfl, hs⟩
      · exact Or.inr ⟨states', hrest, hs⟩

/-- The sources of the edges on a letter into a state. -/
def sources (incoming : Incoming) (target : StateId) (letter : Char) : IdSet :=
  under (incoming[target]?.getD .empty) letter

/-- An edge that has a place in the index is entered, and adds its source to those
of its target. -/
theorem addEdge_spec (id : StateId) (incoming : Incoming) {edge : Char × StateId}
    (h : edge.2 < incoming.size) :
    ∃ next, addEdge id incoming edge = .ok next ∧ next.size = incoming.size ∧
      ∀ {s t letter}, t < incoming.size → (s ∈ sources next t letter ↔
        s ∈ sources incoming t letter ∨ s = id ∧ edge = (letter, t)) := by
  obtain ⟨key, target⟩ := edge
  refine ⟨_, Row.change_eq_ok h _, Array.size_modify, ?_⟩
  intro s t letter ht
  rw [sources, Array.getElem?_modify]
  by_cases he : target = t
  · subst he
    have hget : incoming[target]? = some incoming[target] := Array.getElem?_eq_getElem ht
    have hone : s ∈ IdSet.singleton id ↔ s = id := List.mem_singleton
    rw [if_pos rfl, sources, hget, Option.map_some, Option.getD_some, Option.getD_some,
      mem_under_merge, hone]
    apply or_congr_right
    simp only [Prod.mk.injEq, and_true]
    rw [and_comm, eq_comm (a := letter)]
  · rw [if_neg he, sources]
    simp [he]

/-- The edges of a state add it to the sources of their targets. -/
theorem addEdges_spec (id : StateId) (edges : List (Char × StateId)) (incoming : Incoming)
    (h : ∀ edge ∈ edges, edge.2 < incoming.size) :
    ∃ next, edges.foldlM (addEdge id) incoming = .ok next ∧ next.size = incoming.size ∧
      ∀ {s t letter}, t < incoming.size → (s ∈ sources next t letter ↔
        s ∈ sources incoming t letter ∨ s = id ∧ (letter, t) ∈ edges) := by
  induction edges generalizing incoming with
  | nil => exact ⟨incoming, rfl, rfl, by simp⟩
  | cons edge rest ih =>
    obtain ⟨hedge, hrest⟩ := List.forall_mem_cons.mp h
    obtain ⟨mid, hmid, hsize, hsources⟩ := addEdge_spec id incoming hedge
    obtain ⟨next, hnext, hgrown, hall⟩ := ih mid fun other hother => hsize ▸ hrest other hother
    refine ⟨next, ?_, hgrown.trans hsize, ?_⟩
    · rw [List.foldlM_cons, hmid]
      exact hnext
    · intro s t letter ht
      rw [hall (hsize ▸ ht), hsources ht, or_assoc, List.mem_cons, ← and_or_left,
        eq_comm (a := edge)]

/-- The edges of a state that exists are entered, if their targets exist. -/
theorem addState_spec {incoming : Incoming} (hsize : incoming.size = a.numStates)
    (hid : id < a.numStates) (htargets : ∀ {t letter}, a.target? id letter = some t →
      t < a.numStates) :
    ∃ next, addState a incoming id = .ok next ∧ next.size = a.numStates ∧
      ∀ {s t letter}, t < a.numStates → (s ∈ sources next t letter ↔
        s ∈ sources incoming t letter ∨ s = id ∧ a.target? s letter = some t) := by
  have hmem : ∀ {t letter}, (letter, t) ∈ (a.stateAt id).edges.entries ↔
      a.target? id letter = some t := by
    intro t letter
    rw [Automaton.target?_eq, Table.find?_eq_some_iff]
  obtain ⟨next, hok, hnext, hsources⟩ :=
    addEdges_spec id (a.stateAt id).edges.entries incoming fun edge hedge =>
      hsize ▸ htargets (hmem.mp hedge)
  refine ⟨next, ?_, hnext.trans hsize, ?_⟩
  · rw [addState, Automaton.state_eq_ok hid]
    exact hok
  · intro s t letter ht
    rw [hsources (hsize ▸ ht)]
    apply or_congr_right
    apply and_congr_right
    rintro rfl
    exact hmem

/-- The edges of states that exist are entered state by state. -/
theorem addStates_spec (ids : List StateId) {incoming : Incoming}
    (hsize : incoming.size = a.numStates) (hrange : ∀ id ∈ ids, id < a.numStates)
    (htargets : ∀ {s t letter}, s ∈ ids → a.target? s letter = some t → t < a.numStates) :
    ∃ next, ids.foldlM (addState a) incoming = .ok next ∧ next.size = a.numStates ∧
      ∀ {s t letter}, t < a.numStates → (s ∈ sources next t letter ↔
        s ∈ sources incoming t letter ∨ s ∈ ids ∧ a.target? s letter = some t) := by
  induction ids generalizing incoming with
  | nil => exact ⟨incoming, rfl, hsize, by simp⟩
  | cons id rest ih =>
    obtain ⟨hid, hrest⟩ := List.forall_mem_cons.mp hrange
    obtain ⟨mid, hmid, hmidsize, hsources⟩ := addState_spec hsize hid (htargets List.mem_cons_self)
    obtain ⟨next, hnext, hnextsize, hall⟩ := ih hmidsize hrest fun hs =>
      htargets (List.mem_cons_of_mem id hs)
    refine ⟨next, ?_, hnextsize, ?_⟩
    · rw [List.foldlM_cons, hmid]
      exact hnext
    · intro s t letter ht
      rw [hall ht, hsources ht, or_assoc, List.mem_cons, or_and_right]

/-- What the index of the edges that leave listed states says. -/
structure Indexes (a : Automaton) (ids : List StateId) (incoming : Incoming) : Prop where
  /-- There is a place for each state. -/
  size : incoming.size = a.numStates
  /-- A state is a source exactly when it is listed and has the edge. -/
  mem_sources : ∀ {s t letter}, t < a.numStates →
    (s ∈ sources incoming t letter ↔ s ∈ ids ∧ a.target? s letter = some t)

/-- The index of states that exist, with targets that exist, is made. -/
theorem ofStates_spec {ids : List StateId} (hrange : ∀ id ∈ ids, id < a.numStates)
    (htargets : ∀ {s t letter}, s ∈ ids → a.target? s letter = some t → t < a.numStates) :
    ∃ incoming, ofStates a ids = .ok incoming ∧ Indexes a ids incoming := by
  obtain ⟨incoming, hok, hsize, hsources⟩ :=
    addStates_spec ids Array.size_replicate hrange htargets
  refine ⟨incoming, hok, hsize, ?_⟩
  intro s t letter ht
  have hnone : s ∉ sources (Array.replicate a.numStates Table.empty) t letter := by
    rw [sources, Array.getElem?_replicate, if_pos ht]
    exact not_mem_under_empty
  exact (hsources ht).trans (or_iff_right hnone)

/-- Gathering goes through targets that have a place one by one. -/
theorem gather_spec (incoming : Incoming) (targets : List StateId) (table : Table Char IdSet)
    (h : ∀ t ∈ targets, t < incoming.size) :
    ∃ found, targets.foldlM (fun found id => do
        return (← Row.read incoming id).entries.foldl (fun found entry =>
          found.merge IdSet.union entry.1 entry.2) found) table = Except.ok found ∧
      ∀ {s letter}, s ∈ under found letter ↔
        s ∈ under table letter ∨ ∃ target ∈ targets, s ∈ sources incoming target letter := by
  induction targets generalizing table with
  | nil => exact ⟨table, rfl, by simp⟩
  | cons target rest ih =>
    obtain ⟨htarget, hrest⟩ := List.forall_mem_cons.mp h
    obtain ⟨found, hok, hunder⟩ := ih _ hrest
    refine ⟨found, ?_, ?_⟩
    · rw [List.foldlM_cons, Row.read_eq_ok .empty htarget]
      exact hok
    · intro s letter
      rw [hunder, mem_under_foldl_merge, ← mem_under, or_assoc]
      apply or_congr_right
      simp [sources]

/-- Under each letter, the table has the listed states with an edge on it into the
set. -/
def Gathered (a : Automaton) (ids : List StateId) (targets : IdSet) (found : Table Char IdSet) :
    Prop :=
  ∀ {s letter}, s ∈ under found letter ↔ s ∈ ids ∧ ∃ t ∈ targets, a.target? s letter = some t

/-- The sources of the edges into a set of states that exist are gathered. -/
theorem Indexes.into_spec {incoming : Incoming} {ids : List StateId} (h : Indexes a ids incoming)
    {targets : IdSet} (hrange : ∀ t ∈ targets, t < a.numStates) :
    ∃ found, incoming.into targets = .ok found ∧ Gathered a ids targets found := by
  obtain ⟨found, hok, hunder⟩ := gather_spec incoming targets.members .empty fun t ht =>
    h.size.symm ▸ hrange t ht
  refine ⟨found, hok, ?_⟩
  intro s letter
  rw [hunder]
  simp only [not_mem_under_empty, false_or, IdSet.mem_members]
  constructor
  · rintro ⟨target, htarget, hs⟩
    obtain ⟨hid, hedge⟩ := (h.mem_sources (hrange target htarget)).mp hs
    exact ⟨hid, target, htarget, hedge⟩
  · rintro ⟨hid, target, htarget, hedge⟩
    exact ⟨target, htarget, (h.mem_sources (hrange target htarget)).mpr ⟨hid, hedge⟩⟩

end WordPattern.Incoming
