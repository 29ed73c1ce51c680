import Mathlib.Logic.Embedding.Basic
import WordPattern.Proofs.Automaton.Cycle
import WordPattern.Proofs.Automaton.Tour

/-!
# Automata over other letters

Letters are only ever compared for equality, and tables keep their entries in
the order in which these came. So if the letters of an automaton are renamed,
different ones to different ones, every table that is built on the way has the
same entries at the same places under renamed keys, the refinement makes the
same divisions, and the minimal automaton is the renamed one.
-/

namespace WordPattern

namespace Table

variable {κ μ α β : Type} {f : κ ↪ μ}

/-- A table is its entries. -/
theorem eq_of_entries {s t : Table κ α} (h : s.entries = t.entries) : s = t := by
  cases s
  cases t
  cases h
  rfl

/-- Renames the keys, different ones to different ones. -/
def mapKeys (f : κ ↪ μ) (table : Table κ α) : Table μ α where
  entries := table.entries.map (Prod.map f id)
  distinct := by
    have hkeys : (table.entries.map (Prod.map f id)).map Prod.fst =
        (table.entries.map Prod.fst).map f := by simp
    rw [hkeys]
    exact table.distinct.map f.injective

@[simp] theorem values_mapKeys (table : Table κ α) : (table.mapKeys f).values = table.values := by
  simp [mapKeys, values]

theorem map_mapKeys (g : α → β) (table : Table κ α) :
    (table.mapKeys f).map g = (table.map g).mapKeys f :=
  eq_of_entries (by simp [mapKeys, map])

theorem filterMap_mapKeys (g : α → Option β) (table : Table κ α) :
    (table.mapKeys f).filterMap g = (table.filterMap g).mapKeys f := by
  apply eq_of_entries
  simp only [mapKeys, filterMap, List.filterMap_map, List.map_filterMap]
  apply List.filterMap_congr
  intro entry _
  cases hg : g entry.2 <;> simp [hg]

variable [DecidableEq κ] [DecidableEq μ]

@[simp] theorem find?_mapKeys (table : Table κ α) (key : κ) :
    (table.mapKeys f).find? (f key) = table.find? key := by
  simp [mapKeys, find?, List.find?_map, Function.comp_def]

/-- A renamed entry is altered at its place. -/
theorem alter_mapKeys (g : Option α → α) (table : Table κ α) (key : κ) :
    (table.mapKeys f).alter (f key) g = (table.alter key g).mapKeys f := by
  apply eq_of_entries
  change alterEntries (f key) g (table.entries.map (Prod.map f id)) =
    (alterEntries key g table.entries).map (Prod.map f id)
  induction table.entries with
  | nil => rfl
  | cons entry rest ih =>
    obtain ⟨k, value⟩ := entry
    by_cases hk : k = key
    · simp [alterEntries, hk]
    · simp [alterEntries, hk, ih]

theorem insert_mapKeys (table : Table κ α) (key : κ) (value : α) :
    (table.mapKeys f).insert (f key) value = (table.insert key value).mapKeys f :=
  alter_mapKeys _ table key

theorem merge_mapKeys (g : α → α → α) (table : Table κ α) (key : κ) (value : α) :
    (table.mapKeys f).merge g (f key) value = (table.merge g key value).mapKeys f :=
  alter_mapKeys _ table key

end Table

namespace Row

variable {α β : Type} {c : α → β}

theorem read_map (row : Array α) (id : Nat) : read (row.map c) id = (read row id).map c := by
  rw [read, read, Array.getElem?_map]
  cases row[id]? <;> rfl

/-- A place is changed alike before and after conversion. -/
theorem change_map {g : α → α} {h : β → β} (hgh : ∀ x, h (c x) = c (g x)) (row : Array α)
    (id : Nat) : change (row.map c) id h = (change row id g).map (Array.map c) := by
  have hmodify : (row.map c).modify id h = (row.modify id g).map c := by
    apply Array.ext_getElem?
    intro j
    simp only [Array.getElem?_map, Array.getElem?_modify]
    split
    · cases row[j]? <;> simp [hgh]
    · rfl
  rw [change, change, Array.size_map, hmodify]
  split <;> rfl

end Row

/-- A state with renamed letters on its edges. -/
def State.rename (f : Char ↪ Char) (state : State) : State :=
  { state with edges := state.edges.mapKeys f }

/-- An automaton with renamed letters. -/
def Automaton.rename (f : Char ↪ Char) (a : Automaton) : Automaton :=
  ⟨a.states.map (State.rename f)⟩

variable {f : Char ↪ Char}

@[simp] theorem State.successors_rename (state : State) :
    (state.rename f).successors = state.successors := Table.values_mapKeys state.edges

namespace Automaton

variable (a : Automaton)

@[simp] theorem numStates_rename : (a.rename f).numStates = a.numStates := Array.size_map

@[simp] theorem getElem?_rename (id : StateId) :
    (a.rename f).states[id]? = (a.states[id]?).map (State.rename f) := Array.getElem?_map

theorem state_rename (id : StateId) :
    (a.rename f).state id = (a.state id).map (State.rename f) := by
  rw [state, state, getElem?_rename]
  cases a.states[id]? <;> rfl

/-- The traversal does not look at letters. -/
theorem preorderFrom_rename (unseen stack : List StateId) :
    (a.rename f).preorderFrom unseen stack = a.preorderFrom unseen stack := by
  induction unseen, stack using preorderFrom.induct a with
  | case1 unseen => rw [preorderFrom, preorderFrom]
  | case2 unseen id rest hid ih =>
    rw [preorderFrom, preorderFrom, dif_pos hid, dif_pos hid, state_rename]
    cases hstate : a.state id with
    | error e => rfl
    | ok state =>
      have hrest := ih state
      simp only [Except.map, bind, Except.bind, State.successors_rename, hrest]
  | case3 unseen id rest hid hlt ih =>
    rw [preorderFrom, preorderFrom, dif_neg hid, dif_neg hid, numStates_rename, if_pos hlt,
      if_pos hlt, ih]
  | case4 unseen id rest hid hlt =>
    rw [preorderFrom, preorderFrom, dif_neg hid, dif_neg hid, numStates_rename, if_neg hlt,
      if_neg hlt]

@[simp] theorem preorder_rename : (a.rename f).preorder = a.preorder := by
  rw [preorder, preorder, numStates_rename, preorderFrom_rename]

/-- Nor does the search for a cycle. -/
@[simp] theorem isAcyclic_rename : (a.rename f).isAcyclic = a.isAcyclic := by
  refine isAcyclic_congr fun id _ => ?_
  rw [state_rename]
  cases a.state id with
  | error e => rfl
  | ok state => exact congrArg Except.ok state.successors_rename

end Automaton

/-- Incoming edges with renamed letters. -/
def Incoming.rename (f : Char ↪ Char) (incoming : Incoming) : Incoming :=
  incoming.map (Table.mapKeys f)

namespace Incoming

variable (incoming : Incoming)

/-- The sources of renamed edges are the sources, under renamed letters. -/
theorem ofStates_rename (a : Automaton) (ids : List StateId) :
    ofStates (a.rename f) ids = (ofStates a ids).map (rename f) := by
  have hinit : Array.replicate a.numStates (Table.empty : Table Char IdSet) =
      Incoming.rename f (Array.replicate a.numStates .empty) := by
    rw [rename, Array.map_replicate]
    rfl
  rw [ofStates, ofStates, Automaton.numStates_rename]
  nth_rewrite 1 [hinit]
  refine foldlM_hom (rename f) ?_ ids _
  intro incoming id
  rw [addState, addState, Automaton.state_rename]
  cases a.state id with
  | error e => rfl
  | ok state =>
    change (state.edges.entries.map (Prod.map f fun target => target)).foldlM _ _ = _
    rw [List.foldlM_map]
    refine foldlM_hom (rename f) ?_ state.edges.entries incoming
    intro incoming edge
    exact Row.change_map (fun sources => Table.merge_mapKeys _ sources edge.1 _) incoming edge.2

/-- Into each set lead the same edges in the same order, under renamed letters. -/
theorem into_rename (targets : IdSet) :
    (incoming.rename f).into targets = (incoming.into targets).map (Table.mapKeys f) := by
  rw [into, into]
  change targets.members.foldlM _ (Table.mapKeys f .empty) = _
  refine foldlM_hom (Table.mapKeys f) ?_ targets.members .empty
  intro found target
  rw [rename, Row.read_map]
  cases Row.read incoming target with
  | error e => rfl
  | ok table =>
    change Except.ok ((table.entries.map (Prod.map f id)).foldl _ _) = _
    rw [List.foldl_map]
    refine congrArg Except.ok (List.foldl_hom _ ?_)
    intro found entry
    exact Table.merge_mapKeys _ found entry.1 entry.2

end Incoming

namespace Refinement

theorem start_rename (a : Automaton) (ids : List StateId) :
    start (a.rename f) ids = start a ids := by
  have hmark : ∀ id, (do return (id, (← (a.rename f).state id).accepting)) =
      (do return (id, (← a.state id).accepting) : Except Error (StateId × Bool)) := by
    intro id
    rw [Automaton.state_rename]
    cases a.state id <;> rfl
  rw [start, start, mapM_congr fun id _ => hmark id, Automaton.numStates_rename]

variable (incoming : Incoming) (r : Refinement)

/-- The letters of a splitter are used in the same order. -/
theorem splitBy_rename (splitter : IdSet) :
    r.splitBy (incoming.rename f) splitter = r.splitBy incoming splitter := by
  rw [splitBy, splitBy, Incoming.into_rename]
  cases incoming.into splitter with
  | error e => rfl
  | ok found => simp only [Except.map, bind, Except.bind, Table.values_mapKeys]

theorem step_rename : r.step (incoming.rename f) = r.step incoming := by
  simp only [step, splitBy_rename]

theorem run_rename (fuel : Nat) : r.run (incoming.rename f) fuel = r.run incoming fuel := by
  induction fuel generalizing r with
  | zero => rfl
  | succ fuel ih => simp only [run, step_rename, ih]

end Refinement

/-- The refinement makes the same divisions. -/
theorem Partition.refined_rename (a : Automaton) (ids : List StateId) :
    refined (a.rename f) ids = refined a ids := by
  rw [refined, refined, Incoming.ofStates_rename, Refinement.start_rename,
    Automaton.numStates_rename]
  cases Incoming.ofStates a ids with
  | error e => rfl
  | ok incoming => simp only [Except.map, bind, Except.bind, Refinement.run_rename]

namespace Automaton

variable (a : Automaton) (p : Partition)

theorem blockState_rename (id : BlockId) :
    (a.rename f).blockState p id = (a.blockState p id).map (State.rename f) := by
  rw [blockState, blockState]
  cases p.get id with
  | error e => rfl
  | ok block =>
    cases hleast : block.least? with
    | none =>
      simp only [hleast, bind, Except.bind, pure, Except.pure, Except.map]
      rfl
    | some lowest =>
      simp only [hleast, state_rename, bind, Except.bind]
      cases a.state lowest with
      | error e => rfl
      | ok state =>
        simp only [Except.map, pure, Except.pure, State.rename, Table.filterMap_mapKeys]

/-- The tour comes to the same blocks. -/
theorem tour_rename :
    (a.rename f).tour p = (a.tour p).map (List.map (Prod.map id (State.rename f))) := by
  have hmatches : Matches a p (a.rename f) p id (State.rename f) Set.univ :=
    ⟨fun _ _ _ _ h => h, fun _ _ _ _ _ _ => trivial, fun id _ => blockState_rename a p id,
      fun state => by rw [State.successors_rename, List.map_id]⟩
  exact hmatches.tour (by rw [Option.map_id_fun, id_eq]) fun _ _ => trivial

theorem ofBlocks_rename (blocks : List (BlockId × State)) :
    ofBlocks (blocks.map (Prod.map id (State.rename f))) = (ofBlocks blocks).rename f := by
  simp [ofBlocks, rename, State.rename, Table.map_mapKeys, Function.comp_def]

theorem quotient_rename : (a.rename f).quotient p = (a.quotient p).map (rename f) := by
  rw [quotient_eq, quotient_eq, tour_rename]
  cases a.tour p with
  | error e => rfl
  | ok blocks => exact congrArg Except.ok (ofBlocks_rename blocks)

/-- The minimal automaton over renamed letters is the minimal automaton with
renamed letters. -/
theorem minimal_rename : (a.rename f).minimal = a.minimal.map (rename f) := by
  simp only [minimal, preorder_rename, Partition.refined_rename, quotient_rename]
  cases a.preorder with
  | error e => rfl
  | ok ids =>
    simp only [bind, Except.bind]
    cases Partition.refined a ids <;> rfl

end Automaton

end WordPattern
