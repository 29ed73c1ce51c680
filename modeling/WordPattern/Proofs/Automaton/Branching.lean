import Mathlib.Data.List.Induction
import WordPattern.Proofs.Automaton.Reachable

/-!
# Branching automata

Every state of a branching automaton but the start has exactly one edge that leads
to it, from a state with a smaller number, so exactly one word leads to each state.
Following the letters of a word, with new states where edges are missing, keeps an
automaton branching and adds the run of the word, and making its end accept adds
this word and no other. The numbers of the new states are not described here.
-/

namespace WordPattern

namespace Automaton

variable {a b : Automaton} {p q : StateId}

theorem numStates_edit (a : Automaton) (id : StateId) (f : State → State) :
    (a.edit id f).numStates = a.numStates :=
  Array.size_modify

/-- Changing a state that exists changes that state only. -/
theorem stateAt_edit (hp : p < a.numStates) (f : State → State) (id : StateId) :
    (a.edit p f).stateAt id = if id = p then f (a.stateAt p) else a.stateAt id := by
  rw [stateAt, edit, Array.getElem?_modify]
  by_cases hid : p = id
  · have hget : a.states[p]? = some a.states[p] := Array.getElem?_eq_getElem hp
    subst hid
    simp [stateAt, hget]
  · rw [if_neg hid, if_neg (Ne.symm hid), stateAt]

theorem numStates_addState (a : Automaton) : a.addState.1.numStates = a.numStates + 1 :=
  Array.size_push _

/-- The new state is like one that does not exist. -/
theorem stateAt_addState (a : Automaton) (id : StateId) :
    a.addState.1.stateAt id = a.stateAt id := by
  rw [stateAt, addState, Array.getElem?_push]
  split
  · rename_i hid
    rw [stateAt, hid, Array.getElem?_eq_none (Nat.le_refl _)]
    rfl
  · rfl

/-- Every state but the start has exactly one edge that leads to it, from an
earlier state, and every edge leads to a state. -/
structure Branching (a : Automaton) : Prop where
  /-- The start exists. -/
  nonempty : start < a.numStates
  /-- Edges lead to later states. -/
  later : ∀ {p q letter}, a.target? p letter = some q → p < q ∧ q < a.numStates
  /-- No two edges lead to one state. -/
  single : ∀ {p p' q letter letter'}, a.target? p letter = some q →
    a.target? p' letter' = some q → p = p' ∧ letter = letter'
  /-- Some edge leads to each state but the start. -/
  entered : ∀ {q}, q < a.numStates → q ≠ start → ∃ p letter, a.target? p letter = some q

theorem Branching.closed (h : a.Branching) : a.Closed :=
  ⟨h.nonempty, fun _ hedge => (h.later hedge).2⟩

/-- Every state is reachable. -/
theorem Branching.reachable (h : a.Branching) (hq : q < a.numStates) : a.Reachable q := by
  induction q using Nat.strongRecOn with
  | ind q ih =>
    by_cases hstart : q = start
    · exact hstart ▸ .start
    · obtain ⟨p, letter, hedge⟩ := h.entered hq hstart
      have hlt := (h.later hedge).1
      exact (ih p hlt (Nat.lt_trans hlt hq)).edge hedge

/-- No run of a word that is not empty leads back to the start. -/
theorem Branching.run_ne_start (h : a.Branching) {word : Word} {letter : Char} :
    a.runFrom p (word ++ [letter]) ≠ some start := by
  intro hrun
  obtain ⟨before, -, hedge⟩ := runFrom_concat.mp hrun
  exact Nat.not_lt_zero _ (h.later hedge).1

/-- Only one word leads to each state. -/
theorem Branching.run_injective (h : a.Branching) {u v : Word} (hu : a.runFrom start u = some q)
    (hv : a.runFrom start v = some q) : u = v := by
  induction u using List.reverseRecOn generalizing v q with
  | nil =>
    cases hu
    cases v using List.reverseRecOn with
    | nil => rfl
    | append_singleton v letter => exact absurd hv h.run_ne_start
  | append_singleton u letter ih =>
    cases v using List.reverseRecOn with
    | nil =>
      cases hv
      exact absurd hu h.run_ne_start
    | append_singleton v letter' =>
      obtain ⟨before, hbefore, hedge⟩ := runFrom_concat.mp hu
      obtain ⟨before', hbefore', hedge'⟩ := runFrom_concat.mp hv
      obtain ⟨rfl, rfl⟩ := h.single hedge hedge'
      rw [ih hbefore hbefore']

/-- A word is accepted if it leads to an accepting state. -/
theorem verdict_eq_true_iff {word : Word} :
    a.verdict p word = some true ↔ ∃ q, a.runFrom p word = some q ∧ a.isAccepting q = true :=
  Option.map_eq_some_iff

/-- States that do not exist do not accept. -/
theorem lt_of_isAccepting (h : a.isAccepting p = true) : p < a.numStates := by
  by_contra hp
  rw [isAccepting, stateAt, Array.getElem?_eq_none (Nat.le_of_not_lt hp)] at h
  cases h

/-- The second automaton has all edges of the first and the same accepting
states. -/
structure Grows (a b : Automaton) : Prop where
  /-- Edges stay. -/
  edges : ∀ {p letter q}, a.target? p letter = some q → b.target? p letter = some q
  /-- Accepting states stay, and no others are added. -/
  accepting : ∀ p, b.isAccepting p = a.isAccepting p

theorem Grows.refl (a : Automaton) : Grows a a := ⟨id, fun _ => rfl⟩

theorem Grows.trans {c : Automaton} (h : Grows a b) (h' : Grows b c) : Grows a c :=
  ⟨fun hedge => h'.edges (h.edges hedge), fun p => (h'.accepting p).trans (h.accepting p)⟩

theorem Grows.runFrom (h : Grows a b) {word : Word} (hrun : a.runFrom p word = some q) :
    b.runFrom p word = some q := by
  induction word generalizing p with
  | nil => exact hrun
  | cons letter rest ih =>
    obtain ⟨next, hedge, hrest⟩ := Option.bind_eq_some_iff.mp hrun
    exact Option.bind_eq_some_iff.mpr ⟨next, h.edges hedge, ih hrest⟩

/-- Growing takes no word away from a state. -/
theorem Grows.verdict_true (h : Grows a b) {word : Word} (hword : a.verdict p word = some true) :
    b.verdict p word = some true := by
  obtain ⟨q, hrun, haccepting⟩ := verdict_eq_true_iff.mp hword
  exact verdict_eq_true_iff.mpr ⟨q, h.runFrom hrun, (h.accepting q).trans haccepting⟩

/-- Growing does not change which words are accepted. -/
theorem Grows.verdict (h : Grows a b) (ha : a.Branching) (hb : b.Branching) {word : Word} :
    b.verdict start word = some true ↔ a.verdict start word = some true := by
  refine ⟨fun hword => ?_, h.verdict_true⟩
  obtain ⟨q, hrun, haccepting⟩ := verdict_eq_true_iff.mp hword
  rw [h.accepting] at haccepting
  -- the state accepted before, so a word led to it, and there is only one
  obtain ⟨other, hother⟩ := reachable_iff_run.mp (ha.reachable (lt_of_isAccepting haccepting))
  rw [hb.run_injective hrun (h.runFrom hother)]
  exact verdict_eq_true_iff.mpr ⟨q, hother, haccepting⟩

/-- Following an edge leads from one automaton to another one and to a state. -/
inductive Extends (a : Automaton) (p : StateId) (letter : Char) : Automaton → StateId → Prop where
  /-- There is the edge, and nothing changes. -/
  | kept {q : StateId} (edge : a.target? p letter = some q) : Extends a p letter a q
  /-- The edge is missing. It is added with a new state as its target, and nothing
  else changes. -/
  | grown {b : Automaton} (missing : a.target? p letter = none)
      (size : b.numStates = a.numStates + 1)
      (target : ∀ source c, b.target? source c =
        if source = p ∧ c = letter then some a.numStates else a.target? source c)
      (accepting : ∀ id, b.isAccepting id = a.isAccepting id) : Extends a p letter b a.numStates

/-- The edges of a state that exists can be followed. -/
theorem follow_eq_ok (hp : p < a.numStates) (letter : Char) :
    a.follow p letter = .ok (a.target? p letter) := by
  rw [follow, state_eq_ok hp, target?_eq]
  rfl

theorem edit?_eq_ok (hp : p < a.numStates) (f : State → State) : a.edit? p f = .ok (a.edit p f) :=
  if_pos hp

/-- A state that exists is extended. -/
theorem extend_spec (hp : p < a.numStates) (letter : Char) :
    ∃ b q, a.extend p letter = .ok (b, q) ∧ Extends a p letter b q := by
  have hfollow := follow_eq_ok hp letter
  cases hedge : a.target? p letter with
  | some q =>
    refine ⟨a, q, ?_, .kept hedge⟩
    rw [extend, hfollow, hedge]
    rfl
  | none =>
    have hlt : p < a.addState.1.numStates := by
      rw [numStates_addState]
      exact Nat.lt_succ_of_lt hp
    let link : State → State := fun state =>
      { state with edges := state.edges.insert letter a.numStates }
    have hstate : ∀ id, (a.addState.1.edit p link).stateAt id =
        if id = p then link (a.stateAt p) else a.stateAt id := by
      intro id
      rw [stateAt_edit hlt, stateAt_addState, stateAt_addState]
    refine ⟨a.addState.1.edit p link, a.numStates, ?_, .grown hedge ?_ ?_ ?_⟩
    · have hlink : a.addState.1.setEdge p letter a.numStates = .ok (a.addState.1.edit p link) :=
        edit?_eq_ok hlt link
      rw [extend, hfollow, hedge]
      change (a.addState.1.setEdge p letter a.numStates >>= _) = _
      rw [hlink]
      rfl
    · rw [numStates_edit, numStates_addState]
    · intro source c
      rw [target?_eq, hstate, target?_eq]
      by_cases hsource : source = p
      · subst hsource
        rw [if_pos rfl, Table.find?_insert]
        simp only [true_and]
      · simp [hsource]
    · intro id
      rw [isAccepting, hstate, isAccepting]
      split
      · rename_i hid
        rw [hid]
      · rfl

/-- An edge that is added where there was none leaves the others as they are. -/
theorem target?_addEdge {letter : Char} (hnone : a.target? p letter = none)
    (htarget : ∀ source c, b.target? source c =
      if source = p ∧ c = letter then some a.numStates else a.target? source c)
    {source target : StateId} {c : Char} (hedge : a.target? source c = some target) :
    b.target? source c = some target := by
  rw [htarget, if_neg, hedge]
  intro hsame
  rw [hsame.1, hsame.2, hnone] at hedge
  cases hedge

/-- One more edge, which leads to one more state, keeps an automaton branching. -/
theorem Branching.addEdge (h : a.Branching) {letter : Char} (hp : p < a.numStates)
    (hnone : a.target? p letter = none) (hsize : b.numStates = a.numStates + 1)
    (htarget : ∀ source c, b.target? source c =
      if source = p ∧ c = letter then some a.numStates else a.target? source c) :
    b.Branching := by
  have hcases : ∀ {source c target}, b.target? source c = some target →
      (source = p ∧ c = letter ∧ target = a.numStates) ∨ a.target? source c = some target := by
    intro source c target hedge
    rw [htarget] at hedge
    split at hedge
    · rename_i hsame
      cases hedge
      exact Or.inl ⟨hsame.1, hsame.2, rfl⟩
    · exact Or.inr hedge
  refine ⟨?_, ?_, ?_, ?_⟩
  · rw [hsize]
    exact Nat.succ_pos _
  · intro source target c hedge
    rw [hsize]
    rcases hcases hedge with ⟨rfl, rfl, rfl⟩ | hold
    · exact ⟨hp, Nat.lt_succ_self _⟩
    · exact ⟨(h.later hold).1, Nat.lt_succ_of_lt (h.later hold).2⟩
  · intro source source' target c c' hedge hedge'
    rcases hcases hedge with ⟨rfl, rfl, rfl⟩ | hold
    · rcases hcases hedge' with ⟨rfl, rfl, -⟩ | hold'
      · exact ⟨rfl, rfl⟩
      · exact absurd (h.later hold').2 (Nat.lt_irrefl _)
    · rcases hcases hedge' with ⟨rfl, rfl, rfl⟩ | hold'
      · exact absurd (h.later hold).2 (Nat.lt_irrefl _)
      · exact h.single hold hold'
  · intro target hlt hstart
    rw [hsize] at hlt
    rcases Nat.lt_succ_iff_lt_or_eq.mp hlt with hlt | rfl
    · obtain ⟨source, c, hedge⟩ := h.entered hlt hstart
      exact ⟨source, c, target?_addEdge hnone htarget hedge⟩
    · exact ⟨p, letter, by rw [htarget, if_pos ⟨rfl, rfl⟩]⟩

/-- Extending grows an automaton, and afterwards there is the edge. -/
theorem Branching.extends_spec (h : a.Branching) (hp : p < a.numStates) {letter : Char}
    (hstep : Extends a p letter b q) :
    b.Branching ∧ Grows a b ∧ b.target? p letter = some q ∧
      ∀ id < b.numStates, id < a.numStates ∨ id = q := by
  cases hstep with
  | kept hedge => exact ⟨h, .refl a, hedge, fun id hid => Or.inl hid⟩
  | grown hmissing hsize htarget haccepting =>
    have hgrows : Grows a b := ⟨target?_addEdge hmissing htarget, haccepting⟩
    refine ⟨h.addEdge hp hmissing hsize htarget, hgrows, ?_, ?_⟩
    · rw [htarget, if_pos ⟨rfl, rfl⟩]
    · intro id hid
      rw [hsize] at hid
      exact Nat.lt_succ_iff_lt_or_eq.mp hid

/-- The second automaton is the first one grown by what the run of a word from a
state was missing, and the run ends in `last`. -/
structure Completes (a : Automaton) (p : StateId) (word : Word) (b : Automaton)
    (last : StateId) : Prop where
  /-- Every state is still entered once. -/
  branching : b.Branching
  /-- Nothing is lost. -/
  grows : Grows a b
  /-- There is the run. -/
  run : b.runFrom p word = some last
  /-- From every new state the run goes on to its end. -/
  ahead : ∀ q < b.numStates, q < a.numStates ∨ ∃ rest, b.runFrom q rest = some last

theorem Completes.cons {c : Automaton} {letter : Char} {rest : Word} {last : StateId}
    (hgrows : Grows a b) (hedge : b.target? p letter = some q)
    (hnew : ∀ id < b.numStates, id < a.numStates ∨ id = q) (h : Completes b q rest c last) :
    Completes a p (letter :: rest) c last := by
  refine ⟨h.branching, hgrows.trans h.grows, ?_, fun id hid => ?_⟩
  · exact Option.bind_eq_some_iff.mpr ⟨q, h.grows.edges hedge, h.run⟩
  · rcases h.ahead id hid with hold | hahead
    · rcases hnew id hold with hold | rfl
      · exact Or.inl hold
      · exact Or.inr ⟨rest, h.run⟩
    · exact Or.inr hahead

/-- Automata of one size with the same edges are branching together. -/
theorem Branching.of_same_edges (h : a.Branching) (hsize : b.numStates = a.numStates)
    (htarget : ∀ id letter, b.target? id letter = a.target? id letter) : b.Branching := by
  refine ⟨?_, ?_, ?_, ?_⟩
  · rw [hsize]
    exact h.nonempty
  · intro source target c hedge
    rw [hsize]
    exact h.later (htarget source c ▸ hedge)
  · intro source source' target c c' hedge hedge'
    exact h.single (htarget source c ▸ hedge) (htarget source' c' ▸ hedge')
  · intro target hlt hstart
    obtain ⟨source, c, hedge⟩ := h.entered (hsize ▸ hlt) hstart
    exact ⟨source, c, (htarget source c).trans hedge⟩

/-- Automata with the same edges have the same runs. -/
theorem runFrom_eq_of_same_edges (htarget : ∀ id letter, b.target? id letter = a.target? id letter)
    (id : StateId) (word : Word) : b.runFrom id word = a.runFrom id word := by
  induction word generalizing id with
  | nil => rfl
  | cons letter rest ih =>
    rw [runFrom, runFrom, htarget]
    exact Option.bind_congr fun next _ => ih next

/-- The automaton in which runs may also end in a given state. -/
def accept (a : Automaton) (id : StateId) : Automaton :=
  a.edit id fun state => { state with accepting := true }

theorem target?_accept (hp : p < a.numStates) (id : StateId) (letter : Char) :
    (a.accept p).target? id letter = a.target? id letter := by
  rw [target?_eq, target?_eq, accept, stateAt_edit hp]
  split
  · rename_i hid
    rw [hid]
  · rfl

theorem isAccepting_accept (hp : p < a.numStates) {id : StateId} :
    (a.accept p).isAccepting id = true ↔ a.isAccepting id = true ∨ id = p := by
  rw [isAccepting, accept, stateAt_edit hp, isAccepting]
  split
  · rename_i hid
    simp [hid]
  · rename_i hid
    simp [hid]

/-- Making a state accept keeps the edges, and adds the word that leads there. -/
theorem Branching.accept_spec (h : a.Branching) {added : Word}
    (hrun : a.runFrom start added = some p) :
    (a.accept p).Branching ∧ ∀ word, (a.accept p).verdict start word = some true ↔
      a.verdict start word = some true ∨ word = added := by
  have hp : p < a.numStates := h.closed.lt (reachable_iff_run.mpr ⟨added, hrun⟩)
  have hruns := runFrom_eq_of_same_edges (target?_accept hp)
  refine ⟨h.of_same_edges (numStates_edit a p _) (target?_accept hp), fun word => ?_⟩
  rw [verdict_eq_true_iff, verdict_eq_true_iff]
  constructor
  · intro hword
    obtain ⟨q, hq, hend⟩ := hword
    rw [hruns] at hq
    rcases (isAccepting_accept hp).mp hend with hold | rfl
    · exact Or.inl ⟨q, hq, hold⟩
    · exact Or.inr (h.run_injective hq hrun)
  · intro hword
    rcases hword with ⟨q, hq, hend⟩ | rfl
    · exact ⟨q, (hruns start word).trans hq, (isAccepting_accept hp).mpr (Or.inl hend)⟩
    · exact ⟨p, (hruns start word).trans hrun, (isAccepting_accept hp).mpr (Or.inr rfl)⟩

/-- The automaton without edges that accepts nothing is branching. -/
theorem branching_initial : initial.Branching := by
  have hnone : ∀ {id letter}, initial.target? id letter = none := by
    intro id letter
    cases id with
    | zero => rfl
    | succ id => rfl
  refine ⟨Nat.zero_lt_one, ?_, ?_, ?_⟩
  · intro p q letter hedge
    rw [hnone] at hedge
    cases hedge
  · intro p p' q letter letter' hedge
    rw [hnone] at hedge
    cases hedge
  · intro q hq hstart
    exact absurd (Nat.lt_one_iff.mp hq) hstart

/-- Every state but perhaps the start accepts some word. -/
def Fruitful (a : Automaton) : Prop :=
  ∀ ⦃q⦄, q < a.numStates → q ≠ start → ∃ word, a.verdict q word = some true

/-- With the run of a word and an accepting state at its end, every state but
perhaps the start accepts some word, if so it was before. -/
theorem Fruitful.completes (h : a.Fruitful) {word : Word} {last : StateId}
    (hword : Completes a p word b last) (hlast : last < b.numStates) :
    (b.accept last).Fruitful := by
  have hruns := runFrom_eq_of_same_edges (target?_accept hlast)
  intro q hq hstart
  rw [accept, numStates_edit] at hq
  -- Old states keep their words; from a new one the run of the added word goes on.
  rcases hword.ahead q hq with hold | ⟨rest, hrest⟩
  · obtain ⟨other, hother⟩ := h hold hstart
    obtain ⟨final, hrun, haccepting⟩ := verdict_eq_true_iff.mp (hword.grows.verdict_true hother)
    exact ⟨other, verdict_eq_true_iff.mpr ⟨final, (hruns q other).trans hrun,
      (isAccepting_accept hlast).mpr (Or.inl haccepting)⟩⟩
  · exact ⟨rest, verdict_eq_true_iff.mpr ⟨last, (hruns q rest).trans hrest,
      (isAccepting_accept hlast).mpr (Or.inr rfl)⟩⟩

end Automaton

end WordPattern
