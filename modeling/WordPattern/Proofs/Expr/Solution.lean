import WordPattern.Proofs.Automaton.Cycle
import WordPattern.Proofs.Expr.Equations

/-!
# The expression of an automaton

The equations of the reachable states hold of the words accepted from them, so
solving them gives the words accepted from the start. This is shown for every
closed automaton, minimal or not, whatever its cycles. An expression is absent
exactly when nothing is accepted. How long the expression gets, and in which
order its options stand, is not described here.
-/

namespace WordPattern

open Computability

variable {a : Automaton} {p : StateId}

/-- The words accepted from a state. -/
def Automaton.wordsFrom (a : Automaton) (id : StateId) : Language Char :=
  {word | a.verdict id word = some true}

theorem Automaton.mem_wordsFrom {id : StateId} {word : Word} :
    word ∈ a.wordsFrom id ↔ a.verdict id word = some true := Iff.rfl

namespace Equation

/-- A word is in a sum if it is in one of the summands. -/
theorem mem_sum_map {α : Type} {items : List α} {f : α → Language Char} {word : Word} :
    word ∈ (items.map f).sum ↔ ∃ item ∈ items, word ∈ f item := by
  induction items with
  | nil => simp
  | cons item rest ih =>
    rw [List.map_cons, List.sum_cons, Language.mem_add, ih]
    simp

/-- Words that begin with a letter and go on in a language. -/
theorem mem_letter_mul {letter : Char} {L : Language Char} {word : Word} :
    word ∈ (Expr.literal [letter]).language * L ↔ ∃ rest ∈ L, word = letter :: rest := by
  rw [Language.mem_mul]
  constructor
  · intro h
    obtain ⟨first, hfirst, rest, hrest, rfl⟩ := h
    rw [Expr.mem_literal.mp hfirst]
    exact ⟨rest, hrest, rfl⟩
  · intro h
    obtain ⟨rest, hrest, rfl⟩ := h
    exact ⟨[letter], Expr.mem_literal.mpr rfl, rest, hrest, rfl⟩

/-- The constant of a state's equation is the empty word, if the state accepts. -/
theorem mem_constant {state : State} {word : Word} :
    word ∈ Expr.languageOf (ofState p state).constant ↔ state.accepting = true ∧ word = [] := by
  cases haccepting : state.accepting <;>
    simp [ofState, haccepting, Expr.languageOf, Expr.language_empty]

/-- A letter is a coefficient. -/
theorem coefficient_letter (letter : Char) : Coefficient (.literal [letter]) where
  proper := .literal _
  nonempty := fun h => by cases Expr.mem_literal.mp h

/-- The words accepted from a state are the empty one, if the state accepts,
and those that take an edge and are accepted from its target. -/
theorem wordsFrom_eq (a : Automaton) (id : StateId) :
    a.wordsFrom id = Expr.languageOf (ofState id (a.stateAt id)).constant +
      ((a.stateAt id).edges.entries.map fun edge =>
        (Expr.literal [edge.1]).language * a.wordsFrom edge.2).sum := by
  ext word
  rw [Language.mem_add, mem_sum_map, mem_constant]
  cases word with
  | nil =>
    have hedges : ¬∃ edge ∈ (a.stateAt id).edges.entries,
        [] ∈ (Expr.literal [edge.1]).language * a.wordsFrom edge.2 := by
      intro h
      obtain ⟨edge, -, hword⟩ := h
      obtain ⟨rest, -, he⟩ := mem_letter_mul.mp hword
      cases he
    rw [or_iff_left hedges]
    simp [Automaton.mem_wordsFrom, Automaton.isAccepting]
  | cons letter rest =>
    have hedge : ∀ {target : StateId}, a.target? id letter = some target ↔
        (letter, target) ∈ (a.stateAt id).edges.entries := by
      intro target
      rw [Automaton.target?_eq, Table.find?_eq_some_iff]
    have hrun : letter :: rest ∈ a.wordsFrom id ↔ ∃ target,
        a.target? id letter = some target ∧ rest ∈ a.wordsFrom target := by
      simp only [Automaton.mem_wordsFrom, Automaton.verdict_cons]
      exact Option.bind_eq_some_iff
    rw [hrun]
    constructor
    · intro h
      obtain ⟨target, htarget, hrest⟩ := h
      exact Or.inr ⟨(letter, target), hedge.mp htarget, mem_letter_mul.mpr ⟨rest, hrest, rfl⟩⟩
    · intro h
      rcases h with h | h
      · cases h.2
      · obtain ⟨edge, hmem, hword⟩ := h
        obtain ⟨tail, htail, he⟩ := mem_letter_mul.mp hword
        cases he
        exact ⟨edge.2, hedge.mpr hmem, htail⟩

/-- The equation of a state holds of the words accepted from the states. Its
unknowns are the targets of its edges. -/
theorem sound_ofState {unknowns : List StateId}
    (h : ∀ q ∈ (a.stateAt p).successors, q ∈ unknowns) :
    (ofState p (a.stateAt p)).Sound a.wordsFrom unknowns where
  holds := by
    rw [ofState, sumOf_foldl_merge, wordsFrom_eq]
    simp [sumOf, Table.empty, ofState]
  constant := by
    intro c hc
    simp only [ofState, Option.ite_none_right_eq_some] at hc
    cases hc.2
    exact .literal []
  terms := by
    refine forall_entries_foldl_merge (P := fun q e => q ∈ unknowns ∧ Coefficient e)
      (fun he hf => ⟨he.1, he.2.union hf.2⟩) _ Prod.snd (fun edge => .literal [edge.1]) .empty
      (fun term hterm => by cases hterm) ?_
    intro edge hedge
    exact ⟨h _ (List.mem_map.mpr ⟨edge, hedge, rfl⟩), coefficient_letter edge.1⟩

end Equation

namespace Automaton

/-- The equation of a reachable state is found where all reachable states are
unknowns. -/
theorem Closed.equation_eq (h : a.Closed) {order : List StateId}
    (hreach : ∀ id, id ∈ order ↔ a.Reachable id) {id : StateId} (hid : a.Reachable id) :
    a.equation order id = .ok (Equation.ofState id (a.stateAt id)) := by
  have hplaces : (a.stateAt id).successors.mapM (Row.placeOf order) =
      .ok ((a.stateAt id).successors.map order.idxOf) :=
    mapM_ok fun next hnext => Row.placeOf_eq_ok ((hreach next).mpr (hid.successors next hnext))
  rw [equation, state_eq_ok (h.lt hid)]
  simp only [bind, Except.bind, hplaces]
  rfl

/-- The expression of a closed automaton solves the equations of its reachable
states, the start's last. -/
theorem Closed.expression_eq (h : a.Closed) :
    ∃ order, a.preorder = .ok order ∧ (∀ id, id ∈ order ↔ a.Reachable id) ∧ a.expression =
      .ok (Equation.solve (order.reverse.map fun id => Equation.ofState id (a.stateAt id))) := by
  obtain ⟨order, hok, -, hreach⟩ := h.preorder_spec
  obtain ⟨acyclic, hacyclic⟩ := h.isAcyclic_ok
  have hequations : order.reverse.mapM (a.equation order) =
      .ok (order.reverse.map fun id => Equation.ofState id (a.stateAt id)) :=
    mapM_ok fun id hid => h.equation_eq hreach ((hreach id).mp (List.mem_reverse.mp hid))
  refine ⟨order, hok, hreach, ?_⟩
  rw [expression, hok, hacyclic]
  simp only [bind, Except.bind, hequations]
  rfl

/-- The expression of a closed automaton is found. It is proper and matches the
words accepted from the start, and it is absent only if there are none. -/
theorem Closed.expression_spec (h : a.Closed) :
    ∃ result, a.expression = .ok result ∧ Expr.languageOf result = a.wordsFrom start ∧
      ∀ e, result = some e → e.Proper := by
  obtain ⟨order, hok, hreach, hsolve⟩ := h.expression_eq
  let equations := order.reverse.map fun id => Equation.ofState id (a.stateAt id)
  have hunknowns : equations.map Equation.unknown = order.reverse := by
    rw [List.map_map]
    exact List.map_id _
  have hlast : (equations.map Equation.unknown).getLast? = some start := by
    rw [hunknowns, List.getLast?_reverse, h.preorder_head hok]
  have hsound : ∀ e ∈ equations, e.Sound a.wordsFrom (equations.map Equation.unknown) := by
    intro e he
    obtain ⟨id, hid, rfl⟩ := List.mem_map.mp he
    refine Equation.sound_ofState fun next hnext => ?_
    obtain ⟨letter, hedge⟩ := mem_successors.mp hnext
    rw [hunknowns, List.mem_reverse, hreach]
    exact ((hreach id).mp (List.mem_reverse.mp hid)).edge hedge
  exact ⟨_, hsolve, Equation.solve_spec equations start hlast hsound⟩

/-- On a closed automaton the words accepted from the start are those that the
automaton accepts. -/
theorem Closed.mem_wordsFrom_start (h : a.Closed) {word : Word} :
    word ∈ a.wordsFrom start ↔ a.accepts word = .ok true := by
  rw [h.accepts_eq, mem_wordsFrom]
  cases a.verdict start word <;> simp

/-- There is no expression exactly when no word is accepted. -/
theorem Closed.expression_eq_none_iff (h : a.Closed) {result : Option Expr}
    (hok : a.expression = .ok result) :
    result = none ↔ ¬∃ word, a.accepts word = .ok true := by
  obtain ⟨found, hfound, hlanguage, hproper⟩ := h.expression_spec
  obtain rfl : found = result := Except.ok.inj (hfound.symm.trans hok)
  cases found with
  | none =>
    refine iff_of_true rfl fun hword => ?_
    obtain ⟨word, hword⟩ := hword
    rw [← h.mem_wordsFrom_start, ← hlanguage] at hword
    exact Language.notMem_zero word hword
  | some e =>
    obtain ⟨word, hword⟩ := (hproper e rfl).exists_mem
    rw [← Expr.languageOf_some, hlanguage, h.mem_wordsFrom_start] at hword
    exact iff_of_false (Option.some_ne_none e) fun hnone => hnone ⟨word, hword⟩

/-- A closed automaton has an expression, which matches the words that the
automaton accepts and no others. There is none exactly when no word is
accepted. -/
theorem expression_matches (h : a.Closed) :
    ∃ result, a.expression = .ok result ∧
      (result = none ↔ ¬∃ word, a.accepts word = .ok true) ∧
      ∀ e, result = some e → ∀ word, word ∈ e.language ↔ a.accepts word = .ok true := by
  obtain ⟨result, hok, hlanguage, -⟩ := h.expression_spec
  refine ⟨result, hok, h.expression_eq_none_iff hok, ?_⟩
  rintro e rfl word
  rw [← h.mem_wordsFrom_start, ← hlanguage]
  rfl

theorem expression_matches_twoWays :
    twoWays.Closed ∧
      ∃ result, twoWays.expression = .ok result ∧
        (result = none ↔ ¬∃ word, twoWays.accepts word = .ok true) ∧
        ∀ e, result = some e → ∀ word, word ∈ e.language ↔ twoWays.accepts word = .ok true :=
  ⟨closed_twoWays, expression_matches closed_twoWays⟩

end Automaton

end WordPattern
