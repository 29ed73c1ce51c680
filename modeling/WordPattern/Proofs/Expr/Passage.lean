import WordPattern.Proofs.Automaton.Preorder
import WordPattern.Proofs.Expr.Elimination

/-!
# What the equations say while they are solved

A passage is a run up to a goal that has only certain states on the way. The
equation of a state describes the passages without states on the way, and with
each unknown that is eliminated one more state is allowed there. So at every
stage the coefficient of an unknown is exactly what may be read on the way to it
through the states that are eliminated already, and the constant what may be read
on the way to the end of a word. In an order in which a traversal comes to the
states, a passage that goes ahead and comes back can be replaced by one that
begins with another letter.
-/

namespace WordPattern

open Computability

namespace Automaton

variable {a : Automaton} {through wider : List StateId} {p q k : StateId} {word u v : Word}
  {goal : Option StateId}

/-- A word leads from a state up to a goal, another state or the end of the word,
and only listed states are on the way. -/
inductive Passes (a : Automaton) (through : List StateId) :
    StateId → Word → Option StateId → Prop where
  /-- The word may end here. -/
  | accept {p : StateId} (h : a.isAccepting p = true) : Passes a through p [] none
  /-- An edge leads to the goal. -/
  | edge {p q : StateId} {letter : Char} (h : a.target? p letter = some q) :
    Passes a through p [letter] (some q)
  /-- An edge leads to a listed state, and the way goes on from there. -/
  | step {p q : StateId} {letter : Char} {rest : Word} {goal : Option StateId}
    (h : a.target? p letter = some q) (hq : q ∈ through) (hrest : Passes a through q rest goal) :
    Passes a through p (letter :: rest) goal

/-- The words that lead from a state up to a goal with only listed states on the
way. -/
def passages (a : Automaton) (through : List StateId) (p : StateId) (goal : Option StateId) :
    Language Char :=
  {word | a.Passes through p word goal}

theorem mem_passages : word ∈ a.passages through p goal ↔ a.Passes through p word goal := Iff.rfl

theorem Passes.mono (h : a.Passes through p word goal) (hsub : through ⊆ wider) :
    a.Passes wider p word goal := by
  induction h with
  | accept h => exact .accept h
  | edge h => exact .edge h
  | step h hq _ ih => exact .step h (hsub hq) ih

/-- Passages are put together at a listed state. -/
theorem Passes.append (h : a.Passes through p u (some k)) (hk : k ∈ through)
    (h' : a.Passes through k v goal) : a.Passes through p (u ++ v) goal := by
  generalize hgoal : some k = mid at h
  induction h with
  | accept => cases hgoal
  | edge h =>
    cases hgoal
    exact .step h hk h'
  | step h hq _ ih => exact .step h hq (ih hgoal)

/-- Only the end of the word can be reached without a letter. -/
theorem nil_notMem_passages (through : List StateId) (p k : StateId) :
    [] ∉ a.passages through p (some k) := nofun

/-- A passage begins with an edge, which leads to the goal or to a listed state. -/
theorem passes_cons {letter : Char} : a.Passes through p (letter :: word) goal ↔
    ∃ q, a.target? p letter = some q ∧
      ((word = [] ∧ goal = some q) ∨ (q ∈ through ∧ a.Passes through q word goal)) := by
  constructor
  · intro h
    cases h with
    | edge h => exact ⟨_, h, Or.inl ⟨rfl, rfl⟩⟩
    | step h hq hrest => exact ⟨_, h, Or.inr ⟨hq, hrest⟩⟩
  · rintro ⟨q, h, ⟨rfl, rfl⟩ | ⟨hq, hrest⟩⟩
    · exact .edge h
    · exact .step h hq hrest

/-- A passage on which one more state is allowed comes by that state for a first
time, if it does so at all. -/
theorem passages_cons (a : Automaton) (k : StateId) (through : List StateId) (p : StateId)
    (goal : Option StateId) :
    a.passages (k :: through) p goal = a.passages through p goal +
      a.passages through p (some k) * a.passages (k :: through) k goal := by
  have hsub : through ⊆ k :: through := List.subset_cons_self k through
  ext word
  rw [Language.mem_add, Language.mem_mul]
  simp only [mem_passages]
  constructor
  · intro h
    induction h with
    | accept h => exact Or.inl (.accept h)
    | edge h => exact Or.inl (.edge h)
    | @step p q letter rest goal h hq hrest ih =>
      rcases List.mem_cons.mp hq with rfl | hq
      · exact Or.inr ⟨[letter], .edge h, rest, hrest, rfl⟩
      · rcases ih with hold | ⟨u, hu, v, hv, rfl⟩
        · exact Or.inl (.step h hq hold)
        · exact Or.inr ⟨letter :: u, .step h hq hu, v, hv, rfl⟩
  · rintro (hold | ⟨u, hu, v, hv, rfl⟩)
    · exact hold.mono hsub
    · exact (hu.mono hsub).append List.mem_cons_self hv

/-- A passage from the state that is newly allowed comes back to it any number of
times. -/
theorem passages_self (a : Automaton) (k : StateId) (through : List StateId)
    (goal : Option StateId) :
    a.passages (k :: through) k goal =
      (a.passages through k (some k))∗ * a.passages through k goal := by
  have hrounds := a.passages_cons k through k goal
  rw [add_comm] at hrounds
  exact (Language.self_eq_mul_add_iff (nil_notMem_passages through k k)).mp hrounds

/-- A passage to a state is a way within the states on the way and that state. -/
theorem Passes.leads (h : a.Passes through p word (some k)) : a.Leads (k :: through) p k := by
  generalize hgoal : some k = goal at h
  induction h with
  | accept => cases hgoal
  | edge h =>
    cases hgoal
    exact .single ⟨List.mem_cons_self, mem_successors.mpr ⟨_, h⟩⟩
  | step h hq _ ih =>
    exact .head ⟨List.mem_cons_of_mem _ hq, mem_successors.mpr ⟨_, h⟩⟩ (ih hgoal)

/-- An edge to a listed state and a way from there make a passage. -/
theorem Leads.passes {letter : Char} (h : a.Leads through q k)
    (hedge : a.target? p letter = some q) (hq : q ∈ through) :
    ∃ rest, a.Passes through p (letter :: rest) (some k) := by
  induction h using Relation.ReflTransGen.head_induction_on generalizing p letter with
  | refl => exact ⟨[], .edge hedge⟩
  | head hnext _ ih =>
    obtain ⟨after, hafter⟩ := mem_successors.mp hnext.2
    obtain ⟨rest, hrest⟩ := ih hafter hnext.1
    exact ⟨after :: rest, .step hedge hq hrest⟩

/-- If a passage leads from a state to one that is listed behind it by states that
are listed still further behind, another one begins with a different letter. -/
theorem Closed.passes_detour (h : a.Closed) {before between behind : List StateId}
    {letter : Char} (hok : a.preorder = .ok (before ++ p :: (between ++ k :: behind)))
    (hpasses : a.Passes behind p (letter :: word) (some k)) (hword : word ≠ []) :
    ∃ other rest, other ≠ letter ∧
      a.Passes (between ++ k :: behind) p (other :: rest) (some k) := by
  obtain ⟨q, hedge, ⟨hnil, -⟩ | ⟨hq, hrest⟩⟩ := passes_cons.mp hpasses
  · exact absurd hnil hword
  · obtain ⟨first, hfirst, hearly, hleads⟩ :=
      h.preorder_detour hok (mem_successors.mpr ⟨_, hedge⟩) hq hrest.leads
    obtain ⟨other, hother⟩ := mem_successors.mp hfirst
    have hin : first ∈ between ++ k :: behind := by
      rw [List.append_cons]
      exact List.mem_append_left _ hearly
    obtain ⟨rest, hpasses'⟩ := hleads.passes hother hin
    refine ⟨other, rest, ?_, hpasses'⟩
    rintro rfl
    -- The two edges would be the same one, but their targets are listed apart.
    obtain rfl := Option.some.inj (hother.symm.trans hedge)
    obtain ⟨order, hok', hnodup, -⟩ := h.preorder_spec
    obtain rfl := Except.ok.inj (hok.symm.trans hok')
    have hlist := (List.nodup_append.mp hnodup).2.1
    rw [List.append_cons between k behind] at hlist
    exact (List.nodup_append.mp (List.nodup_cons.mp hlist).2).2.2 first hearly first hq rfl

end Automaton

namespace Equation

variable {a : Automaton} {back : List StateId} {e solved : Equation} {goal : Option StateId}
  {table : Table StateId Expr} {word : Word}

/-- What merged terms match under a key is what the table and the terms match
there. -/
theorem mem_find?_foldl_merge {α : Type} {items : List α} {key : α → StateId} {f : α → Expr}
    {id : StateId} :
    word ∈ Expr.languageOf ((items.foldl (fun terms item =>
        terms.merge Expr.union (key item) (f item)) table).find? id) ↔
      word ∈ Expr.languageOf (table.find? id) ∨
        ∃ item ∈ items, key item = id ∧ word ∈ (f item).language := by
  induction items generalizing table with
  | nil => simp
  | cons item rest ih =>
    have hmerge : word ∈ Expr.languageOf ((table.merge Expr.union (key item) (f item)).find? id) ↔
        word ∈ Expr.languageOf (table.find? id) ∨
          key item = id ∧ word ∈ (f item).language := by
      rw [Table.find?_merge]
      by_cases hid : id = key item
      · rw [if_pos hid, ← hid]
        cases hfind : table.find? id with
        | none => simp
        | some old =>
          rw [Option.elim, Expr.languageOf_some, Expr.languageOf_some, Expr.language_union,
            Language.mem_add, eq_self, true_and]
      · simp [if_neg hid, Ne.symm hid]
    rw [List.foldl_cons, ih, hmerge, or_assoc]
    simp only [List.mem_cons, exists_eq_or_imp]

/-- At a stage of the solution, nothing leads up to an unknown that has been
eliminated, and what leads up to any other goal are the passages through states
whose unknowns have been eliminated. -/
structure Describes (a : Automaton) (back : List StateId) (e : Equation) : Prop where
  /-- Eliminated unknowns are no goals. -/
  absent : ∀ id ∈ back, e.upTo? (some id) = none
  /-- The ways to a goal are the passages to it. -/
  language : ∀ goal, (∀ id ∈ back, goal ≠ some id) →
    Expr.languageOf (e.upTo? goal) = a.passages back e.unknown goal

/-- What a way matches are passages. -/
theorem Describes.language_eq (h : e.Describes a back) {x : Expr} (hx : e.upTo? goal = some x) :
    x.language = a.passages back e.unknown goal := by
  have hgoal : ∀ id ∈ back, goal ≠ some id := by
    rintro id hid rfl
    rw [h.absent id hid] at hx
    cases hx
  have hlanguage := h.language goal hgoal
  rwa [hx] at hlanguage

/-- The equation of a state describes what can be done in one step. -/
theorem describes_ofState (a : Automaton) (p : StateId) :
    (ofState p (a.stateAt p)).Describes a [] where
  absent := nofun
  language := by
    intro goal _
    ext word
    rw [Automaton.mem_passages]
    cases goal with
    | none =>
      rw [upTo?, mem_constant]
      constructor
      · rintro ⟨haccepting, rfl⟩
        exact .accept haccepting
      · intro h
        cases h with
        | accept h => exact ⟨h, rfl⟩
        | step _ hq _ => cases hq
    | some q =>
      have hedge : ∀ {edge : Char × StateId}, edge ∈ (a.stateAt p).edges.entries ↔
          a.target? p edge.1 = some edge.2 := by
        intro edge
        rw [Automaton.target?_eq, Table.find?_eq_some_iff]
      rw [upTo?, ofState, mem_find?_foldl_merge, Table.find?_empty, Expr.languageOf_none,
        or_iff_right (Language.notMem_zero word)]
      constructor
      · rintro ⟨edge, hmem, rfl, hword⟩
        rw [Expr.mem_literal.mp hword]
        exact .edge (hedge.mp hmem)
      · intro h
        cases h with
        | @edge _ _ letter h => exact ⟨(letter, q), hedge.mpr h, rfl, Expr.mem_literal.mpr rfl⟩
        | step _ hq _ => cases hq

/-- Solving an equation for its unknown allows this state on the way. -/
theorem Describes.solveLoop (h : e.Describes a back) (hfresh : e.unknown ∉ back) :
    e.solveLoop.Describes a (e.unknown :: back) where
  absent := by
    intro id hid
    rcases List.mem_cons.mp hid with rfl | hid
    · exact upTo?_solveLoop_self e
    · cases hloop : e.upTo? (some e.unknown) with
      | none => rw [solveLoop_of_none hloop, h.absent id hid]
      | some loop => rw [upTo?_solveLoop hloop, h.absent id hid, Option.map_none, ite_self]
  language := by
    intro goal hgoal
    obtain ⟨hne, hback⟩ := List.forall_mem_cons.mp hgoal
    have hself : ∀ id ∈ back, some e.unknown ≠ some id := by
      rintro id hid he
      exact hfresh (Option.some.inj he ▸ hid)
    rw [unknown_solveLoop, Automaton.passages_self, ← h.language _ hself, ← h.language _ hback]
    cases hloop : e.upTo? (some e.unknown) with
    | none => rw [solveLoop_of_none hloop, Expr.languageOf_none, kstar_zero, one_mul]
    | some loop =>
      rw [upTo?_solveLoop hloop, if_neg hne, languageOf_map_append, Expr.language_star,
        Expr.languageOf_some]

/-- Putting an equation into another one allows its state on the way. -/
theorem Describes.substitute (hs : solved.Describes a (solved.unknown :: back))
    (h : e.Describes a back) (hfresh : solved.unknown ∉ back) :
    (solved.substitute e).Describes a (solved.unknown :: back) where
  absent := by
    intro id hid
    have hnone : (if some id = some solved.unknown then none else e.upTo? (some id)) = none := by
      rcases List.mem_cons.mp hid with rfl | hid
      · exact if_pos rfl
      · rw [h.absent id hid, ite_self]
    cases hcoefficient : e.upTo? (some solved.unknown) with
    | none =>
      rw [substitute_of_none hcoefficient]
      rcases List.mem_cons.mp hid with rfl | hid
      · exact hcoefficient
      · exact h.absent id hid
    | some c =>
      rw [upTo?_substitute hcoefficient, hnone, hs.absent id hid]
      rfl
  language := by
    intro goal hgoal
    obtain ⟨hne, hback⟩ := List.forall_mem_cons.mp hgoal
    have hself : ∀ id ∈ back, some solved.unknown ≠ some id := by
      rintro id hid he
      exact hfresh (Option.some.inj he ▸ hid)
    rw [unknown_substitute, Automaton.passages_cons, ← h.language _ hself, ← h.language _ hback,
      ← hs.language goal hgoal]
    cases hcoefficient : e.upTo? (some solved.unknown) with
    | none => rw [substitute_of_none hcoefficient, Expr.languageOf_none, zero_mul, add_zero]
    | some c =>
      rw [upTo?_substitute hcoefficient, if_neg hne, Expr.languageOf_union?, languageOf_map_append,
        Expr.languageOf_some]

end Equation

end WordPattern
