import WordPattern.Proofs.Expr.Determinism

/-!
# Equations by their goals

A run that an equation describes goes up to another unknown or up to the end of
the word. What may be read on the way is a coefficient or the constant; here
both are one partial function of the goal, and each step of the solution is put
in terms of it. In a deterministic equation what is read up to one goal and what
is read up to another one never get in each other's way.
-/

namespace WordPattern.Equation

variable {e solved : Equation} {goal : Option StateId} {id : StateId} {x y loop c : Expr}

/-- What may be read up to a goal, which is an unknown, or the end of the word if
there is no goal. -/
def upTo? (e : Equation) : Option StateId → Option Expr
  | none => e.constant
  | some id => e.terms.find? id

/-- An equation without its own unknown is solved already. -/
theorem solveLoop_of_none (h : e.upTo? (some e.unknown) = none) : e.solveLoop = e := by
  rw [upTo?] at h
  rw [solveLoop, h]

/-- Solving an equation puts the loop in front of every way to another goal. -/
theorem upTo?_solveLoop (h : e.upTo? (some e.unknown) = some loop) (goal : Option StateId) :
    e.solveLoop.upTo? goal =
      if goal = some e.unknown then none else (e.upTo? goal).map loop.star.append := by
  rw [upTo?] at h
  rw [solveLoop, h]
  cases goal with
  | none => rfl
  | some id =>
    simp only [upTo?, Table.find?_map, Table.find?_erase, Option.some.injEq]
    split <;> rfl

/-- Once an equation is solved its own unknown is no goal. -/
theorem upTo?_solveLoop_self (e : Equation) : e.solveLoop.upTo? (some e.unknown) = none := by
  cases h : e.upTo? (some e.unknown) with
  | none => rw [solveLoop_of_none h, h]
  | some loop => rw [upTo?_solveLoop h, if_pos rfl]

/-- Nothing is put into an equation without the solved unknown. -/
theorem substitute_of_none (h : e.upTo? (some solved.unknown) = none) :
    solved.substitute e = e := by
  rw [upTo?] at h
  rw [substitute, h]

/-- Putting a solved equation into another one replaces the way to its unknown by
that way followed by each of its own. -/
theorem upTo?_substitute (h : e.upTo? (some solved.unknown) = some c) (goal : Option StateId) :
    (solved.substitute e).upTo? goal =
      Expr.union? (if goal = some solved.unknown then none else e.upTo? goal)
        ((solved.upTo? goal).map c.append) := by
  rw [upTo?] at h
  rw [substitute, h]
  cases goal with
  | none => rfl
  | some id =>
    simp only [upTo?, Table.find?_foldl_merge, Table.find?_erase, Option.some.injEq]
    rfl

/-- What holds of every way of the two equations, each with its goal, holds of
every way after one is put into the other, if joining two ways and putting one
after another keep it. -/
theorem forall_upTo?_substitute {P : Option StateId → Expr → Prop}
    (he : ∀ goal x, e.upTo? goal = some x → P goal x)
    (happend : ∀ {goal c y}, e.upTo? (some solved.unknown) = some c → solved.upTo? goal = some y →
      P goal (c.append y))
    (hunion : ∀ {goal c x y}, e.upTo? (some solved.unknown) = some c → e.upTo? goal = some x →
      solved.upTo? goal = some y → goal ≠ some solved.unknown → P goal x → P goal (c.append y) →
      P goal (x.union (c.append y))) :
    ∀ goal x, (solved.substitute e).upTo? goal = some x → P goal x := by
  intro goal
  cases hcoefficient : e.upTo? (some solved.unknown) with
  | none =>
    rw [substitute_of_none hcoefficient]
    exact he goal
  | some c =>
    rw [upTo?_substitute hcoefficient]
    refine Expr.forall_union? (fun x hx => ?_) (fun z hz => ?_) fun hx hz hPx hPz => ?_
    · exact he goal x (Option.ite_none_left_eq_some.mp hx).2
    · obtain ⟨y, hy, rfl⟩ := Option.map_eq_some_iff.mp hz
      exact happend hcoefficient hy
    · obtain ⟨y, hy, rfl⟩ := Option.map_eq_some_iff.mp hz
      obtain ⟨hne, hx⟩ := Option.ite_none_left_eq_some.mp hx
      exact hunion hcoefficient hx hy hne hPx hPz

/-- What holds of every way of an equation, each with its goal, holds of every way
after the equation is solved, if putting its loop in front keeps it. -/
theorem forall_upTo?_solveLoop {P : Option StateId → Expr → Prop}
    (he : ∀ goal x, e.upTo? goal = some x → P goal x)
    (happend : ∀ {goal loop x}, e.upTo? (some e.unknown) = some loop → e.upTo? goal = some x →
      goal ≠ some e.unknown → P goal (loop.star.append x)) :
    ∀ goal x, e.solveLoop.upTo? goal = some x → P goal x := by
  intro goal z hz
  cases hloop : e.upTo? (some e.unknown) with
  | none =>
    rw [solveLoop_of_none hloop] at hz
    exact he goal z hz
  | some loop =>
    rw [upTo?_solveLoop hloop, Option.ite_none_left_eq_some] at hz
    obtain ⟨hne, hz⟩ := hz
    obtain ⟨x, hx, rfl⟩ := Option.map_eq_some_iff.mp hz
    exact happend hloop hx hne

/-- What is read up to an unknown is a way out. -/
theorem Deterministic.exit (h : e.Deterministic) (hx : e.upTo? (some id) = some x) : Exit x :=
  h.terms.exit x (List.mem_map.mpr ⟨_, Table.find?_eq_some_iff.mp hx, rfl⟩)

/-- What is read up to a goal leaves no choice open. -/
theorem Deterministic.unambiguous (h : e.Deterministic) (hx : e.upTo? goal = some x) :
    x.Unambiguous := by
  cases goal with
  | none => exact h.constant x hx
  | some id => exact (h.exit hx).unambiguous

/-- What is read up to an unknown never begins what is read up to another goal. -/
theorem Deterministic.neverBegins (h : e.Deterministic) (hx : e.upTo? (some id) = some x)
    (hy : e.upTo? goal = some y) (hne : goal ≠ some id) : NeverBegins x.language y.language := by
  cases goal with
  | none =>
    have hends := h.ends _ (Table.find?_eq_some_iff.mp hx)
    rw [upTo?] at hy
    rwa [hy] at hends
  | some other =>
    obtain ⟨-, hexclude, -⟩ := exclusive_cons.mp (h.terms.cons_erase hx)
    have hmem : (other, y) ∈ (e.terms.erase id).entries :=
      mem_entries_erase.mpr ⟨Table.find?_eq_some_iff.mp hy, fun he => hne (congrArg some he)⟩
    exact (hexclude y (List.mem_map.mpr ⟨_, hmem, rfl⟩)).1

/-- The ways that are joined when an equation is put into another one share no
word. -/
theorem Deterministic.apart_append (h : e.Deterministic) (hc : e.upTo? (some id) = some c)
    (hx : e.upTo? goal = some x) (hne : goal ≠ some id) (y : Expr) :
    Apart x.language (c.append y).language := by
  rw [Expr.language_append]
  exact ((h.neverBegins hc hx hne).mul_left y.language).apart.symm

end WordPattern.Equation
