import WordPattern.Proofs.Automaton.Dangling
import WordPattern.Proofs.Automaton.Minimal
import WordPattern.Proofs.Automaton.Tour
import WordPattern.Proofs.Expr.Solution

/-!
# States that no run comes to

What is done with an automaton depends on its number of states and on the states
that runs come to. If another automaton has as many states and those same ones,
acceptance, the traversal, the minimal automaton and the expression are the same,
failures included. So an edge of a state that no run comes to may be set to
whatever target without any effect.
-/

namespace WordPattern.Automaton

variable {a b : Automaton} {p q : StateId}

/-- Where the traversal runs through, the expression solves the equations of the
listed states, last one first. -/
theorem expression_of_preorder {order : List StateId} (hok : a.preorder = .ok order) :
    a.expression =
      .ok (Equation.solve (order.reverse.map fun id => Equation.ofState id (a.stateAt id))) := by
  obtain ⟨listed, hlisted, -, hresult⟩ := (closed_of_preorder hok).1.expression_eq
  obtain rfl := Except.ok.inj (hok.symm.trans hlisted)
  exact hresult

/-- The second automaton has as many states as the first one, and the same ones
where runs of the first one come to. -/
structure Coincides (a b : Automaton) : Prop where
  /-- There are as many states. -/
  size : b.numStates = a.numStates
  /-- The states that runs come to are the same. -/
  states : ∀ {p}, a.Reachable p → b.states[p]? = a.states[p]?

namespace Coincides

variable (h : a.Coincides b)

include h

theorem state (hp : a.Reachable p) : b.state p = a.state p := by
  rw [Automaton.state, Automaton.state, h.states hp]

theorem stateAt (hp : a.Reachable p) : b.stateAt p = a.stateAt p := by
  rw [Automaton.stateAt, Automaton.stateAt, h.states hp]

/-- Words have the same outcome from every state that runs come to. -/
theorem acceptsFrom (hp : a.Reachable p) (word : Word) :
    b.acceptsFrom p word = a.acceptsFrom p word := by
  induction word generalizing p with
  | nil => rw [Automaton.acceptsFrom, Automaton.acceptsFrom, h.state hp]
  | cons letter rest ih =>
    rw [Automaton.acceptsFrom, Automaton.acceptsFrom, follow, follow, h.state hp]
    cases hstate : a.state p with
    | error e => rfl
    | ok state =>
      simp only [bind, Except.bind, pure, Except.pure]
      cases hedge : state.edges.find? letter with
      | none => rfl
      | some next =>
        have htarget : a.target? p letter = some next := by
          rw [target?_eq, stateAt_eq hstate, hedge]
        exact ih (hp.edge htarget)

/-- Traversals of states that runs come to are the same. -/
theorem preorderFrom {unseen stack : List StateId} (hstack : ∀ id ∈ stack, a.Reachable id) :
    b.preorderFrom unseen stack = a.preorderFrom unseen stack := by
  induction unseen, stack using preorderFrom.induct a with
  | case1 unseen => rw [Automaton.preorderFrom, Automaton.preorderFrom]
  | case2 unseen id below hid ih =>
    obtain ⟨hreach, hbelow⟩ := List.forall_mem_cons.mp hstack
    rw [Automaton.preorderFrom, Automaton.preorderFrom, dif_pos hid, dif_pos hid, h.state hreach]
    cases hstate : a.state id with
    | error e => rfl
    | ok state =>
      have hsucc : ∀ next ∈ state.successors, a.Reachable next := by
        rw [← stateAt_eq hstate]
        exact hreach.successors
      simp only [bind, Except.bind, ih state (List.forall_mem_append.mpr ⟨hsucc, hbelow⟩)]
  | case3 unseen id below hid hlt ih =>
    rw [preorderFrom_of_notMem hid hlt, preorderFrom_of_notMem hid (h.size.symm ▸ hlt)]
    exact ih (List.forall_mem_cons.mp hstack).2
  | case4 unseen id below hid hlt =>
    rw [Automaton.preorderFrom, Automaton.preorderFrom, dif_neg hid, dif_neg hid, if_neg hlt,
      if_neg (h.size.symm ▸ hlt)]

/-- The traversals are the same. -/
theorem preorder : b.preorder = a.preorder := by
  rw [Automaton.preorder, Automaton.preorder, h.size]
  exact h.preorderFrom (List.forall_mem_singleton.mpr .start)

/-- Refinements of states that runs come to are the same. -/
theorem refined {ids : List StateId} (hids : ∀ id ∈ ids, a.Reachable id) :
    Partition.refined b ids = Partition.refined a ids := by
  have hincoming : Incoming.ofStates b ids = Incoming.ofStates a ids := by
    rw [Incoming.ofStates, Incoming.ofStates, h.size]
    refine foldlM_congr (fun id hid incoming => ?_) _
    rw [Incoming.addState, Incoming.addState, h.state (hids id hid)]
  have hmarked : ids.mapM (fun id => do return (id, (← b.state id).accepting)) =
      ids.mapM fun id => (do return (id, (← a.state id).accepting) : Except Error _) :=
    mapM_congr fun id hid => by rw [h.state (hids id hid)]
  rw [Partition.refined, Partition.refined, hincoming, Refinement.start, Refinement.start, hmarked,
    h.size]

/-- Quotients by a partition of states that runs come to are the same. -/
theorem quotient (r : Partition) (hr : ∀ {id s}, s ∈ r.blockAt id → a.Reachable s) :
    b.quotient r = a.quotient r := by
  have hblock : ∀ block, b.blockState r block = a.blockState r block := by
    intro block
    rw [Automaton.blockState, Automaton.blockState]
    cases hget : r.get block with
    | error e => rfl
    | ok states =>
      obtain rfl := Partition.blockAt_eq_of_get hget
      simp only [bind, Except.bind]
      cases hleast : (r.blockAt block).least? with
      | none => rfl
      | some lowest => simp only [h.state (hr (IdSet.mem_of_least? hleast))]
  have hmatches : Matches a r b r id id Set.univ :=
    { inj := fun _ _ _ _ he => he
      stays := fun _ _ _ _ next _ => Set.mem_univ next
      blockState := fun block _ => by rw [Except.map_id, id_eq, id_eq, hblock block]
      successors := fun state => (List.map_id state.successors).symm }
  have hstart : r.blockOf start = (r.blockOf start).map id := by
    rw [Option.map_id, id_eq]
  have htour := hmatches.tour hstart fun block _ => Set.mem_univ block
  rw [quotient_eq, quotient_eq, htour]
  simp [Except.map_id]

/-- The minimal automata are the same. -/
theorem minimal : b.minimal = a.minimal := by
  rw [Automaton.minimal, Automaton.minimal, h.preorder]
  cases hok : a.preorder with
  | error e => rfl
  | ok order =>
    obtain ⟨hclosed, -⟩ := closed_of_preorder hok
    obtain ⟨ids, -, last, hids, hreach, -, -, hinv, hrefined⟩ := hclosed.refined_spec
    obtain rfl := Except.ok.inj (hids.symm.trans hok)
    have hquotient := h.quotient last.partition fun hs =>
      (hreach _).mp (hinv.coherent.mem_ids hs)
    simp only [bind, Except.bind, h.refined fun id hid => (hreach id).mp hid, hrefined, hquotient]

/-- The expressions are the same. -/
theorem expression : b.expression = a.expression := by
  cases hok : a.preorder with
  | error e =>
    rw [Automaton.expression, Automaton.expression, h.preorder, hok]
    rfl
  | ok order =>
    obtain ⟨-, hreach⟩ := closed_of_preorder hok
    have hequations : order.reverse.map (fun id => Equation.ofState id (b.stateAt id)) =
        order.reverse.map fun id => Equation.ofState id (a.stateAt id) := by
      apply List.map_congr_left
      intro id hid
      rw [h.stateAt ((hreach id).mp (List.mem_reverse.mp hid))]
    rw [expression_of_preorder hok, expression_of_preorder (h.preorder.trans hok), hequations]

end Coincides

/-- Changing a state that no run comes to leaves the others as they are. -/
theorem coincides_of_edit? {f : State → State} (hp : ¬a.Reachable p) (hok : a.edit? p f = .ok b) :
    a.Coincides b where
  size := numStates_of_edit? hok
  states := by
    intro q hq
    have hne : p ≠ q := fun he => hp (he ▸ hq)
    rw [edit?] at hok
    split at hok
    · cases hok
      rw [edit, Array.getElem?_modify, if_neg hne]
    · cases hok

end WordPattern.Automaton
