import WordPattern.Proofs.Automaton.Quotient

/-!
# Tours that match

A tour follows nothing but the successors of the blocks. If the blocks of one
partition are renamed to those of another one, different ones to different
ones, and their states have renamed successors, then the two tours run side by
side: they come to corresponding blocks in the same order, and one fails where
the other one does.
-/

namespace WordPattern

variable {α β : Type} [DecidableEq α] [DecidableEq β] {f : α → β} {x : α} {xs : List α}

/-- Renaming keeps the place of an element that is told apart from the others. -/
theorem idxOf_map_eq (h : ∀ y ∈ xs, f y = f x → y = x) :
    (xs.map f).idxOf (f x) = xs.idxOf x := by
  induction xs with
  | nil => rfl
  | cons y rest ih =>
    have hrest := ih fun z hz => h z (List.mem_cons_of_mem y hz)
    have hy := h y List.mem_cons_self
    simp only [List.map_cons, List.idxOf_cons, hrest]
    by_cases he : y = x
    · subst he
      simp
    · have hne : f y ≠ f x := fun hf => he (hy hf)
      rw [beq_eq_false_iff_ne.mpr hne, beq_eq_false_iff_ne.mpr he]

/-- What is found for the first time is the same before and after renaming. -/
theorem fresh_map_eq {found : List α}
    (h : ∀ x ∈ xs ++ found, ∀ y ∈ xs ++ found, f x = f y → x = y) :
    ((xs.map f).filter (· ∉ found.map f)).eraseDups =
      ((xs.filter (· ∉ found)).eraseDups).map f := by
  have hkeep : (xs.map f).filter (· ∉ found.map f) = (xs.filter (· ∉ found)).map f := by
    rw [List.filter_map]
    congr 1
    apply List.filter_congr
    intro x hx
    have hiff : f x ∈ found.map f ↔ x ∈ found := by
      constructor
      · intro hmem
        obtain ⟨y, hy, he⟩ := List.mem_map.mp hmem
        rwa [← h y (List.mem_append_right xs hy) x (List.mem_append_left found hx) he]
      · exact List.mem_map_of_mem
    simp only [Function.comp_apply, hiff]
  rw [hkeep]
  apply eraseDups_map_eq
  intro x hx y hy
  exact h x (List.mem_append_left found (List.mem_of_mem_filter hx)) y
    (List.mem_append_left found (List.mem_of_mem_filter hy))

/-- What is queued stays found when more is found and queued. -/
theorem append_subset_append {γ : Type} {queue found : List γ} (h : queue ⊆ found)
    (fresh : List γ) : queue ++ fresh ⊆ found ++ fresh :=
  List.append_subset.mpr
    ⟨List.subset_append_of_subset_left fresh h, List.subset_append_right found fresh⟩

namespace Automaton

variable {a b : Automaton} {p q : Partition} {φ : BlockId → BlockId} {ψ : State → State}
  {inside : Set BlockId}

/-- Blocks inside a set, which no edge leaves, are renamed to other ones, whose
states are those of the blocks with renamed successors. -/
structure Matches (a : Automaton) (p : Partition) (b : Automaton) (q : Partition)
    (φ : BlockId → BlockId) (ψ : State → State) (inside : Set BlockId) : Prop where
  /-- Different blocks are renamed to different ones. -/
  inj : ∀ i ∈ inside, ∀ j ∈ inside, φ i = φ j → i = j
  /-- No edge leaves the set. -/
  stays : ∀ id ∈ inside, ∀ state, a.blockState p id = .ok state →
    ∀ next ∈ state.successors, next ∈ inside
  /-- A block and the one that it is renamed to have corresponding states. -/
  blockState : ∀ id ∈ inside, b.blockState q (φ id) = (a.blockState p id).map ψ
  /-- Corresponding states have corresponding successors. -/
  successors : ∀ state, (ψ state).successors = state.successors.map φ

/-- Tours that begin in corresponding blocks stay in corresponding blocks. -/
theorem Matches.tourFrom (h : Matches a p b q φ ψ inside) {queue found : List BlockId}
    (hqueue : queue ⊆ found) (hfound : ∀ id ∈ found, id ∈ inside) :
    b.tourFrom q (queue.map φ) (found.map φ) =
      (a.tourFrom p queue found).map (List.map (Prod.map φ ψ)) := by
  induction queue, found using tourFrom.induct a p with
  | case1 found =>
    rw [List.map_nil, tourFrom_nil, tourFrom_nil]
    rfl
  | case2 found id queue error herror =>
    have hid := hfound id (hqueue List.mem_cons_self)
    have herror' := h.blockState id hid
    rw [herror] at herror'
    rw [List.map_cons, tourFrom_of_error herror, tourFrom_of_error herror']
    rfl
  | case3 found id queue state hstate ih =>
    obtain ⟨hmem, hrest⟩ := List.cons_subset.mp hqueue
    have hid := hfound id hmem
    have hstate' := h.blockState id hid
    rw [hstate] at hstate'
    have hnext := h.stays id hid state hstate
    have hin : ∀ next ∈ state.successors ++ found, next ∈ inside :=
      List.forall_mem_append.mpr ⟨hnext, hfound⟩
    let fresh := (state.successors.filter (· ∉ found)).eraseDups
    have hfresh : ∀ next ∈ fresh, next ∈ inside := fun next hmem =>
      hnext next (mem_fresh.mp hmem).1
    have hmap : (((ψ state).successors.filter (· ∉ found.map φ)).eraseDups) = fresh.map φ := by
      rw [h.successors]
      exact fresh_map_eq fun i hi j hj => h.inj i (hin i hi) j (hin j hj)
    -- What comes later is found from the queue and the blocks found so far, both renamed.
    have hlater := ih (append_subset_append hrest fresh)
      (List.forall_mem_append.mpr ⟨hfound, hfresh⟩)
    rw [List.map_cons, tourFrom_of_ok hstate hmem,
      tourFrom_of_ok hstate' (List.mem_map_of_mem hmem), hmap, ← List.map_append, ← List.map_append, hlater]
    cases a.tourFrom p (queue ++ fresh) (found ++ fresh) <;> rfl

/-- If the starts are in corresponding blocks, the tours match. -/
theorem Matches.tour (h : Matches a p b q φ ψ inside)
    (hstart : q.blockOf start = (p.blockOf start).map φ)
    (hinside : ∀ id, p.blockOf start = some id → id ∈ inside) :
    b.tour q = (a.tour p).map (List.map (Prod.map φ ψ)) := by
  have hfirst : ∀ id ∈ (p.blockOf start).toList, id ∈ inside := fun id hid =>
    hinside id (Option.mem_toList.mp hid)
  rw [Automaton.tour, Automaton.tour, ← h.tourFrom (List.Subset.refl _) hfirst, hstart]
  cases p.blockOf start <;> rfl

/-- A quotient is made of what the tour lists. -/
theorem quotient_eq (a : Automaton) (p : Partition) : a.quotient p = (a.tour p).map ofBlocks := by
  rw [quotient]
  cases a.tour p <;> rfl

end Automaton

end WordPattern
