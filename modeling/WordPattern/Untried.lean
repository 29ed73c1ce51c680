/-!
# What a search has left to try

A search over finitely many items ends because every item that it comes to for
the first time leaves fewer that are untried.
-/

namespace WordPattern

variable {α : Type} [DecidableEq α] {items seen more : List α}

/-- The items that were not seen. -/
def untried (items seen : List α) : List α := items.filter (· ∉ seen)

/-- Seeing more leaves no more to try. -/
theorem length_untried_le (h : seen ⊆ more) :
    (untried items more).length ≤ (untried items seen).length := by
  simp only [untried, ← List.countP_eq_length_filter]
  refine List.countP_mono_left fun x _ hx => ?_
  simp only [decide_eq_true_eq] at hx ⊢
  exact fun hseen => hx (h hseen)

/-- Seeing an item for the first time leaves less to try. -/
theorem length_untried_lt (h : seen ⊆ more) {x : α} (hx : x ∈ items) (hnew : x ∉ seen)
    (hmore : x ∈ more) : (untried items more).length < (untried items seen).length := by
  obtain ⟨before, after, rfl⟩ := List.append_of_mem hx
  have hbefore : (untried before more).length ≤ (untried before seen).length := length_untried_le h
  have hafter : (untried after more).length ≤ (untried after seen).length := length_untried_le h
  simp only [untried, List.filter_append, List.length_append] at hbefore hafter ⊢
  rw [List.filter_cons_of_neg (by simpa using hmore), List.filter_cons_of_pos (by simpa using hnew),
    List.length_cons]
  omega

end WordPattern
