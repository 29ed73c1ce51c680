import Mathlib.Data.List.Nodup
import WordPattern.Partition.Worklist

/-!
# The worklist as a queue

Front and back together are one queue, and the set beside it holds what the
queue holds. Adding a block appends it unless it waits, and taking one takes
the head; both keep queue and set in step.
-/

namespace WordPattern.Worklist

variable {w : Worklist} {id : BlockId}

/-- The blocks that wait, in the order in which they will be taken. -/
def queue (w : Worklist) : List BlockId := w.front ++ w.back.reverse

/-- No block waits twice, and the set holds exactly the blocks of the queue. -/
structure Consistent (w : Worklist) : Prop where
  /-- No block waits twice. -/
  nodup : w.queue.Nodup
  /-- The set and the queue have the same members. -/
  mem_waiting : ∀ {id}, id ∈ w.waiting ↔ id ∈ w.queue

@[simp] theorem queue_empty : empty.queue = [] := rfl

theorem consistent_empty : empty.Consistent := ⟨List.nodup_nil, Iff.rfl⟩

/-- A block waits exactly when it is in the queue. -/
theorem Consistent.contains_iff (h : w.Consistent) : w.contains id = true ↔ id ∈ w.queue := by
  rw [contains, decide_eq_true_eq]
  exact h.mem_waiting

/-- A block that waits is not added again, any other comes last. -/
theorem Consistent.queue_push (h : w.Consistent) (id : BlockId) :
    (w.push id).queue = if id ∈ w.queue then w.queue else w.queue ++ [id] := by
  by_cases hid : id ∈ w.queue
  · rw [if_pos hid, push, if_pos (h.mem_waiting.mpr hid)]
  · rw [if_neg hid, push, if_neg fun hw => hid (h.mem_waiting.mp hw)]
    simp [queue]

/-- Adding a block keeps queue and set in step. -/
theorem Consistent.push (h : w.Consistent) (id : BlockId) : (w.push id).Consistent := by
  have hqueue := h.queue_push id
  by_cases hid : id ∈ w.queue
  · rw [Worklist.push, if_pos (h.mem_waiting.mpr hid)]
    exact h
  · rw [if_neg hid] at hqueue
    refine ⟨?_, ?_⟩
    · rw [hqueue, List.nodup_append]
      refine ⟨h.nodup, List.nodup_singleton id, ?_⟩
      intro first hfirst last hlast
      rw [List.mem_singleton.mp hlast]
      exact fun he => hid (he ▸ hfirst)
    · intro other
      rw [hqueue, Worklist.push, if_neg fun hw => hid (h.mem_waiting.mp hw), IdSet.mem_insert,
        h.mem_waiting, List.mem_append, List.mem_singleton, or_comm]

/-- Nothing can be taken exactly when the queue is empty. -/
theorem pop?_eq_none_iff : w.pop? = none ↔ w.queue = [] := by
  cases hf : w.front with
  | cons first front => simp [pop?, queue, hf]
  | nil =>
    cases hb : w.back.reverse with
    | nil => simp [pop?, queue, hf, hb]
    | cons first front => simp [pop?, queue, hf, hb]

/-- What is taken is the head of the queue, and its tail stays. -/
theorem queue_eq_cons_of_pop? {rest : Worklist} (h : w.pop? = some (id, rest)) :
    w.queue = id :: rest.queue := by
  cases hf : w.front with
  | cons first front =>
    simp only [pop?, hf, Option.some.injEq, Prod.mk.injEq] at h
    obtain ⟨rfl, rfl⟩ := h
    simp [queue, hf]
  | nil =>
    cases hb : w.back.reverse with
    | nil => simp [pop?, hf, hb] at h
    | cons first front =>
      simp only [pop?, hf, hb, Option.some.injEq, Prod.mk.injEq] at h
      obtain ⟨rfl, rfl⟩ := h
      simp [queue, hf, hb]

/-- What is taken no longer waits. -/
theorem waiting_of_pop? {rest : Worklist} (h : w.pop? = some (id, rest)) :
    rest.waiting = w.waiting.erase id := by
  cases hf : w.front with
  | cons first front =>
    simp only [pop?, hf, Option.some.injEq, Prod.mk.injEq] at h
    obtain ⟨rfl, rfl⟩ := h
    rfl
  | nil =>
    cases hb : w.back.reverse with
    | nil => simp [pop?, hf, hb] at h
    | cons first front =>
      simp only [pop?, hf, hb, Option.some.injEq, Prod.mk.injEq] at h
      obtain ⟨rfl, rfl⟩ := h
      rfl

/-- Taking a block keeps queue and set in step. -/
theorem Consistent.pop (h : w.Consistent) {rest : Worklist} (hpop : w.pop? = some (id, rest)) :
    rest.Consistent := by
  have hqueue := queue_eq_cons_of_pop? hpop
  have hnodup := h.nodup
  rw [hqueue, List.nodup_cons] at hnodup
  refine ⟨hnodup.2, ?_⟩
  intro other
  rw [waiting_of_pop? hpop, IdSet.mem_erase, h.mem_waiting, hqueue, List.mem_cons]
  constructor
  · rintro ⟨hne, he | hmem⟩
    · exact absurd he hne
    · exact hmem
  · intro hmem
    exact ⟨fun he => hnodup.1 (he ▸ hmem), Or.inr hmem⟩

end WordPattern.Worklist
