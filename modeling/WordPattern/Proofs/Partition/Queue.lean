import WordPattern.Proofs.Partition.Worklist

/-!
# A worklist through any sequence of calls

However blocks are pushed and popped, a worklist that is empty at first answers as a
plain queue does: one that appends a block unless it has it, and gives its first block
away. So what waits can be read off the calls so far and their answers: the blocks
that were pushed since they were last popped. The blocks that were added are, in the
order in which they were, those that were popped and after them those that still
wait. A pop that finds nothing leaves the worklist as it is.
-/

namespace WordPattern.Worklist

variable {w : Worklist} {queue : List BlockId} {id : BlockId}

/-- A call on a worklist. -/
inductive Call where
  /-- A block is to wait. -/
  | push (id : BlockId)
  /-- The block that has waited longest is taken. -/
  | pop

/-- A call with its answer. -/
inductive Event where
  /-- A block was pushed; it was added unless it waited already. -/
  | pushed (id : BlockId) (added : Bool)
  /-- A block was popped. -/
  | popped (id : BlockId)
  /-- Nothing was there to be popped. -/
  | foundNone
deriving DecidableEq

/-- What a call does to a worklist. -/
def perform (w : Worklist) : Call → Worklist × Event
  | .push id => (w.push id, .pushed id (!w.contains id))
  | .pop =>
    match w.pop? with
    | some (id, rest) => (rest, .popped id)
    | none => (w, .foundNone)

/-- What a call does to a plain queue without repetition. -/
def performOnQueue (queue : List BlockId) : Call → List BlockId × Event
  | .push id => if id ∈ queue then (queue, .pushed id false) else (queue ++ [id], .pushed id true)
  | .pop =>
    match queue with
    | first :: rest => (rest, .popped first)
    | [] => ([], .foundNone)

/-- The state after a sequence of calls, and what happened on the way. -/
def trace {σ : Type} (step : σ → Call → σ × Event) (state : σ) : List Call → σ × List Event
  | [] => (state, [])
  | call :: rest =>
    let later := trace step (step state call).1 rest
    (later.1, (step state call).2 :: later.2)

/-- What every call keeps, given what happened before, holds after any sequence of
calls. -/
theorem trace_keeps {σ : Type} {step : σ → Call → σ × Event} {inv : σ → List Event → Prop}
    (hstep : ∀ {state events}, inv state events → ∀ call,
      inv (step state call).1 (events ++ [(step state call).2]))
    {state : σ} {events : List Event} (h : inv state events) (calls : List Call) :
    inv (trace step state calls).1 (events ++ (trace step state calls).2) := by
  induction calls generalizing state events with
  | nil => simpa [trace] using h
  | cons call rest ih =>
    have hlater := ih (hstep h call)
    rwa [List.append_assoc, List.singleton_append] at hlater

/-- A call does to the queue of a worklist what it does to a plain queue, with the
same answer. -/
theorem Consistent.perform_eq (h : w.Consistent) (call : Call) :
    performOnQueue w.queue call = ((w.perform call).1.queue, (w.perform call).2) ∧
      (w.perform call).1.Consistent := by
  cases call with
  | push id =>
    refine ⟨?_, h.push id⟩
    have hcontains : w.contains id = true ↔ id ∈ w.queue := h.contains_iff
    rw [perform, performOnQueue, h.queue_push id]
    by_cases hid : id ∈ w.queue
    · rw [if_pos hid, if_pos hid, hcontains.mpr hid, Bool.not_true]
    · have hnot : w.contains id = false := Bool.eq_false_iff.mpr fun hw => hid (hcontains.mp hw)
      rw [if_neg hid, if_neg hid, hnot, Bool.not_false]
  | pop =>
    rw [perform]
    cases hpop : w.pop? with
    | none =>
      dsimp only
      rw [pop?_eq_none_iff.mp hpop]
      exact ⟨rfl, h⟩
    | some taken =>
      obtain ⟨id, rest⟩ := taken
      rw [queue_eq_cons_of_pop? hpop]
      exact ⟨rfl, h.pop hpop⟩

/-- Through any sequence of calls a worklist answers as a plain queue does. -/
theorem Consistent.trace_eq (h : w.Consistent) (calls : List Call) :
    trace performOnQueue w.queue calls =
        ((trace perform w calls).1.queue, (trace perform w calls).2) ∧
      (trace perform w calls).1.Consistent := by
  induction calls generalizing w with
  | nil => exact ⟨rfl, h⟩
  | cons call rest ih =>
    obtain ⟨heq, hnext⟩ := h.perform_eq call
    obtain ⟨hrest, hlast⟩ := ih hnext
    refine ⟨?_, hlast⟩
    simp only [trace, heq, hrest]

/-- The block was pushed since it was last popped. -/
def PushedSince (events : List Event) (id : BlockId) : Prop :=
  ∃ earlier added later, events = earlier ++ .pushed id added :: later ∧ .popped id ∉ later

theorem not_pushedSince_nil (id : BlockId) : ¬PushedSince [] id := by
  rintro ⟨earlier, added, later, hnil, -⟩
  exact List.append_ne_nil_of_right_ne_nil earlier (List.cons_ne_nil _ later) hnil.symm

/-- One more event pushes the block, or does not pop it. -/
theorem pushedSince_concat {events : List Event} {event : Event} :
    PushedSince (events ++ [event]) id ↔
      (∃ added, event = .pushed id added) ∨ PushedSince events id ∧ event ≠ .popped id := by
  constructor
  · rintro ⟨earlier, added, later, heq, hlater⟩
    -- the new event is the push that is meant, or the last one after it
    rcases List.eq_nil_or_concat' later with rfl | ⟨before, last, rfl⟩
    · obtain ⟨-, hlast⟩ := List.append_inj' heq rfl
      exact Or.inl ⟨added, List.singleton_inj.mp hlast⟩
    · rw [← List.cons_append, ← List.append_assoc] at heq
      obtain ⟨hevents, hlast⟩ := List.append_inj' heq rfl
      rw [List.mem_append, List.mem_singleton, not_or] at hlater
      rw [List.singleton_inj.mp hlast]
      exact Or.inr ⟨⟨earlier, added, before, hevents, hlater.1⟩, Ne.symm hlater.2⟩
  · rintro (⟨added, rfl⟩ | ⟨⟨earlier, added, later, rfl, hlater⟩, hne⟩)
    · exact ⟨events, added, [], rfl, List.not_mem_nil⟩
    · refine ⟨earlier, added, later ++ [event], by simp, ?_⟩
      rw [List.mem_append, List.mem_singleton, not_or]
      exact ⟨hlater, Ne.symm hne⟩

theorem pushedSince_pushed {events : List Event} {other : BlockId} {added : Bool} :
    PushedSince (events ++ [.pushed id added]) other ↔ PushedSince events other ∨ other = id := by
  simp [pushedSince_concat, eq_comm, or_comm]

theorem pushedSince_popped {events : List Event} {other : BlockId} :
    PushedSince (events ++ [.popped id]) other ↔ PushedSince events other ∧ other ≠ id := by
  simp [pushedSince_concat, eq_comm]

theorem pushedSince_foundNone {events : List Event} :
    PushedSince (events ++ [.foundNone]) id ↔ PushedSince events id := by
  simp [pushedSince_concat]

/-- The block that an event adds, if it adds one. -/
def Event.added? : Event → Option BlockId
  | .pushed id added => if added then some id else none
  | .popped _ => none
  | .foundNone => none

/-- The block that an event pops, if it pops one. -/
def Event.popped? : Event → Option BlockId
  | .pushed _ _ => none
  | .popped id => some id
  | .foundNone => none

/-- What the events so far say about a queue. -/
structure Accounts (queue : List BlockId) (events : List Event) : Prop where
  /-- No block waits twice. -/
  nodup : queue.Nodup
  /-- The blocks that wait are those that were pushed since they were last popped. -/
  mem_iff : ∀ id, id ∈ queue ↔ PushedSince events id
  /-- The blocks that were added were popped in that order, or wait in that order. -/
  added : events.filterMap Event.added? = events.filterMap Event.popped? ++ queue

theorem accounts_nil : Accounts [] [] where
  nodup := List.nodup_nil
  mem_iff := fun id => iff_of_false List.not_mem_nil (not_pushedSince_nil id)
  added := rfl

/-- Pushing a block on a plain queue is accounted for. -/
theorem Accounts.push {events : List Event} (h : Accounts queue events) (id : BlockId) :
    Accounts (performOnQueue queue (.push id)).1
      (events ++ [(performOnQueue queue (.push id)).2]) := by
  rw [performOnQueue]
  by_cases hid : id ∈ queue
  · rw [if_pos hid]
    refine ⟨h.nodup, fun other => ?_, ?_⟩
    · rw [pushedSince_pushed, ← h.mem_iff, iff_self_or]
      exact fun he => he ▸ hid
    · rw [List.filterMap_append, List.filterMap_append, h.added]
      simp [Event.added?, Event.popped?]
  · rw [if_neg hid]
    refine ⟨?_, fun other => ?_, ?_⟩
    · exact List.nodup_append.mpr ⟨h.nodup, List.nodup_singleton id, by grind⟩
    · rw [pushedSince_pushed, ← h.mem_iff, List.mem_append, List.mem_singleton]
    · rw [List.filterMap_append, List.filterMap_append, h.added]
      simp [Event.added?, Event.popped?]

/-- Popping a block off a plain queue is accounted for. -/
theorem Accounts.pop {events : List Event} (h : Accounts queue events) :
    Accounts (performOnQueue queue .pop).1 (events ++ [(performOnQueue queue .pop).2]) := by
  cases queue with
  | nil =>
    refine ⟨h.nodup, fun other => ?_, ?_⟩
    · exact (h.mem_iff other).trans pushedSince_foundNone.symm
    · rw [List.filterMap_append, List.filterMap_append, h.added]
      simp [performOnQueue, Event.added?, Event.popped?, List.filterMap_cons]
  | cons first rest =>
    obtain ⟨hfirst, hrest⟩ := List.nodup_cons.mp h.nodup
    refine ⟨hrest, fun other => ?_, ?_⟩
    · rw [performOnQueue, pushedSince_popped, ← h.mem_iff, List.mem_cons]
      grind
    · rw [List.filterMap_append, List.filterMap_append, h.added]
      simp [performOnQueue, Event.added?, Event.popped?]

/-- Every call on a plain queue is accounted for. -/
theorem Accounts.performOnQueue {events : List Event} (h : Accounts queue events) (call : Call) :
    Accounts (performOnQueue queue call).1 (events ++ [(performOnQueue queue call).2]) := by
  cases call with
  | push id => exact h.push id
  | pop => exact h.pop

/-- Nothing waits exactly when no block does. -/
theorem Consistent.isEmpty_iff (h : w.Consistent) :
    w.isEmpty = true ↔ ∀ id, w.contains id = false := by
  have hqueue : w.isEmpty = true ↔ w.queue = [] := by simp [isEmpty, queue]
  simp only [hqueue, List.eq_nil_iff_forall_not_mem, Bool.eq_false_iff, ne_eq, h.contains_iff]

/-- However blocks are pushed and popped, a worklist that is empty at first does what
a plain queue does, call by call. It holds no block twice, a block waits exactly if it
was pushed since it was last popped, the worklist is empty exactly if no block waits,
and the blocks that were added are those that were popped followed by those that
wait. -/
theorem trace_queues (calls : List Call) :
    let (w, events) := trace perform empty calls
    trace performOnQueue [] calls = (w.queue, events) ∧ w.queue.Nodup ∧
      (∀ id, w.contains id = true ↔ PushedSince events id) ∧
      (w.isEmpty = true ↔ ∀ id, w.contains id = false) ∧
      events.filterMap Event.added? = events.filterMap Event.popped? ++ w.queue := by
  obtain ⟨hsame, hconsistent⟩ := consistent_empty.trace_eq calls
  have haccounts := trace_keeps Accounts.performOnQueue accounts_nil calls
  rw [queue_empty] at hsame
  rw [hsame, List.nil_append] at haccounts
  exact ⟨hsame, haccounts.nodup, fun id => hconsistent.contains_iff.trans (haccounts.mem_iff id),
    hconsistent.isEmpty_iff, haccounts.added⟩

end WordPattern.Worklist
