import WordPattern.Proofs.Automaton.Quotient

/-!
# The minimal automaton of a closed automaton

On a closed automaton the construction never fails and its refinement comes to
an end. At that end, two reachable states share a block exactly when no word
tells them apart, and the result has one state for each class of such states
and accepts the same words. Cycles, missing edges, states that accept nothing
and states that no run comes to are all allowed. A state that accepts nothing is
not joined with a missing edge, so the result need not be the smallest
automaton of its language.
-/

namespace WordPattern

/-- Two states are members of one block. -/
def Partition.SameBlock (p : Partition) (s t : StateId) : Prop :=
  ∃ id block, p.get id = .ok block ∧ s ∈ block ∧ t ∈ block

/-- States that have a block share one exactly when it is the same. -/
theorem Partition.Consistent.sameBlock_iff {p : Partition} (h : p.Consistent) {s t : StateId}
    {id : BlockId} (hs : p.blockOf s = some id) :
    p.SameBlock s t ↔ p.blockOf s = p.blockOf t := by
  constructor
  · intro hsame
    obtain ⟨other, block, hget, hin, hin'⟩ := hsame
    obtain rfl := blockAt_eq_of_get hget
    rw [h.owner_iff.mpr hin, h.owner_iff.mpr hin']
  · intro heq
    have hin := h.owner_iff.mp hs
    exact ⟨id, p.blockAt id, h.get_eq_ok (h.lt_nextId hin), hin, h.owner_iff.mp (heq ▸ hs)⟩

namespace Automaton

variable {a : Automaton}

/-- The partition at the end of a refinement is stable. -/
theorem stable_of_invariant {ids : List StateId} {last : Refinement}
    (hreach : ∀ id, id ∈ ids ↔ a.Reachable id) (h : Refinement.Invariant a ids [] last)
    (hempty : last.worklist.queue = []) : last.partition.Stable a where
  consistent := h.coherent.partition
  covers := h.coherent.covers.trans (hreach _)
  inhabited := h.coherent.inhabited
  accepting := fun hs ht => h.accepting ((hreach _).mpr hs) ((hreach _).mpr ht)
  arrives := fun hs ht => h.stable hempty ((hreach _).mpr hs) ((hreach _).mpr ht)

/-- The refinement of a closed automaton comes to its end, in a stable partition
whose blocks hold the states that no word tells apart. -/
theorem Closed.refined_stable (h : a.Closed) :
    ∃ ids splitters last, a.preorder = .ok ids ∧ Refinement.Ends a ids splitters last ∧
      Partition.refined a ids = .ok last.partition ∧ last.partition.Stable a ∧
      ∀ {s t}, a.Reachable s → a.Reachable t →
        (last.partition.blockOf s = last.partition.blockOf t ↔ a.Alike s t) := by
  obtain ⟨ids, splitters, last, hids, hreach, hends, hempty, hinv, hrefined⟩ := h.refined_spec
  have hclosed : ∀ {s t letter}, s ∈ ids → a.target? s letter = some t → t ∈ ids :=
    fun hs hedge => (hreach _).mpr (((hreach _).mp hs).edge hedge)
  refine ⟨ids, splitters, last, hids, hends, hrefined, stable_of_invariant hreach hinv hempty, ?_⟩
  intro s t hs ht
  exact hinv.blockOf_eq_iff hempty hclosed ((hreach s).mpr hs) ((hreach t).mpr ht)

/-- The construction of the minimal automaton never fails: it refines to the
end and gives one number to the states of each block, which are those that no
word tells apart. -/
theorem Closed.minimal_spec (h : a.Closed) :
    ∃ ids splitters last m f, a.preorder = .ok ids ∧ Refinement.Ends a ids splitters last ∧
      a.quotient last.partition = .ok m ∧ a.minimal = .ok m ∧ Image a m f ∧
      (∀ {s t}, a.Reachable s → a.Reachable t →
        (last.partition.SameBlock s t ↔ a.Alike s t)) ∧
      ∀ {s t}, a.Reachable s → a.Reachable t → (f s = f t ↔ a.Alike s t) := by
  obtain ⟨ids, splitters, last, hids, hends, hrefined, hstable, halike⟩ := h.refined_stable
  obtain ⟨m, f, hquotient, himage, -, hnumber⟩ := quotient_spec h hstable
  refine ⟨ids, splitters, last, m, f, hids, hends, hquotient, ?_, himage, ?_, ?_⟩
  · simp [minimal, hids, hrefined, hquotient, bind, Except.bind]
  · intro s t hs ht
    obtain ⟨id, hid⟩ := hstable.covers.mpr hs
    rw [hstable.consistent.sameBlock_iff hid, halike hs ht]
  · intro s t hs ht
    rw [hnumber hs ht, halike hs ht]

/-- The refinement of a closed automaton comes to its end and its minimal
automaton exists, and every word is accepted by both or by neither. -/
theorem minimal_accepts (h : a.Closed) :
    ∃ ids splitters last m, a.preorder = .ok ids ∧ Refinement.Ends a ids splitters last ∧
      a.quotient last.partition = .ok m ∧ a.minimal = .ok m ∧
      ∀ word, ∃ accepted, a.accepts word = .ok accepted ∧ m.accepts word = .ok accepted := by
  obtain ⟨ids, splitters, last, m, f, hids, hends, hquotient, hminimal, himage, -⟩ :=
    h.minimal_spec
  refine ⟨ids, splitters, last, m, hids, hends, hquotient, hminimal, ?_⟩
  intro word
  exact ⟨_, h.accepts_eq word, (himage.accepts h word).trans (h.accepts_eq word)⟩

theorem minimal_accepts_twoWays :
    twoWays.Closed ∧
      ∃ ids splitters last m, twoWays.preorder = .ok ids ∧
        Refinement.Ends twoWays ids splitters last ∧
        twoWays.quotient last.partition = .ok m ∧ twoWays.minimal = .ok m ∧
        ∀ word, ∃ accepted, twoWays.accepts word = .ok accepted ∧ m.accepts word = .ok accepted :=
  ⟨closed_twoWays, minimal_accepts closed_twoWays⟩

/-- At the end of the refinement of a closed automaton, two reachable states
share a block exactly when they are alike. The minimal automaton is an image
under a numbering that gives one number to each class of alike states and leaves
none out. -/
theorem sameBlock_iff_alike (h : a.Closed) :
    ∃ ids splitters last m f, a.preorder = .ok ids ∧ Refinement.Ends a ids splitters last ∧
      (∀ s t, a.Reachable s → a.Reachable t → (last.partition.SameBlock s t ↔ a.Alike s t)) ∧
      a.quotient last.partition = .ok m ∧ a.minimal = .ok m ∧ Image a m f ∧
      ∀ s t, a.Reachable s → a.Reachable t → (f s = f t ↔ a.Alike s t) := by
  obtain ⟨ids, splitters, last, m, f, hids, hends, hquotient, hminimal, himage, hblocks, hnumber⟩ :=
    h.minimal_spec
  exact ⟨ids, splitters, last, m, f, hids, hends, fun _ _ => hblocks, hquotient, hminimal, himage,
    fun _ _ => hnumber⟩

theorem sameBlock_iff_alike_twoWays :
    twoWays.Closed ∧
      ∃ ids splitters last m f, twoWays.preorder = .ok ids ∧
        Refinement.Ends twoWays ids splitters last ∧
        (∀ s t, twoWays.Reachable s → twoWays.Reachable t →
          (last.partition.SameBlock s t ↔ twoWays.Alike s t)) ∧
        twoWays.quotient last.partition = .ok m ∧ twoWays.minimal = .ok m ∧ Image twoWays m f ∧
        ∀ s t, twoWays.Reachable s → twoWays.Reachable t → (f s = f t ↔ twoWays.Alike s t) :=
  ⟨closed_twoWays, sameBlock_iff_alike closed_twoWays⟩

end Automaton

end WordPattern
