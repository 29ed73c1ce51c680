import Mathlib.Data.Nat.Log
import Mathlib.Data.Set.Card
import WordPattern.Proofs.Automaton.Minimal

/-!
# Splitters that hold a state halve

Follow one state through a refinement. The block that holds it only shrinks,
and when that block comes to wait again after it was split by, it has been
divided since, and its smaller part waits. So from one splitter that holds the
state to the next one the size is at least halved, and there are at most one
more of them than the binary logarithm of the number of states.

The bound is on the splitters that hold one state. Together with the number of
its incoming edges it bounds the work that they cause, but no cost of an
operation is counted here.
-/

namespace WordPattern

/-- Where positive sizes are halved at least from each one to the next, the
first one is as large as the power of two with the number of the others. -/
theorem two_pow_length_le {first : Nat} {sizes : List Nat} (hfirst : 0 < first)
    (hpos : ∀ size ∈ sizes, 0 < size)
    (h : (first :: sizes).IsChain fun earlier later => 2 * later ≤ earlier) :
    2 ^ sizes.length ≤ first := by
  induction sizes generalizing first with
  | nil => exact hfirst
  | cons second rest ih =>
    obtain ⟨hhalf, hrest⟩ := List.isChain_cons_cons.mp h
    obtain ⟨hsecond, hlater⟩ := List.forall_mem_cons.mp hpos
    have hpow := ih hsecond hlater hrest
    calc 2 ^ (second :: rest).length
        = 2 * 2 ^ rest.length := Nat.pow_succ'
      _ ≤ 2 * second := Nat.mul_le_mul_left 2 hpow
      _ ≤ first := hhalf

/-- A set with a member is not empty. -/
theorem IdSet.size_pos {set : IdSet} {id : Nat} (h : id ∈ set) : 0 < set.size :=
  List.length_pos_of_mem h

namespace Refinement

variable {a : Automaton} {ids : List StateId} {r next last : Refinement} {sources splitter : IdSet}
  {id : BlockId} {s : StateId} {bound : Nat} {incoming : Incoming} {splitters : List IdSet}

/-- The block that holds a state has at most the given size, and at most half
of it if the block waits. -/
structure Halving (ids : List StateId) (s : StateId) (bound : Nat) (r : Refinement) : Prop where
  /-- The refinement is coherent. -/
  coherent : r.Coherent ids
  /-- No block that holds the state exceeds the bound. -/
  size_le : ∀ {id}, s ∈ r.partition.blockAt id → (r.partition.blockAt id).size ≤ bound
  /-- A waiting block that holds the state has half of the bound at most. -/
  half : ∀ {id}, id ∈ r.worklist.queue → s ∈ r.partition.blockAt id →
    2 * (r.partition.blockAt id).size ≤ bound

/-- Before anything is split by, twice the number of states is a bound. -/
theorem Coherent.halving (h : r.Coherent ids) (s : StateId) :
    Halving ids s (2 * ids.length) r := by
  have hsize : ∀ id, (r.partition.blockAt id).size ≤ ids.length := by
    intro id
    have hsub : (r.partition.blockAt id).members ⊆ ids := fun _ => h.mem_ids
    exact (r.partition.blockAt id).nodup_members.length_le_of_subset hsub
  refine ⟨h, fun {id} _ => ?_, fun {id} _ _ => Nat.mul_le_mul_left 2 (hsize id)⟩
  have hle := hsize id
  omega

/-- Division keeps the bound: a part that comes to wait is the smaller one, or
the divided block was waiting already. -/
theorem Halving.division (h : Halving ids s bound r) (d : Division sources id r next) :
    Halving ids s bound next where
  coherent := d.coherent h.coherent
  size_le := by
    intro other hs
    have hsub := d.sublist other
    exact hsub.length_le.trans (h.size_le (hsub.subset hs))
  half := by
    intro other hother hs
    have hsub := d.sublist other
    have hbefore := hsub.subset hs
    rcases d.waiting h.coherent hother with hwaited | hsmaller
    · have hhalf := h.half hwaited hbefore
      exact (Nat.mul_le_mul_left 2 hsub.length_le).trans hhalf
    · exact hsmaller.trans (h.size_le hbefore)

/-- Dividing one block keeps the bound. -/
theorem Halving.divide (h : Halving ids s bound r) (hok : divide sources r id = .ok next) :
    Halving ids s bound next := by
  obtain ⟨block, hget, -⟩ := bind_eq_ok_iff.mp hok
  have hid := h.coherent.partition.lt_nextId_of_get hget
  obtain ⟨divided, hdivided, hcases⟩ := h.coherent.divide_spec sources hid
  have he : divided = next := Except.ok.inj (hdivided.symm.trans hok)
  rcases hcases with ⟨hsame, -⟩ | hdivision
  · rw [← he, hsame]
    exact h
  · exact h.division (he ▸ hdivision)

/-- Splitting by a set keeps the bound, however many blocks it divides. -/
theorem Halving.splitBy (h : Halving ids s bound r)
    (hok : splitBy incoming r splitter = .ok next) : Halving ids s bound next := by
  have hall : ∀ {sources now after}, Halving ids s bound now →
      divideAll now sources = .ok after → Halving ids s bound after := fun hnow hafter =>
    foldlM_keeps (fun hb hstep => hb.divide hstep) hnow hafter
  obtain ⟨found, -, hdivided⟩ := bind_eq_ok_iff.mp hok
  exact foldlM_keeps hall h hdivided

/-- A step that succeeds has taken a waiting block and split by its states. -/
theorem step_cases (h : r.step incoming = .ok (some (splitter, next))) :
    ∃ id rest, r.worklist.pop? = some (id, rest) ∧ splitter = r.partition.blockAt id ∧
      splitBy incoming ⟨r.partition, rest⟩ splitter = .ok next := by
  rw [Refinement.step] at h
  cases hpop : r.worklist.pop? with
  | none =>
    rw [hpop] at h
    cases h
  | some taken =>
    obtain ⟨id, rest⟩ := taken
    rw [hpop] at h
    obtain ⟨block, hget, hsplit⟩ := bind_eq_ok_iff.mp h
    obtain ⟨after, hafter, hpair⟩ := bind_eq_ok_iff.mp hsplit
    cases hpair
    have hblock := Partition.blockAt_eq_of_get hget
    exact ⟨id, rest, rfl, hblock.symm, hafter⟩

/-- A splitter without the state keeps the bound. One with the state has half of
it at most, and its size is the next bound. -/
theorem Halving.step (h : Halving ids s bound r)
    (hstep : r.step incoming = .ok (some (splitter, next))) :
    (s ∉ splitter ∧ Halving ids s bound next) ∨
      (s ∈ splitter ∧ 2 * splitter.size ≤ bound ∧ Halving ids s splitter.size next) := by
  obtain ⟨id, rest, hpop, hsplitter, hsplit⟩ := step_cases hstep
  have hqueue := Worklist.queue_eq_cons_of_pop? hpop
  have hpopped := h.coherent.pop hpop
  by_cases hs : s ∈ splitter
  · have hin : s ∈ r.partition.blockAt id := hsplitter ▸ hs
    have hfirst : id ∈ r.worklist.queue := hqueue ▸ List.mem_cons_self
    -- the splitter is the only block that holds the state, and it waits no more
    have honly : ∀ {other}, s ∈ r.partition.blockAt other → other = id := by
      intro other hother
      have howner := h.coherent.partition.owner_iff.mpr hother
      have howned := h.coherent.partition.owner_iff.mpr hin
      exact Option.some.inj (howner.symm.trans howned)
    have hgone : id ∉ rest.queue := by
      have hnodup := h.coherent.worklist.nodup
      rw [hqueue] at hnodup
      exact (List.nodup_cons.mp hnodup).1
    have hhalf : 2 * splitter.size ≤ bound := by
      rw [hsplitter]
      exact h.half hfirst hin
    have hnow : Halving ids s splitter.size ⟨r.partition, rest⟩ := by
      refine ⟨hpopped, ?_, ?_⟩
      · intro other hother
        rw [hsplitter, honly hother]
      · intro other hwaits hother
        exact absurd (honly hother ▸ hwaits) hgone
    exact Or.inr ⟨hs, hhalf, hnow.splitBy hsplit⟩
  · have hnow : Halving ids s bound ⟨r.partition, rest⟩ := by
      refine ⟨hpopped, h.size_le, ?_⟩
      intro other hwaits hother
      have hwaited : other ∈ r.worklist.queue := hqueue ▸ List.mem_cons_of_mem id hwaits
      exact h.half hwaited hother
    exact Or.inl ⟨hs, hnow.splitBy hsplit⟩

/-- All through a refinement, the splitters that hold a state halve. -/
theorem Halving.trace (h : Halving ids s bound r) (htrace : Trace incoming r splitters last) :
    (bound :: (splitters.filter (s ∈ ·)).map IdSet.size).IsChain
      fun earlier later => 2 * later ≤ earlier := by
  induction htrace generalizing bound with
  | done r => exact List.isChain_singleton bound
  | step here later ih =>
    rcases h.step here with ⟨hnot, hnext⟩ | ⟨hs, hhalf, hnext⟩
    · rw [List.filter_cons_of_neg (by simpa using hnot)]
      exact ih hnext
    · rw [List.filter_cons_of_pos (by simpa using hs), List.map_cons, List.isChain_cons_cons]
      exact ⟨hhalf, ih hnext⟩

/-- From the start of a refinement on, the splitters that hold a state halve, and
there are at most one more of them than the logarithm of the number of states. -/
theorem Ends.halving (h : Ends a ids splitters last) (hrange : ∀ s ∈ ids, s < a.numStates)
    (hids : 0 < ids.length) (s : StateId) :
    (splitters.filter (s ∈ ·)).IsChain (fun earlier later => 2 * later.size ≤ earlier.size) ∧
      (splitters.filter (s ∈ ·)).length ≤ 1 + Nat.log 2 ids.length := by
  obtain ⟨incoming, first, -, hfirst, htrace, -⟩ := h
  obtain ⟨start, hstart, hinv, -⟩ := start_spec hrange
  have he : start = first := Except.ok.inj (hstart.symm.trans hfirst)
  have hchain := (hinv.coherent.halving s).trace (he ▸ htrace)
  have hpos : ∀ size ∈ (splitters.filter (s ∈ ·)).map IdSet.size, 0 < size := by
    intro size hsize
    obtain ⟨splitter, hsplitter, rfl⟩ := List.mem_map.mp hsize
    have hs := (List.mem_filter.mp hsplitter).2
    exact IdSet.size_pos (of_decide_eq_true hs)
  refine ⟨?_, ?_⟩
  · have htail := hchain.tail
    rwa [List.tail_cons, List.isChain_map] at htail
  · have hpow := two_pow_length_le (Nat.mul_pos Nat.two_pos hids) hpos hchain
    have hlog := Nat.le_log_of_pow_le Nat.one_lt_two hpow
    rw [List.length_map, Nat.mul_comm, Nat.log_mul_base Nat.one_lt_two (Nat.ne_of_gt hids)] at hlog
    exact hlog.trans_eq (Nat.add_comm _ 1)

end Refinement

namespace Automaton

variable {a : Automaton}

/-- There are as many reachable states as the traversal lists. -/
theorem ncard_reachable {ids : List StateId} (hnodup : ids.Nodup)
    (hreach : ∀ id, id ∈ ids ↔ a.Reachable id) : {p | a.Reachable p}.ncard = ids.length := by
  have hset : {p | a.Reachable p} = ↑ids.toFinset := by
    ext p
    exact (hreach p).symm.trans List.mem_toFinset.symm
  rw [hset, Set.ncard_coe_finset, List.toFinset_card_of_nodup hnodup]

/-- The construction of the minimal automaton of a closed automaton refines to an
end. Whatever sets the refinement splits by on its way there, those that hold a
given state are halved at least from each one to the next, and there are at most
one more of them than the binary logarithm of the number of reachable states. -/
theorem splitters_halve (h : a.Closed) :
    ∃ ids, a.preorder = .ok ids ∧
      (∃ splitters last m, Refinement.Ends a ids splitters last ∧
        a.quotient last.partition = .ok m ∧ a.minimal = .ok m) ∧
      ∀ splitters last, Refinement.Ends a ids splitters last → ∀ s,
        (splitters.filter (s ∈ ·)).IsChain (fun earlier later => 2 * later.size ≤ earlier.size) ∧
        (splitters.filter (s ∈ ·)).length ≤ 1 + Nat.log 2 {p | a.Reachable p}.ncard := by
  obtain ⟨ids, splitters, last, m, f, hids, hends, hquotient, hminimal, -⟩ := h.minimal_spec
  obtain ⟨order, horder, hnodup, hreach⟩ := h.preorder_spec
  have he : order = ids := Except.ok.inj (horder.symm.trans hids)
  rw [he] at hnodup hreach
  have hrange : ∀ s ∈ ids, s < a.numStates := fun s hs => h.lt ((hreach s).mp hs)
  have hpos : 0 < ids.length := List.length_pos_of_mem ((hreach start).mpr .start)
  refine ⟨ids, hids, ⟨splitters, last, m, hends, hquotient, hminimal⟩, ?_⟩
  intro others final hends s
  rw [ncard_reachable hnodup hreach]
  exact hends.halving hrange hpos s

theorem splitters_halve_twoWays :
    twoWays.Closed ∧
      ∃ ids, twoWays.preorder = .ok ids ∧
        (∃ splitters last m, Refinement.Ends twoWays ids splitters last ∧
          twoWays.quotient last.partition = .ok m ∧ twoWays.minimal = .ok m) ∧
        ∀ splitters last, Refinement.Ends twoWays ids splitters last → ∀ s,
          (splitters.filter (s ∈ ·)).IsChain (fun earlier later => 2 * later.size ≤ earlier.size) ∧
          (splitters.filter (s ∈ ·)).length ≤ 1 + Nat.log 2 {p | twoWays.Reachable p}.ncard :=
  ⟨closed_twoWays, splitters_halve closed_twoWays⟩

end Automaton

end WordPattern
