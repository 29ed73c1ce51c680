import Mathlib.Data.List.FinRange
import WordPattern.Proofs.Automaton.Alike
import WordPattern.Proofs.Partition.Division
import WordPattern.Proofs.Partition.Incoming

/-!
# Refinement reaches the coarsest stable partition

Three things hold all through a refinement. Alike states are never parted.
States in one block accept alike. And if the edges on a letter of two states in
one block agree about every block that waits, and the two states agree about
every set that is still to be divided by, then those edges lead into one block.
When nothing waits, the last one says that blocks are stable, so that states in
one block are alike. It is what makes one part of a divided block enough: edges
that agree about the whole block and about one part agree about the other.

Every division adds a block and a waiting block, and every step takes a waiting
block away, so there are no more steps than states. Only the number of steps is
bounded here, not the work that each of them takes.
-/

namespace WordPattern

/-- The block into which the edge of a state on a letter leads, if there is an
edge. -/
def Partition.arrives (a : Automaton) (p : Partition) (s : StateId) (letter : Char) :
    Option BlockId := (a.target? s letter).bind p.blockOf

namespace Refinement

variable {a : Automaton} {ids : List StateId} {r next : Refinement} {sources : IdSet}
  {pending : List (Char × IdSet)} {id : BlockId} {s t : StateId} {letter : Char}
  {incoming : Incoming} {found : Table Char IdSet}

/-- Alike states are on the same side of a set. -/
def Respects (a : Automaton) (ids : List StateId) (sources : IdSet) : Prop :=
  ∀ {s t}, s ∈ ids → t ∈ ids → a.Alike s t → (s ∈ sources ↔ t ∈ sources)

/-- The edges on a letter agree about every block that waits. -/
def AgreeOnWaiting (a : Automaton) (r : Refinement) (s t : StateId) (letter : Char) : Prop :=
  ∀ id ∈ r.worklist.queue,
    r.partition.arrives a s letter = some id ↔ r.partition.arrives a t letter = some id

/-- The states agree about every set under a letter that is still to be divided
by. -/
def AgreeOnPending (pending : List (Char × IdSet)) (s t : StateId) (letter : Char) : Prop :=
  ∀ sources, (letter, sources) ∈ pending → (s ∈ sources ↔ t ∈ sources)

/-- What holds all through a refinement, `pending` being the sets under their
letters that are still to be divided by. -/
structure Invariant (a : Automaton) (ids : List StateId) (pending : List (Char × IdSet))
    (r : Refinement) : Prop where
  /-- The refinement is coherent. -/
  coherent : r.Coherent ids
  /-- Alike states share a block. -/
  together : ∀ {s t}, s ∈ ids → t ∈ ids → a.Alike s t →
    r.partition.blockOf s = r.partition.blockOf t
  /-- States in one block accept alike. -/
  accepting : ∀ {s t}, s ∈ ids → t ∈ ids → r.partition.blockOf s = r.partition.blockOf t →
    a.isAccepting s = a.isAccepting t
  /-- Edges of one block lead into one block, as far as nothing that waits or
  is pending parts them. -/
  settled : ∀ {s t letter}, s ∈ ids → t ∈ ids → r.partition.blockOf s = r.partition.blockOf t →
    AgreeOnWaiting a r s t letter → AgreeOnPending pending s t letter →
      r.partition.arrives a s letter = r.partition.arrives a t letter

/-- Putting the next block back into the divided one undoes the division for
edges too. -/
theorem Division.arrives_eq_map (h : r.Coherent ids) (d : Division sources id r next)
    (s : StateId) (letter : Char) :
    r.partition.arrives a s letter = (next.partition.arrives a s letter).map
      fun other => if other = r.partition.nextId then id else other := by
  rw [Partition.arrives, Partition.arrives]
  cases a.target? s letter with
  | none => rfl
  | some target => exact d.blockOf_eq_map h target

/-- Edges that agree about what waits after a division agreed before. -/
theorem Division.agreeOnWaiting (h : r.Coherent ids) (d : Division sources id r next)
    (hagree : AgreeOnWaiting a next s t letter) : AgreeOnWaiting a r s t letter := by
  obtain ⟨part, hqueue, hpart, hwaiting, -⟩ := d.queue h
  have hmem : ∀ other, other ∈ r.worklist.queue ∨ other = part →
      (next.partition.arrives a s letter = some other ↔
        next.partition.arrives a t letter = some other) := by
    intro other hother
    apply hagree other
    rw [hqueue, List.mem_append, List.mem_singleton]
    exact hother
  intro other hother
  have hold := hmem other (Or.inl hother)
  have hne : other ≠ r.partition.nextId := Nat.ne_of_lt (h.queued hother)
  have hpre : ∀ u, r.partition.arrives a u letter = some other ↔
      next.partition.arrives a u letter = some other ∨
        other = id ∧ next.partition.arrives a u letter = some r.partition.nextId := by
    intro u
    rw [d.arrives_eq_map h u letter, Option.map_eq_some_iff]
    constructor
    · intro hu
      obtain ⟨b, hb, he⟩ := hu
      by_cases hnew : b = r.partition.nextId
      · rw [if_pos hnew] at he
        exact Or.inr ⟨he.symm, hnew ▸ hb⟩
      · rw [if_neg hnew] at he
        exact Or.inl (he ▸ hb)
    · intro hu
      rcases hu with hu | ⟨he, hu⟩
      · exact ⟨other, hu, if_neg hne⟩
      · exact ⟨_, hu, (if_pos rfl).trans he.symm⟩
  rw [hpre s, hpre t]
  by_cases he : other = id
  · have hnew := hmem r.partition.nextId (Or.inr (hwaiting (he ▸ hother)).symm)
    rw [hold, hnew]
  · rw [hold]
    simp [he]

/-- Edges into one block that agree about what waits after its division lead
into one part of it. -/
theorem Division.arrives_eq (h : r.Coherent ids) (d : Division sources id r next)
    (hst : r.partition.arrives a s letter = r.partition.arrives a t letter)
    (hagree : AgreeOnWaiting a next s t letter) :
    next.partition.arrives a s letter = next.partition.arrives a t letter := by
  obtain ⟨part, hqueue, hpart, -⟩ := d.queue h
  have hlast : next.partition.arrives a s letter = some part ↔
      next.partition.arrives a t letter = some part := by
    apply hagree part
    rw [hqueue, List.mem_append, List.mem_singleton]
    exact Or.inr rfl
  rw [d.arrives_eq_map h s letter, d.arrives_eq_map h t letter] at hst
  cases hs : next.partition.arrives a s letter with
  | none =>
    rw [hs, Option.map_none, eq_comm, Option.map_eq_none_iff] at hst
    exact hst.symm
  | some b =>
    cases ht : next.partition.arrives a t letter with
    | none =>
      rw [hs, ht] at hst
      cases hst
    | some c =>
      rw [hs, ht] at hst hlast
      simp only [Option.map_some, Option.some.injEq] at hst hlast ⊢
      by_cases hb : b = r.partition.nextId
      · by_cases hc : c = r.partition.nextId
        · rw [hb, hc]
        · rw [if_pos hb, if_neg hc] at hst
          rcases hpart with he | he
          · exact (hlast.mpr (hst.symm.trans he.symm)).trans (he.trans hst)
          · exact absurd ((hlast.mp (hb.trans he.symm)).trans he) hc
      · by_cases hc : c = r.partition.nextId
        · rw [if_neg hb, if_pos hc] at hst
          rcases hpart with he | he
          · exact (hst.trans he.symm).trans (hlast.mp (hst.trans he.symm)).symm
          · exact absurd ((hlast.mpr (hc.trans he.symm)).trans he) hb
        · rw [if_neg hb, if_neg hc] at hst
          exact hst

/-- Division by a set that respects alike states keeps the invariant. -/
theorem Division.invariant (d : Division sources id r next) (h : Invariant a ids pending r)
    (hrespects : Respects a ids sources) : Invariant a ids pending next where
  coherent := d.coherent h.coherent
  together := by
    intro s t hs ht halike
    have hold := h.together hs ht halike
    have hblock : s ∈ r.partition.blockAt id ↔ t ∈ r.partition.blockAt id := by
      rw [← h.coherent.partition.owner_iff, ← h.coherent.partition.owner_iff, hold]
    have hmem : s ∈ (r.partition.blockAt id).diff sources ↔
        t ∈ (r.partition.blockAt id).diff sources := by
      rw [IdSet.mem_diff, IdSet.mem_diff, hblock, hrespects hs ht halike]
    rw [d.blockOf s, d.blockOf t, hold]
    simp only [hmem]
  accepting := fun hs ht hst => h.accepting hs ht (d.coarser h.coherent hst)
  settled := by
    intro s t letter hs ht hst hwaiting hpending
    have hold := h.settled hs ht (d.coarser h.coherent hst)
      (d.agreeOnWaiting h.coherent hwaiting) hpending
    exact d.arrives_eq h.coherent hold hwaiting

/-- A set by which every block lies on one side need not be divided by. -/
theorem Invariant.discharge (h : Invariant a ids ((letter, sources) :: pending) r)
    (hsided : ∀ id < r.partition.nextId, r.OneSided sources id) : Invariant a ids pending r where
  coherent := h.coherent
  together := h.together
  accepting := h.accepting
  settled := by
    intro s t c hs ht hst hwaiting hpending
    refine h.settled hs ht hst hwaiting ?_
    intro states hmem
    rcases List.mem_cons.mp hmem with he | hrest
    · cases he
      obtain ⟨id, hid⟩ := h.coherent.covers.mpr hs
      have hsb := h.coherent.partition.owner_iff.mp hid
      have htb := h.coherent.partition.owner_iff.mp (hst ▸ hid)
      rcases hsided id (h.coherent.partition.lt_nextId hsb) with hin | hout
      · exact iff_of_true (hin s hsb) (hin t htb)
      · exact iff_of_false (hout s hsb) (hout t htb)
    · exact hpending states hrest

/-- A block that waits for each block that was added: divisions keep the
difference of the two numbers. -/
def Balanced (r next : Refinement) : Prop :=
  next.worklist.queue.length + r.partition.nextId = r.worklist.queue.length + next.partition.nextId

theorem Division.balanced (h : r.Coherent ids) (d : Division sources id r next) :
    Balanced r next := by
  obtain ⟨part, hqueue, -, -⟩ := d.queue h
  rw [Balanced, hqueue, d.nextId, List.length_append, List.length_singleton]
  omega

/-- Dividing all blocks that a set touches leaves every block on one side. -/
theorem Invariant.divideAll_spec (h : Invariant a ids pending r)
    (hrespects : Respects a ids sources) :
    ∃ next, r.divideAll sources = .ok next ∧ Invariant a ids pending next ∧ Balanced r next ∧
      ∀ id < next.partition.nextId, next.OneSided sources id := by
  let inv : List BlockId → Refinement → Prop := fun rest now =>
    Invariant a ids pending now ∧ Balanced r now ∧ (∀ id ∈ rest, id < now.partition.nextId) ∧
      ∀ id < now.partition.nextId, id ∉ rest → now.OneSided sources id
  have hstep : ∀ id rest now, inv (id :: rest) now →
      ∃ next, divide sources now id = .ok next ∧ inv rest next := by
    intro id rest now hnow
    obtain ⟨hinv, hbal, hin, hsided⟩ := hnow
    have hid := hin id List.mem_cons_self
    have hrest : ∀ other ∈ rest, other < now.partition.nextId := fun other hother =>
      hin other (List.mem_cons_of_mem _ hother)
    obtain ⟨next, hok, ⟨rfl, hone⟩ | d⟩ := hinv.coherent.divide_spec sources hid
    · refine ⟨next, hok, hinv, hbal, hrest, ?_⟩
      intro other hother hnot
      by_cases he : other = id
      · exact he ▸ hone
      · exact hsided other hother fun hmem => (List.mem_cons.mp hmem).elim he hnot
    · have hgrown := d.nextId
      refine ⟨next, hok, d.invariant hinv hrespects, ?_, ?_, ?_⟩
      · have hbalanced := d.balanced hinv.coherent
        unfold Balanced at hbal hbalanced ⊢
        omega
      · intro other hother
        rw [hgrown]
        exact Nat.lt_succ_of_lt (hrest other hother)
      · intro other hother hnot
        apply d.oneSided
        intro hne hnew
        rw [hgrown] at hother
        refine hsided other ?_ fun hmem => (List.mem_cons.mp hmem).elim hne hnot
        exact Nat.lt_of_le_of_ne (Nat.le_of_lt_succ hother) hnew
  have hstart : inv (r.partition.touchedBy sources) r := by
    refine ⟨h, rfl, ?_, ?_⟩
    · intro id hid
      obtain ⟨s, -, hs⟩ := Partition.mem_touchedBy.mp hid
      exact h.coherent.partition.lt_nextId (h.coherent.partition.owner_iff.mp hs)
    · intro id _ hnot
      refine Or.inr fun s hs hmem => hnot (Partition.mem_touchedBy.mpr ⟨s, hmem, ?_⟩)
      exact h.coherent.partition.owner_iff.mpr hs
  obtain ⟨final, hok, hinv, hbal, -, hsided⟩ := foldlM_ok inv hstep _ _ hstart
  exact ⟨final, hok, hinv, hbal, fun id hid => hsided id hid List.not_mem_nil⟩

/-- Dividing by each pending set in turn leaves none pending. -/
theorem Invariant.divideEach_spec (h : Invariant a ids pending r)
    (hrespects : ∀ entry ∈ pending, Respects a ids entry.2) :
    ∃ next, (pending.map Prod.snd).foldlM divideAll r = .ok next ∧ Invariant a ids [] next ∧
      Balanced r next := by
  let inv : List (Char × IdSet) → Refinement → Prop := fun rest now =>
    Invariant a ids rest now ∧ Balanced r now ∧ ∀ entry ∈ rest, Respects a ids entry.2
  have hstep : ∀ entry rest now, inv (entry :: rest) now →
      ∃ next, divideAll now entry.2 = .ok next ∧ inv rest next := by
    intro entry rest now hnow
    obtain ⟨hinv, hbal, hall⟩ := hnow
    obtain ⟨next, hok, hnext, hbalanced, hsided⟩ :=
      hinv.divideAll_spec (hall entry List.mem_cons_self)
    refine ⟨next, hok, hnext.discharge hsided, ?_, ?_⟩
    · unfold Balanced at hbal hbalanced ⊢
      omega
    · exact fun other hother => hall other (List.mem_cons_of_mem _ hother)
  obtain ⟨final, hok, hinv, hbal, -⟩ := foldlM_ok inv hstep _ _ ⟨h, rfl, hrespects⟩
  refine ⟨final, ?_, hinv, hbal⟩
  rw [List.foldlM_map]
  exact hok

/-- The sources of the edges into a block respect alike states. -/
theorem Invariant.respects_into (h : Invariant a ids pending r)
    (hclosed : ∀ {s t letter}, s ∈ ids → a.target? s letter = some t → t ∈ ids)
    (hfound : Incoming.Gathered a ids (r.partition.blockAt id) found) {entry : Char × IdSet}
    (hentry : entry ∈ found.entries) : Respects a ids entry.2 := by
  have hfind := Table.find?_eq_some_iff.mpr hentry
  have hmem : ∀ {s}, s ∈ entry.2 ↔
      s ∈ ids ∧ ∃ t ∈ r.partition.blockAt id, a.target? s entry.1 = some t := by
    intro s
    rw [← hfound, Incoming.under, hfind, Option.getD_some]
  have hone : ∀ {s t}, s ∈ ids → t ∈ ids → a.Alike s t → s ∈ entry.2 → t ∈ entry.2 := by
    intro s t hs ht halike hin
    obtain ⟨-, target, htarget, hedge⟩ := hmem.mp hin
    have hrel := halike.target? entry.1
    rw [hedge] at hrel
    cases hother : a.target? t entry.1 with
    | none =>
      rw [hother] at hrel
      cases hrel
    | some image =>
      rw [hother] at hrel
      cases hrel with
      | some himage =>
        have hsame := h.together (hclosed hs hedge) (hclosed ht hother) himage
        refine hmem.mpr ⟨ht, image, ?_, hother⟩
        rw [← h.coherent.partition.owner_iff, ← hsame, h.coherent.partition.owner_iff]
        exact htarget
  intro s t hs ht halike
  exact ⟨hone hs ht halike, hone ht hs halike.symm⟩

/-- When a block is taken from the worklist, the sources of the edges into it
are to be divided by. -/
theorem Invariant.pop (h : Invariant a ids [] r) {rest : Worklist}
    (hpop : r.worklist.pop? = some (id, rest))
    (hfound : Incoming.Gathered a ids (r.partition.blockAt id) found) :
    Invariant a ids found.entries ⟨r.partition, rest⟩ := by
  have hqueue := Worklist.queue_eq_cons_of_pop? hpop
  refine ⟨h.coherent.pop hpop, h.together, h.accepting, ?_⟩
  intro s t letter hs ht hst hwaiting hpending
  have hunder : ∀ {s t}, AgreeOnPending found.entries s t letter →
      s ∈ Incoming.under found letter → t ∈ Incoming.under found letter := by
    intro s t hagree hin
    obtain ⟨states, hentry, hmem⟩ := Incoming.mem_under.mp hin
    exact Incoming.mem_under.mpr ⟨states, hentry, (hagree states hentry).mp hmem⟩
  have harrives : ∀ {s}, s ∈ ids → (r.partition.arrives a s letter = some id ↔
      s ∈ Incoming.under found letter) := by
    intro s hs
    rw [hfound, Partition.arrives, Option.bind_eq_some_iff]
    simp only [h.coherent.partition.owner_iff, hs, true_and, and_comm]
  refine h.settled hs ht hst ?_ fun _ hnone => absurd hnone List.not_mem_nil
  intro other hother
  rw [hqueue] at hother
  rcases List.mem_cons.mp hother with rfl | hrest
  · rw [harrives hs, harrives ht]
    exact ⟨hunder hpending, hunder fun states hentry => (hpending states hentry).symm⟩
  · exact hwaiting other hrest

/-- A step of a refinement either finds nothing waiting, or takes a waiting
block and keeps the invariant and the balance. -/
theorem Invariant.step_spec (h : Invariant a ids [] r)
    (hclosed : ∀ {s t letter}, s ∈ ids → a.target? s letter = some t → t ∈ ids)
    (hrange : ∀ s ∈ ids, s < a.numStates) (hindex : Incoming.Indexes a ids incoming) :
    r.step incoming = .ok none ∧ r.worklist.queue = [] ∨
      ∃ splitter next, r.step incoming = .ok (some (splitter, next)) ∧
        Invariant a ids [] next ∧
        next.worklist.queue.length + 1 + r.partition.nextId =
          r.worklist.queue.length + next.partition.nextId := by
  cases hpop : r.worklist.pop? with
  | none =>
    left
    refine ⟨?_, Worklist.pop?_eq_none_iff.mp hpop⟩
    rw [step, hpop]
  | some taken =>
    obtain ⟨id, rest⟩ := taken
    right
    have hqueue := Worklist.queue_eq_cons_of_pop? hpop
    have hid : id < r.partition.nextId := h.coherent.queued (hqueue ▸ List.mem_cons_self)
    have hblock : ∀ t ∈ r.partition.blockAt id, t < a.numStates := fun t ht =>
      hrange t (h.coherent.mem_ids ht)
    obtain ⟨found, hinto, hfound⟩ := hindex.into_spec hblock
    have hpopped := h.pop hpop hfound
    obtain ⟨next, hok, hinv, hbal⟩ := hpopped.divideEach_spec fun entry hentry =>
      hpopped.respects_into hclosed hfound hentry
    refine ⟨r.partition.blockAt id, next, ?_, hinv, ?_⟩
    · have hsplit : splitBy incoming ⟨r.partition, rest⟩ (r.partition.blockAt id) = .ok next := by
        rw [splitBy, hinto]
        exact hok
      simp [step, hpop, h.coherent.partition.get_eq_ok hid, hsplit, bind, Except.bind, pure,
        Except.pure]
    · unfold Balanced at hbal
      dsimp only at hbal
      rw [hqueue, List.length_cons]
      omega

/-- There are no more blocks than listed states. -/
theorem Coherent.nextId_le (h : r.Coherent ids) : r.partition.nextId ≤ ids.length := by
  have hchoice : ∀ id : Fin r.partition.nextId, ∃ s, s ∈ r.partition.blockAt id := fun id =>
    h.inhabited id.isLt
  choose pick hpick using hchoice
  have hinj : Function.Injective pick := by
    intro i j hij
    have hi := h.partition.owner_iff.mpr (hpick i)
    have hj := h.partition.owner_iff.mpr (hpick j)
    rw [hij, hj, Option.some.injEq] at hi
    exact Fin.ext hi.symm
  have hsub : (List.finRange r.partition.nextId).map pick ⊆ ids := by
    intro s hs
    obtain ⟨i, -, rfl⟩ := List.mem_map.mp hs
    exact h.mem_ids (hpick i)
  have hnodup := (List.nodup_finRange r.partition.nextId).map hinj
  have hlen := hnodup.length_le_of_subset hsub
  rwa [List.length_map, List.length_finRange] at hlen

/-- A refinement goes on from one state to another, the sets that it splits by
being listed in order. -/
inductive Trace (incoming : Incoming) : Refinement → List IdSet → Refinement → Prop where
  /-- No step. -/
  | done (r : Refinement) : Trace incoming r [] r
  /-- A step and what follows it. -/
  | step {r next last : Refinement} {splitter : IdSet} {splitters : List IdSet}
      (here : r.step incoming = .ok (some (splitter, next)))
      (later : Trace incoming next splitters last) :
      Trace incoming r (splitter :: splitters) last

/-- Given one unit of fuel more than there can be steps, a refinement goes on
until nothing waits. -/
theorem Invariant.run_spec
    (hclosed : ∀ {s t letter}, s ∈ ids → a.target? s letter = some t → t ∈ ids)
    (hrange : ∀ s ∈ ids, s < a.numStates) (hindex : Incoming.Indexes a ids incoming) (fuel : Nat)
    (h : Invariant a ids [] r)
    (hfuel : r.worklist.queue.length + ids.length < fuel + r.partition.nextId) :
    ∃ splitters last, Trace incoming r splitters last ∧ last.step incoming = .ok none ∧
      last.worklist.queue = [] ∧ Invariant a ids [] last ∧ r.run incoming fuel = .ok last := by
  induction fuel generalizing r with
  | zero =>
    have hle := h.coherent.nextId_le
    omega
  | succ fuel ih =>
    rcases h.step_spec hclosed hrange hindex with
      ⟨hstop, hempty⟩ | ⟨splitter, next, hstep, hinv, hlen⟩
    · refine ⟨[], r, .done r, hstop, hempty, h, ?_⟩
      simp [run, hstop, bind, Except.bind, pure, Except.pure]
    · obtain ⟨splitters, last, htrace, hstop, hempty, hlast, hrun⟩ := ih hinv (by omega)
      refine ⟨splitter :: splitters, last, .step hstep htrace, hstop, hempty, hlast, ?_⟩
      simp [run, hstep, bind, Except.bind, hrun]

end Refinement

end WordPattern
