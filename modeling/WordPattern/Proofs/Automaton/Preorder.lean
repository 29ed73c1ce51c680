import Mathlib.Data.List.Basic
import Mathlib.Logic.Relation
import WordPattern.Proofs.Automaton.Reachable

/-!
# Detours in depth-first preorder

When the traversal goes on with the states of its stack, each unseen state that
they lead to is entered on the first way that is open: some state of the stack
leads there and is listed no later. Applied to the successors of a state that is
just being entered, this gives a detour. If an edge of a state leads far ahead in
the order and from there back to a listed state, another edge of it leads to that
state without going so far ahead.
-/

namespace WordPattern.Automaton

variable {a : Automaton} {p q k : StateId} {unseen order : List StateId}

/-- An edge leads from one state into another one that is listed. -/
def EdgeInto (a : Automaton) (within : List StateId) (p q : StateId) : Prop :=
  q ∈ within ∧ q ∈ (a.stateAt p).successors

/-- A way within listed states. -/
abbrev Leads (a : Automaton) (within : List StateId) : StateId → StateId → Prop :=
  Relation.ReflTransGen (a.EdgeInto within)

theorem Leads.mono {within wider : List StateId} (h : a.Leads within p q)
    (hsub : within ⊆ wider) : a.Leads wider p q :=
  Relation.ReflTransGen.mono (fun _ _ hedge => ⟨hsub hedge.1, hedge.2⟩) _ _ h

/-- A way within listed states stays within those of them that follow each
other. -/
theorem Leads.within {within : List StateId} (h : a.Leads unseen p q) (hp : p ∈ within)
    (hclosed : ∀ id ∈ within, ∀ next ∈ (a.stateAt id).successors, next ∈ unseen → next ∈ within) :
    a.Leads within p q ∧ q ∈ within := by
  induction h with
  | refl => exact ⟨.refl, hp⟩
  | tail _ hedge ih =>
    have hmem := hclosed _ ih.2 _ hedge.2 hedge.1
    exact ⟨ih.1.tail ⟨hmem, hedge.2⟩, hmem⟩

/-- If a way comes by a state, it leads on from there, and else it avoids it. -/
theorem Leads.avoid (h : a.Leads unseen p k) (id : StateId) :
    a.Leads unseen id k ∨ a.Leads (unseen.erase id) p k := by
  induction h using Relation.ReflTransGen.head_induction_on with
  | refl => exact Or.inr .refl
  | @head p next hedge hrest ih =>
    by_cases he : next = id
    · exact Or.inl (he ▸ hrest)
    · exact ih.imp_right fun havoid =>
        .head ⟨(List.mem_erase_of_ne he).mpr hedge.1, hedge.2⟩ havoid

/-- What states on top of the stack lead to through unseen states comes behind an
unseen one of them that leads there. -/
theorem Closed.preorderFrom_first (h : a.Closed) {top rest : List StateId}
    (hstack : ∀ id ∈ top ++ rest, a.Reachable id)
    (hok : a.preorderFrom unseen (top ++ rest) = .ok order) (hp : p ∈ top) (hunseen : p ∈ unseen)
    (hleads : a.Leads unseen p k) :
    ∃ first ∈ top, first ∈ unseen ∧ order.idxOf first ≤ order.idxOf k ∧
      a.Leads unseen first k := by
  generalize hs : top ++ rest = stack at hstack hok
  induction unseen, stack using preorderFrom.induct a generalizing top p order with
  | case1 unseen =>
    rw [(List.append_eq_nil_iff.mp hs).1] at hp
    cases hp
  | case2 unseen id below hid ih =>
    obtain ⟨hreach, hbelow⟩ := List.forall_mem_cons.mp hstack
    cases top with
    | nil => cases hp
    | cons _ top =>
      cases hs
      rw [preorderFrom_of_mem hid (h.lt hreach), map_eq_ok_iff] at hok
      obtain ⟨later, hlater, rfl⟩ := hok
      rcases Classical.em (a.Leads unseen id k) with hdirect | hdirect
      · exact ⟨id, List.mem_cons_self, hid, by simp, hdirect⟩
      · -- No way to `k` comes by `id`, so a successor of `id` is not the first on one.
        have hk : id ≠ k := fun he => hdirect (he ▸ .refl)
        have hne : p ≠ id := fun he => hdirect (he ▸ hleads)
        obtain ⟨first, hfirst, hin, hle, hfollow⟩ := ih (a.stateAt id)
          (List.mem_append_right _ ((List.mem_cons.mp hp).resolve_left hne))
          ((List.mem_erase_of_ne hne).mpr hunseen) ((hleads.avoid id).resolve_left hdirect)
          (List.append_assoc _ _ _) (List.forall_mem_append.mpr ⟨hreach.successors, hbelow⟩) hlater
        have hin' := List.mem_of_mem_erase hin
        have hfollow' := hfollow.mono List.erase_subset
        have hlisted : first ∈ top := (List.mem_append.mp hfirst).resolve_left
          fun hsucc => hdirect (.head ⟨hin', hsucc⟩ hfollow')
        have hfirst' : id ≠ first := fun he => hdirect (he ▸ hfollow')
        refine ⟨first, List.mem_cons_of_mem _ hlisted, hin', ?_, hfollow'⟩
        rw [List.idxOf_cons_ne _ hk, List.idxOf_cons_ne _ hfirst']
        exact Nat.succ_le_succ hle
  | case3 unseen id below hid hlt ih =>
    cases top with
    | nil => cases hp
    | cons _ top =>
      cases hs
      rw [preorderFrom_of_notMem hid hlt] at hok
      have hne : p ≠ id := fun he => hid (he ▸ hunseen)
      obtain ⟨first, hfirst, hin, hle, hfollow⟩ := ih
        ((List.mem_cons.mp hp).resolve_left hne) hunseen hleads rfl
        (List.forall_mem_cons.mp hstack).2 hok
      exact ⟨first, List.mem_cons_of_mem _ hfirst, hin, hle, hfollow⟩
  | case4 unseen id below hid hlt => exact absurd (h.lt (hstack id List.mem_cons_self)) hlt

/-- A listed state is entered at some time, and what is listed behind it is what
the traversal lists when it goes on with the successors of the state. -/
theorem Closed.preorderFrom_entered (h : a.Closed) {stack before after : List StateId}
    (hnodup : unseen.Nodup) (hstack : ∀ id ∈ stack, a.Reachable id)
    (hok : a.preorderFrom unseen stack = .ok (before ++ p :: after)) :
    ∃ unseen rest, unseen.Nodup ∧ (∀ id ∈ (a.stateAt p).successors ++ rest, a.Reachable id) ∧
      a.preorderFrom unseen ((a.stateAt p).successors ++ rest) = .ok after := by
  induction unseen, stack using preorderFrom.induct a generalizing before with
  | case1 unseen =>
    rw [preorderFrom, Except.ok.injEq] at hok
    exact absurd hok.symm (List.append_ne_nil_of_right_ne_nil _ (List.cons_ne_nil _ _))
  | case2 unseen id below hid ih =>
    obtain ⟨hreach, hbelow⟩ := List.forall_mem_cons.mp hstack
    have hnext := List.forall_mem_append.mpr ⟨hreach.successors, hbelow⟩
    rw [preorderFrom_of_mem hid (h.lt hreach), map_eq_ok_iff] at hok
    obtain ⟨later, hlater, hlist⟩ := hok
    cases before with
    | nil =>
      cases hlist
      exact ⟨_, below, hnodup.erase _, hnext, hlater⟩
    | cons _ before =>
      cases hlist
      exact ih _ (hnodup.erase _) hnext hlater
  | case3 unseen id below hid hlt ih =>
    rw [preorderFrom_of_notMem hid hlt] at hok
    exact ih hnodup (List.forall_mem_cons.mp hstack).2 hok
  | case4 unseen id below hid hlt => exact absurd (h.lt (hstack id List.mem_cons_self)) hlt

/-- If a state has an edge to one that is listed behind `k` and leads on to `k`,
it also has an edge to one that is listed no later than `k` and leads there. -/
theorem Closed.preorder_detour (h : a.Closed) {before between behind : List StateId}
    (hok : a.preorder = .ok (before ++ p :: (between ++ k :: behind)))
    (hedge : q ∈ (a.stateAt p).successors) (hq : q ∈ behind)
    (hleads : a.Leads (k :: behind) q k) :
    ∃ first ∈ (a.stateAt p).successors, first ∈ between ++ [k] ∧
      a.Leads (between ++ k :: behind) first k := by
  obtain ⟨unseen, rest, hnodup, hstack, hafter⟩ :=
    h.preorderFrom_entered List.nodup_range (List.forall_mem_singleton.mpr .start) hok
  obtain ⟨after, hok', hdistinct, hsub, -, htaken, hclosed⟩ :=
    h.preorderFrom_spec unseen _ hnodup hstack
  obtain rfl := Except.ok.inj (hafter.symm.trans hok')
  have hbehind : k :: behind ⊆ between ++ k :: behind := List.subset_append_right _ _
  obtain ⟨first, hfirst, hunseen, hle, hfollow⟩ := h.preorderFrom_first hstack hafter hedge
    (hsub (hbehind (List.mem_cons_of_mem _ hq))) (hleads.mono fun id hid => hsub (hbehind hid))
  have hin := htaken first (List.mem_append_left _ hfirst) hunseen
  refine ⟨first, hfirst, ?_, (hfollow.within hin hclosed).1⟩
  have hk : k ∉ between := fun hmem =>
    (List.nodup_append.mp hdistinct).2.2 k hmem k List.mem_cons_self rfl
  rw [List.idxOf_append_of_notMem hk, List.idxOf_cons_self] at hle
  rw [List.mem_append, List.mem_singleton]
  by_contra hlate
  obtain ⟨hbetween, hne⟩ := not_or.mp hlate
  rw [List.idxOf_append_of_notMem hbetween, List.idxOf_cons_ne _ (Ne.symm hne)] at hle
  omega

end WordPattern.Automaton
