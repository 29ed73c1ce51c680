import Mathlib.Data.List.Induction
import Mathlib.Data.List.Nodup

/-!
# Leaving out repeats

A list from which repeats are left out has each of its elements once, in the
order in which they first come. Renaming elements, different ones to different
ones, may be done before or after.
-/

namespace WordPattern

theorem nodup_eraseDups {α : Type} [DecidableEq α] (xs : List α) : xs.eraseDups.Nodup := by
  induction hn : xs.length using Nat.strongRecOn generalizing xs with
  | ind n ih =>
    cases xs with
    | nil => simp
    | cons x rest =>
      rw [List.eraseDups_cons, List.nodup_cons]
      have hlen := List.length_filter_le (fun y => !y == x) rest
      rw [List.length_cons] at hn
      refine ⟨?_, ih _ (by omega) _ rfl⟩
      rw [List.mem_eraseDups, List.mem_filter]
      simp

/-- Leaving out repeats keeps the order of what stays. -/
theorem eraseDups_sublist {α : Type} [BEq α] (xs : List α) : xs.eraseDups.Sublist xs := by
  induction hn : xs.length using Nat.strongRecOn generalizing xs with
  | ind n ih =>
    cases xs with
    | nil => simp
    | cons x rest =>
      rw [List.eraseDups_cons]
      have hlen := List.length_filter_le (fun y => !y == x) rest
      rw [List.length_cons] at hn
      exact ((ih _ (by omega) _ rfl).trans List.filter_sublist).cons_cons x

/-- What stays stands in the order in which it first comes. -/
theorem pairwise_idxOf_eraseDups {α : Type} [DecidableEq α] (xs : List α) :
    xs.eraseDups.Pairwise fun x y => xs.idxOf x < xs.idxOf y := by
  induction xs using List.reverseRecOn with
  | nil => simp
  | append_singleton xs last ih =>
    have hkept : xs.eraseDups.Pairwise
        fun x y => (xs ++ [last]).idxOf x < (xs ++ [last]).idxOf y := by
      refine List.Pairwise.imp_of_mem ?_ ih
      intro x y hx hy hlt
      rw [List.mem_eraseDups] at hx hy
      rwa [List.idxOf_append_of_mem hx, List.idxOf_append_of_mem hy]
    rw [List.eraseDups_append]
    by_cases hlast : last ∈ xs
    · simpa [List.removeAll, hlast] using hkept
    · have hrest : ([last].removeAll xs).eraseDups = [last] := by
        simp [List.removeAll, hlast, List.eraseDups_cons]
      rw [hrest, List.pairwise_append]
      refine ⟨hkept, List.pairwise_singleton _ last, ?_⟩
      intro x hx y hy
      rw [List.mem_eraseDups] at hx
      rw [List.mem_singleton.mp hy, List.idxOf_append_of_mem hx, List.idxOf_append_of_notMem hlast]
      exact Nat.lt_add_right _ (List.idxOf_lt_length_of_mem hx)

/-- Repeats are left out alike before and after renaming. -/
theorem eraseDups_map_eq {α β : Type} [BEq α] [LawfulBEq α] [BEq β] [LawfulBEq β] {f : α → β}
    {xs : List α} (h : ∀ x ∈ xs, ∀ y ∈ xs, f x = f y → x = y) :
    (xs.map f).eraseDups = xs.eraseDups.map f := by
  induction hn : xs.length using Nat.strongRecOn generalizing xs with
  | ind n ih =>
    cases xs with
    | nil => rfl
    | cons x rest =>
      have hsub : ∀ y ∈ rest.filter fun y => !y == x, y ∈ x :: rest := fun y hy =>
        List.mem_cons_of_mem x (List.mem_of_mem_filter hy)
      have hlen := List.length_filter_le (fun y => !y == x) rest
      rw [List.length_cons] at hn
      have htail := ih _ (by omega) (fun y hy z hz => h y (hsub y hy) z (hsub z hz)) rfl
      have hkeep : (rest.map f).filter (fun y => !y == f x) =
          (rest.filter fun y => !y == x).map f := by
        rw [List.filter_map]
        congr 1
        apply List.filter_congr
        intro y hy
        have hiff : f y = f x ↔ y = x :=
          ⟨h y (List.mem_cons_of_mem x hy) x List.mem_cons_self, congrArg f⟩
        simp [hiff]
      rw [List.map_cons, List.eraseDups_cons, List.eraseDups_cons, List.map_cons, hkeep, htail]

end WordPattern
