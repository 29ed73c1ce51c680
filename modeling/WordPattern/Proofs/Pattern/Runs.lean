import Mathlib.Data.List.Chain
import WordPattern.Pattern.Render
import WordPattern.Proofs.Pattern.Grammar

/-!
# Runs of characters

Ranges stand for the code points between their ends, one range after the other.
Gathering characters into runs keeps their numbers and the order of these, for
any list, and no run begins right where the one before it ends. Only one row of
ranges is so: if the first range could end earlier, the next one would have to
begin right there.
-/

namespace WordPattern.Pattern

/-- The code points from one end of a range to the other. -/
def codePointsOf (range : Char × Char) : List Nat :=
  List.range' range.1.toNat (range.2.toNat + 1 - range.1.toNat)

/-- The code points of ranges, one range after the other. -/
def codePoints (ranges : List (Char × Char)) : List Nat := ranges.flatMap codePointsOf

variable {ranges others : List (Char × Char)} {range : Char × Char} {cs : List Char}
  {c first last : Char} {n : Nat}

/-- Characters are ordered by their numbers. -/
theorem le_iff_toNat_le {c d : Char} : c ≤ d ↔ c.toNat ≤ d.toNat :=
  UInt32.le_iff_toNat_le

theorem lt_iff_toNat_lt {c d : Char} : c < d ↔ c.toNat < d.toNat :=
  UInt32.lt_iff_toNat_lt

theorem mem_codePointsOf : n ∈ codePointsOf range ↔ range.1.toNat ≤ n ∧ n ≤ range.2.toNat := by
  rw [codePointsOf, List.mem_range'_1]
  omega

theorem codePointsOf_self (c : Char) : codePointsOf (c, c) = [c.toNat] := by
  rw [codePointsOf, Nat.add_sub_cancel_left]
  rfl

/-- A range may be cut behind any of its characters. -/
theorem codePointsOf_cut (hfirst : first ≤ c) (hlast : c ≤ last) :
    codePointsOf (first, last) =
      codePointsOf (first, c) ++ List.range' (c.toNat + 1) (last.toNat - c.toNat) := by
  rw [le_iff_toNat_le] at hfirst hlast
  have hnext : c.toNat + 1 = first.toNat + (c.toNat + 1 - first.toNat) := by omega
  have hcount : last.toNat + 1 - first.toNat =
      c.toNat + 1 - first.toNat + (last.toNat - c.toNat) := by omega
  rw [codePointsOf, codePointsOf, hcount, ← List.range'_append_1, ← hnext]

theorem codePoints_cons :
    codePoints (range :: ranges) = codePointsOf range ++ codePoints ranges :=
  List.flatMap_cons

theorem codePoints_append :
    codePoints (ranges ++ others) = codePoints ranges ++ codePoints others :=
  List.flatMap_append

theorem codePoints_singleton : codePoints [range] = codePointsOf range := by
  rw [codePoints, List.flatMap_singleton]

/-- A character lies in one of the ranges if its number is one of theirs. -/
theorem covers_iff : Covers ranges c ↔ c.toNat ∈ codePoints ranges := by
  simp only [Covers, codePoints, List.mem_flatMap, mem_codePointsOf, le_iff_toNat_le]

/-- Ranges with the numbers of a list, in any order, hold its characters. -/
theorem covers_iff_mem (h : (codePoints ranges).Perm (cs.map Char.toNat)) :
    Covers ranges c ↔ c ∈ cs := by
  rw [covers_iff, h.mem_iff]
  exact List.mem_map_of_injective fun _ _ => Char.toNat_inj.mp

/-- Some range has the numbers of a list that is not empty. -/
theorem ne_nil_of_perm (h : (codePoints ranges).Perm (cs.map Char.toNat)) (hne : cs ≠ []) :
    ranges ≠ [] := by
  rintro rfl
  exact hne (List.map_eq_nil_iff.mp h.nil_eq.symm)

/-- Ranges that could not be joined: none begins right where the one before it
ends. -/
structure Separate (ranges : List (Char × Char)) : Prop where
  /-- The ends of a range are in order. -/
  ordered : ∀ range ∈ ranges, range.1 ≤ range.2
  /-- Neighbours do not follow right upon each other. -/
  apart : ranges.IsChain fun range next => range.2.toNat + 1 ≠ next.1.toNat

theorem Separate.tail (h : Separate (range :: ranges)) : Separate ranges :=
  ⟨(List.forall_mem_cons.mp h.ordered).2, h.apart.tail⟩

/-- The first code point is that of the first character. -/
theorem Separate.head (h : Separate (range :: ranges)) :
    (codePoints (range :: ranges)).head? = some range.1.toNat := by
  have hself := codePointsOf_cut (Char.le_refl range.1) (h.ordered range List.mem_cons_self)
  rw [codePoints_cons, hself, codePointsOf_self, List.append_assoc, List.singleton_append,
    List.head?_cons]

/-- Where code points begin with those of a range, the first of the ranges that have
them and could not be joined ends no earlier: what follows it would have to begin
right behind it. -/
theorem Separate.last_le {later : List Nat} {last' : Char}
    (h : Separate ((first, last) :: ranges))
    (hcodes : codePointsOf (first, last') ++ later = codePoints ((first, last) :: ranges)) :
    last' ≤ last := by
  by_contra hle
  rw [le_iff_toNat_le, Nat.not_le] at hle
  have hcut := codePointsOf_cut (h.ordered _ List.mem_cons_self) (le_iff_toNat_le.mpr hle.le)
  obtain ⟨more, hmore⟩ := Nat.exists_eq_add_one.mpr (Nat.sub_pos_of_lt hle)
  rw [hcut, codePoints_cons, List.append_assoc, List.append_cancel_left_eq, hmore,
    List.range'_succ] at hcodes
  cases ranges with
  | nil => cases hcodes
  | cons next ranges =>
    have hnext := h.tail.head
    rw [← hcodes, List.cons_append, List.head?_cons, Option.some_inj] at hnext
    exact (List.isChain_cons_cons.mp h.apart).1 hnext

/-- Ranges that could not be joined are determined by their code points. -/
theorem Separate.eq_of_codePoints_eq (h : Separate ranges) (h' : Separate others)
    (hcodes : codePoints ranges = codePoints others) : ranges = others := by
  induction ranges generalizing others with
  | nil =>
    cases others with
    | nil => rfl
    | cons range others =>
      have hhead := h'.head
      rw [← hcodes] at hhead
      cases hhead
  | cons range ranges ih =>
    cases others with
    | nil =>
      have hhead := h.head
      rw [hcodes] at hhead
      cases hhead
    | cons other others =>
      obtain ⟨first, last⟩ := range
      obtain ⟨first', last'⟩ := other
      have hheads := h.head
      rw [hcodes, h'.head] at hheads
      -- both first ranges begin with the same code point, and neither ends before the other
      obtain rfl : first' = first := Char.toNat_inj.mp (Option.some.inj hheads)
      have hle := h.last_le (codePoints_cons ▸ hcodes.symm)
      have hle' := h'.last_le (codePoints_cons ▸ hcodes)
      obtain rfl := Char.le_antisymm hle hle'
      rw [codePoints_cons, codePoints_cons, List.append_cancel_left_eq] at hcodes
      rw [ih h.tail h'.tail hcodes]

/-- Ranges that could not be joined and have the numbers of a list. -/
structure Gathers (ranges : List (Char × Char)) (cs : List Char) : Prop
    extends Separate ranges where
  /-- The code points are those of the list, in its order. -/
  codePoints_eq : codePoints ranges = cs.map Char.toNat

/-- A character that does not come right after the last range begins one of its own. -/
theorem Gathers.begin (h : Gathers ranges cs)
    (hgap : ∀ range ∈ ranges.getLast?, range.2.toNat + 1 ≠ c.toNat) :
    Gathers (ranges ++ [(c, c)]) (cs ++ [c]) := by
  refine ⟨⟨?_, ?_⟩, ?_⟩
  · exact List.forall_mem_append.mpr
      ⟨h.ordered, List.forall_mem_singleton.mpr (Char.le_refl c)⟩
  · refine List.isChain_append.mpr ⟨h.apart, List.isChain_singleton _, ?_⟩
    intro range hrange own hown
    obtain rfl := Option.some.inj hown
    exact hgap range hrange
  · rw [codePoints_append, codePoints_singleton, codePointsOf_self, h.codePoints_eq,
      List.map_append]
    rfl

/-- A character that comes right after the last range becomes its end. -/
theorem Gathers.lengthen (h : Gathers (ranges ++ [(first, last)]) cs)
    (hnext : last.toNat + 1 = c.toNat) : Gathers (ranges ++ [(first, c)]) (cs ++ [c]) := by
  obtain ⟨hordered, hends⟩ := List.forall_mem_append.mp h.ordered
  have hfirst : first ≤ last := hends _ List.mem_cons_self
  have hlast : last ≤ c := by
    rw [le_iff_toNat_le]
    omega
  refine ⟨⟨?_, ?_⟩, ?_⟩
  · exact List.forall_mem_append.mpr
      ⟨hordered, List.forall_mem_singleton.mpr (Char.le_trans hfirst hlast)⟩
  · obtain ⟨hbefore, -, hgap⟩ := List.isChain_append.mp h.apart
    refine List.isChain_append.mpr ⟨hbefore, List.isChain_singleton _, ?_⟩
    intro range hrange longer hlonger
    obtain rfl := Option.some.inj hlonger
    exact hgap range hrange (first, last) rfl
  · have hone : c.toNat - last.toNat = 1 := by omega
    have hcodes := h.codePoints_eq
    rw [codePoints_append, codePoints_singleton] at hcodes ⊢
    rw [codePointsOf_cut hfirst hlast, ← List.append_assoc, hcodes, hone, hnext, List.map_append]
    rfl

/-- Extending ranges by a character gathers this character too. The ranges are listed
last one first. -/
theorem Gathers.extend (h : Gathers ranges.reverse cs) (c : Char) :
    Gathers (extendRanges ranges c).reverse (cs ++ [c]) := by
  cases ranges with
  | nil =>
    refine h.begin fun range hrange => ?_
    cases hrange
  | cons range earlier =>
    obtain ⟨first, last⟩ := range
    rw [extendRanges]
    split
    · rename_i hnext
      rw [List.reverse_cons] at h ⊢
      exact h.lengthen hnext
    · rename_i hgap
      rw [List.reverse_cons]
      refine h.begin fun range hrange => ?_
      rw [List.getLast?_reverse, List.head?_cons] at hrange
      obtain rfl := Option.some.inj hrange
      exact hgap

/-- The runs of a list gather its characters. -/
theorem gathers_runs (cs : List Char) : Gathers (runs cs) cs := by
  -- characters are taken from the front, so each step is at the end of what was taken
  induction cs using List.reverseRecOn with
  | nil => exact ⟨⟨List.forall_mem_nil _, List.isChain_nil⟩, rfl⟩
  | append_singleton cs c ih =>
    rw [runs] at ih ⊢
    rw [List.foldl_append, List.foldl_cons, List.foldl_nil]
    exact ih.extend c

/-- No other ranges gather the characters of a list. -/
theorem gathers_iff : Gathers ranges cs ↔ ranges = runs cs := by
  refine ⟨fun h => ?_, fun h => h ▸ gathers_runs cs⟩
  refine h.toSeparate.eq_of_codePoints_eq (gathers_runs cs).toSeparate ?_
  rw [h.codePoints_eq, (gathers_runs cs).codePoints_eq]

end WordPattern.Pattern
