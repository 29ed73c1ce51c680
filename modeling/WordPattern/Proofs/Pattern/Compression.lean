import Mathlib.Data.Char
import Mathlib.Data.List.Sort
import WordPattern.Proofs.Pattern.Rendering

/-!
# Compressed classes

Ranges are compressed if they ascend, hold the members of a set and nothing else,
and touch neither each other nor the numbers of surrogates, which are no
characters. The runs of an ascending list are the only compressed ranges for it.
What is written for a class is read as ranges that have as many code points as
the class has members, and the same ones, so a dash stands for members only. How
a class is matched when letter case does not count is not described here.
-/

namespace WordPattern.Pattern

variable {ranges : List (Char × Char)} {cs : List Char} {n : Nat}

/-- Ascending ranges that could not be joined and hold the characters of a list and
no others. -/
structure Compressed (ranges : List (Char × Char)) (cs : List Char) : Prop
    extends Separate ranges where
  /-- A range ends before all later ones begin, so no two share a character. -/
  ascending : ranges.Pairwise fun range later => range.2 < later.1
  /-- A character lies in one of the ranges exactly if it is listed. -/
  covers : ∀ c, Covers ranges c ↔ c ∈ cs
  /-- No range reaches over the numbers of surrogates. -/
  unbroken : ∀ range ∈ ranges, ¬ (range.1.toNat ≤ 0xD7FF ∧ 0xE000 ≤ range.2.toNat)

/-- Ranges ascend exactly if their code points do. -/
theorem pairwise_codePoints_iff (h : ∀ range ∈ ranges, range.1 ≤ range.2) :
    (codePoints ranges).Pairwise (· < ·) ↔
      ranges.Pairwise fun range later => range.2 < later.1 := by
  have hwithin : ∀ range ∈ ranges, (codePointsOf range).Pairwise (· < ·) :=
    fun range _ => List.pairwise_lt_range'
  rw [codePoints, List.pairwise_flatMap, and_iff_right hwithin]
  refine List.Pairwise.iff_of_mem fun {range later} hrange hlater => ?_
  have hle := le_iff_toNat_le.mp (h range hrange)
  have hle' := le_iff_toNat_le.mp (h later hlater)
  rw [lt_iff_toNat_lt]
  constructor
  · intro hall
    exact hall _ (mem_codePointsOf.mpr ⟨hle, le_rfl⟩) _ (mem_codePointsOf.mpr ⟨le_rfl, hle'⟩)
  · intro hlt m hm n hn
    rw [mem_codePointsOf] at hm hn
    omega

/-- A number between those of two characters is a character's, unless these stand on
different sides of the surrogates. -/
theorem exists_char_between {first last : Char}
    (hsame : ¬ (first.toNat ≤ 0xD7FF ∧ 0xE000 ≤ last.toNat)) (hfirst : first.toNat ≤ n)
    (hlast : n ≤ last.toNat) : ∃ c : Char, c.toNat = n := by
  have hvalid : n.isValidChar := by
    have hfirst' : first.toNat.isValidChar := first.valid
    have hlast' : last.toNat.isValidChar := last.valid
    unfold Nat.isValidChar at *
    omega
  refine ⟨Char.ofNat n, ?_⟩
  rw [Char.ofNat, dif_pos hvalid]
  rfl

/-- Surrogates have no characters. -/
theorem toNat_ne_surrogate (c : Char) : c.toNat ≠ 0xD800 := by
  have hvalid : c.toNat.isValidChar := c.valid
  unfold Nat.isValidChar at hvalid
  omega

theorem pairwise_map_toNat (h : cs.Pairwise (· < ·)) :
    (cs.map Char.toNat).Pairwise (· < ·) :=
  h.map Char.toNat fun _ _ => lt_iff_toNat_lt.mp

/-- Ranges that gather an ascending list are compressed. -/
theorem Gathers.compressed (h : Gathers ranges cs) (hcs : cs.Pairwise (· < ·)) :
    Compressed ranges cs := by
  have hcodes := h.codePoints_eq
  refine ⟨h.toSeparate, ?_, fun c => covers_iff_mem (.of_eq hcodes), ?_⟩
  · rw [← pairwise_codePoints_iff h.ordered, hcodes]
    exact pairwise_map_toNat hcs
  · rintro range hrange ⟨hfirst, hlast⟩
    -- the first surrogate would be the number of a listed character
    have hin : 0xD800 ∈ codePoints ranges :=
      List.mem_flatMap.mpr ⟨range, hrange, mem_codePointsOf.mpr ⟨by omega, by omega⟩⟩
    rw [hcodes] at hin
    obtain ⟨c, -, hc⟩ := List.mem_map.mp hin
    exact toNat_ne_surrogate c hc

/-- Compressed ranges have the numbers of the listed characters. -/
theorem Compressed.mem_codePoints_iff (h : Compressed ranges cs) :
    n ∈ codePoints ranges ↔ n ∈ cs.map Char.toNat := by
  have hchar : ∀ c : Char, c.toNat ∈ codePoints ranges ↔ c ∈ cs := fun c =>
    covers_iff.symm.trans (h.covers c)
  rw [List.mem_map]
  constructor
  · intro hn
    obtain ⟨range, hrange, hin⟩ := List.mem_flatMap.mp hn
    obtain ⟨hfirst, hlast⟩ := mem_codePointsOf.mp hin
    obtain ⟨c, rfl⟩ := exists_char_between (h.unbroken range hrange) hfirst hlast
    exact ⟨c, (hchar c).mp hn, rfl⟩
  · rintro ⟨c, hc, rfl⟩
    exact (hchar c).mpr hc

/-- Compressed ranges for an ascending list gather it. -/
theorem Compressed.gathers (h : Compressed ranges cs) (hcs : cs.Pairwise (· < ·)) :
    Gathers ranges cs := by
  refine ⟨h.toSeparate, ?_⟩
  exact ((pairwise_codePoints_iff h.ordered).mpr h.ascending).eq_of_mem_iff
    (pairwise_map_toNat hcs) fun _ => h.mem_codePoints_iff

/-- What is written for a class is read as one token, whose ranges have the numbers of
the members. -/
theorem tokenize_renderClass (flags : Flags) {members : List Char} (hne : members ≠ []) :
    ∃ ranges, tokenize flags (renderClass flags members) = some [.oneOf ranges] ∧
      (codePoints ranges).Perm (members.map Char.toNat) := by
  obtain ⟨text, ranges, htext, hlisted, hperm⟩ := listed_renderClass flags members
  refine ⟨ranges, Reads.tokenize ?_, hperm⟩
  rw [(kept_renderClass flags members).shown_eq, htext]
  exact hlisted.yields_class (ne_nil_of_perm hperm hne)

/-- The runs of an ascending list are the only compressed ranges for it. Of any members,
sorted, the runs have as many code points as there are members. What is written for a
class with members, under any flags, is read as ranges whose code points are those of the
members, each as often as it is a member: a dash admits no other. -/
theorem runs_compressed (members : List Char) :
    (members.Pairwise (· < ·) → ∀ ranges, Compressed ranges members ↔ ranges = runs members) ∧
      (codePoints (runs (members.mergeSort (· ≤ ·)))).length = members.length ∧
      (members ≠ [] → ∀ flags, ∃ ranges,
        tokenize flags (renderClass flags members) = some [.oneOf ranges] ∧
          (codePoints ranges).Perm (members.map Char.toNat)) := by
  refine ⟨fun hmembers ranges => ?_, ?_, fun hne flags => tokenize_renderClass flags hne⟩
  · rw [← gathers_iff]
    exact ⟨fun h => h.gathers hmembers, fun h => h.compressed hmembers⟩
  · rw [(gathers_runs _).codePoints_eq, List.length_map, List.length_mergeSort]

/-- Characters around the surrogates and at the end of all characters, with runs of
one, two and three. -/
def aroundSurrogates : List Char :=
  ['a', 'b', 'c', 'e', Char.ofNat 0xD7FF, Char.ofNat 0xE000, Char.ofNat 0xE001,
    Char.ofNat 0x10FFFF]

theorem runs_compressed_aroundSurrogates :
    aroundSurrogates.Pairwise (· < ·) ∧ aroundSurrogates ≠ [] ∧
      Compressed [('a', 'c'), ('e', 'e'), (Char.ofNat 0xD7FF, Char.ofNat 0xD7FF),
        (Char.ofNat 0xE000, Char.ofNat 0xE001), (Char.ofNat 0x10FFFF, Char.ofNat 0x10FFFF)]
        aroundSurrogates ∧
      ∃ ranges, tokenize {} (renderClass {} aroundSurrogates) = some [.oneOf ranges] ∧
        (codePoints ranges).Perm (aroundSurrogates.map Char.toNat) := by
  have hascending : aroundSurrogates.Pairwise (· < ·) := by decide
  have hsome : aroundSurrogates ≠ [] := List.cons_ne_nil _ _
  obtain ⟨hcompressed, -, hread⟩ := runs_compressed aroundSurrogates
  exact ⟨hascending, hsome, (hcompressed hascending _).mpr rfl, hread hsome {}⟩

end WordPattern.Pattern
