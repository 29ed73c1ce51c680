import Mathlib.Data.List.Nodup
import WordPattern.Table

/-!
# Looking into tables

A table is known by what stands under its keys: membership of an entry, each
operation and the list of values are put in terms of `find?`. The order of the
entries is not described here.
-/

namespace WordPattern.Table

variable {κ α β : Type} [DecidableEq κ]

/-- In a list with distinct keys, the first entry of a key is its only one. -/
theorem find?_entries_iff {entries : List (κ × α)} (hd : (entries.map Prod.fst).Nodup)
    (key : κ) (value : α) :
    (entries.find? fun entry => entry.1 = key).map Prod.snd = some value ↔
      (key, value) ∈ entries := by
  induction entries with
  | nil => simp
  | cons entry rest ih =>
    obtain ⟨k, v⟩ := entry
    rw [List.map_cons, List.nodup_cons] at hd
    obtain ⟨hfresh, hrest⟩ := hd
    by_cases hk : k = key
    · subst hk
      have hnot : ∀ w, (k, w) ∉ rest := by
        intro w hw
        exact hfresh (List.mem_map.mpr ⟨(k, w), hw, rfl⟩)
      simp [hnot, eq_comm]
    · have hne : key ≠ k := Ne.symm hk
      simpa [hk, hne] using ih hrest

/-- A key holds a value exactly when the entry is in the table. -/
theorem find?_eq_some_iff {table : Table κ α} {key : κ} {value : α} :
    table.find? key = some value ↔ (key, value) ∈ table.entries :=
  find?_entries_iff table.distinct key value

/-- No entry has a key under which nothing stands. -/
theorem ne_of_find?_eq_none {table : Table κ α} {key : κ} (h : table.find? key = none)
    {entry : κ × α} (hmem : entry ∈ table.entries) : entry.1 ≠ key := by
  intro he
  have hsome := find?_eq_some_iff.mpr hmem
  rw [he, h] at hsome
  cases hsome

/-- Nothing stands under what is not a key. -/
theorem find?_eq_none_iff {table : Table κ α} {key : κ} :
    table.find? key = none ↔ key ∉ table.keys := by
  constructor
  · intro h hkey
    obtain ⟨entry, hentry, rfl⟩ := List.mem_map.mp hkey
    exact ne_of_find?_eq_none h hentry rfl
  · intro h
    rw [Option.eq_none_iff_forall_ne_some]
    exact fun value hvalue => h (List.mem_map_of_mem (find?_eq_some_iff.mp hvalue))

/-- Removing what is not a key changes nothing. -/
theorem erase_eq_self {table : Table κ α} {key : κ} (h : table.find? key = none) :
    table.erase key = table := by
  obtain ⟨entries, hd⟩ := table
  simp only [erase, mk.injEq, List.filter_eq_self]
  exact fun entry hentry => decide_eq_true (ne_of_find?_eq_none h hentry)

/-- The values are what stands under the keys. -/
theorem mem_values {table : Table κ α} {value : α} :
    value ∈ table.values ↔ ∃ key, table.find? key = some value := by
  simp only [values, List.mem_map, find?_eq_some_iff]
  constructor
  · rintro ⟨⟨key, v⟩, hmem, rfl⟩
    exact ⟨key, hmem⟩
  · rintro ⟨key, hmem⟩
    exact ⟨(key, value), hmem, rfl⟩

@[simp] theorem find?_empty (key : κ) : (empty : Table κ α).find? key = none := rfl

/-- Two optional values agree when they hold the same values. -/
theorem find?_eq_of_iff {s : Table κ α} {o : Option α} {key : κ}
    (h : ∀ value, (key, value) ∈ s.entries ↔ o = some value) : s.find? key = o := by
  ext value
  rw [find?_eq_some_iff, h value]

/-- Converting the values converts what stands under each key. -/
@[simp] theorem find?_map (table : Table κ α) (f : α → β) (key : κ) :
    (table.map f).find? key = (table.find? key).map f := by
  apply find?_eq_of_iff
  intro value
  simp only [map, List.mem_map, Option.map_eq_some_iff, find?_eq_some_iff]
  constructor
  · rintro ⟨⟨k, v⟩, hmem, he⟩
    cases he
    exact ⟨v, hmem, rfl⟩
  · rintro ⟨v, hmem, rfl⟩
    exact ⟨(key, v), hmem, rfl⟩

/-- Keeping the values that can be converted does so under each key. -/
@[simp] theorem find?_filterMap (table : Table κ α) (f : α → Option β) (key : κ) :
    (table.filterMap f).find? key = (table.find? key).bind f := by
  apply find?_eq_of_iff
  intro value
  simp only [filterMap, List.mem_filterMap, Option.bind_eq_some_iff, find?_eq_some_iff]
  constructor
  · rintro ⟨⟨k, v⟩, hmem, he⟩
    obtain ⟨w, hw, hpair⟩ := Option.map_eq_some_iff.mp he
    cases hpair
    exact ⟨v, hmem, hw⟩
  · rintro ⟨v, hmem, hv⟩
    refine ⟨(key, v), hmem, ?_⟩
    simp [hv]

/-- A value that is put in stands under its key, and nothing else changes. -/
theorem find?_insert (table : Table κ α) (key k : κ) (value : α) :
    (table.insert key value).find? k = if k = key then some value else table.find? k := by
  by_cases hk : k = key
  · subst hk
    rw [if_pos rfl, insert, find?_alter_self]
  · rw [if_neg hk, insert, find?_alter_of_ne _ _ hk]

/-- A value that is merged in stands under its key, combined with a value from
before, and nothing else changes. -/
theorem find?_merge (f : α → α → α) (table : Table κ α) (key k : κ) (value : α) :
    (table.merge f key value).find? k =
      if k = key then some ((table.find? key).elim value (f · value)) else table.find? k := by
  by_cases hk : k = key
  · subst hk
    rw [if_pos rfl, merge, find?_alter_self]
    cases table.find? k <;> rfl
  · rw [if_neg hk, merge, find?_alter_of_ne _ _ hk]

/-- Removing a key leaves every other key alone. -/
theorem find?_erase (table : Table κ α) (key k : κ) :
    (table.erase key).find? k = if k = key then none else table.find? k := by
  apply find?_eq_of_iff
  intro value
  simp only [erase, List.mem_filter, decide_eq_true_eq]
  split
  · rename_i hk
    simp [hk]
  · rename_i hk
    rw [find?_eq_some_iff, and_iff_left hk]

/-- Merging a converted table in combines what stands under each key. -/
theorem find?_foldl_merge (f : α → α → α) (g : β → α) (other : Table κ β) (table : Table κ α)
    (key : κ) :
    (other.entries.foldl (fun merged entry => merged.merge f entry.1 (g entry.2)) table).find? key =
      (table.find? key).merge f ((other.find? key).map g) := by
  obtain ⟨entries, hd⟩ := other
  change _ = (table.find? key).merge f
    (((entries.find? fun entry => entry.1 = key).map Prod.snd).map g)
  induction entries generalizing table with
  | nil => cases h : table.find? key <;> simp [h]
  | cons entry rest ih =>
    obtain ⟨k, v⟩ := entry
    rw [List.map_cons, List.nodup_cons] at hd
    rw [List.foldl_cons, ih _ hd.2, find?_merge]
    by_cases hk : key = k
    · -- The key comes only once, so nothing more is merged under it.
      have hnone : rest.find? (fun entry => entry.1 = key) = none := by
        rw [List.find?_eq_none]
        intro entry hentry he
        exact hd.1 (List.mem_map.mpr ⟨entry, hentry, (of_decide_eq_true he).trans hk⟩)
      rw [if_pos hk, hnone, List.find?_cons_of_pos (by simp [hk])]
      subst hk
      cases table.find? key <;> rfl
    · rw [if_neg hk, List.find?_cons_of_neg (by simpa using Ne.symm hk)]

/-- An altered entry is changed in its place, or comes last if its key is new. -/
theorem alterEntries_cases (key : κ) (f : Option α → α) (entries : List (κ × α)) :
    (∃ before value after, entries = before ++ (key, value) :: after ∧
      alterEntries key f entries = before ++ (key, f (some value)) :: after) ∨
      alterEntries key f entries = entries ++ [(key, f none)] := by
  induction entries with
  | nil => exact Or.inr rfl
  | cons entry rest ih =>
    obtain ⟨k, v⟩ := entry
    rw [alterEntries]
    split
    · rename_i hk
      subst hk
      exact Or.inl ⟨[], v, rest, rfl, rfl⟩
    · rcases ih with ⟨before, value, after, hrest, halter⟩ | hlast
      · exact Or.inl ⟨(k, v) :: before, value, after, by rw [hrest, List.cons_append],
          by rw [halter, List.cons_append]⟩
      · exact Or.inr (by rw [hlast, List.cons_append])

/-- A value that is merged in is combined with one from before in its place, or
comes last. -/
theorem merge_cases (f : α → α → α) (table : Table κ α) (key : κ) (value : α) :
    (∃ before old after, table.entries = before ++ (key, old) :: after ∧
      (table.merge f key value).entries = before ++ (key, f old value) :: after) ∨
      (table.merge f key value).entries = table.entries ++ [(key, value)] :=
  alterEntries_cases key _ table.entries

/-- The entries are that of a key and the others. -/
theorem perm_cons_erase {table : Table κ α} {key : κ} {value : α}
    (h : table.find? key = some value) :
    table.entries.Perm ((key, value) :: (table.erase key).entries) := by
  have hnodup : table.entries.Nodup := List.Nodup.of_map Prod.fst table.distinct
  have hfresh : (key, value) ∉ (table.erase key).entries := by simp [erase]
  refine (List.perm_ext_iff_of_nodup hnodup
    (List.nodup_cons.mpr ⟨hfresh, hnodup.filter _⟩)).mpr fun entry => ?_
  rw [List.mem_cons, erase, List.mem_filter, decide_eq_true_eq]
  constructor
  · intro hmem
    by_cases hk : entry.1 = key
    · have hvalue := find?_eq_some_iff.mpr hmem
      rw [hk, h, Option.some.injEq] at hvalue
      exact Or.inl (Prod.ext hk hvalue.symm)
    · exact Or.inr ⟨hmem, hk⟩
  · intro hmem
    rcases hmem with rfl | ⟨hmem, -⟩
    · exact find?_eq_some_iff.mp h
    · exact hmem

end WordPattern.Table
