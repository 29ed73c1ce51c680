/-!
# Tables that remember the order of insertion

A table holds at most one value under each key. Giving a key a new value keeps
the place of the key, so the order in which keys first arrived belongs to the
table and to its equality. Every operation scans the entries; the tables of
this library are short.
-/

namespace WordPattern

/-- Entries in the order in which their keys arrived. -/
structure Table (κ α : Type) where
  /-- The keys with their values. -/
  entries : List (κ × α) := []
  /-- No key occurs twice. -/
  distinct : (entries.map Prod.fst).Nodup := by simp
deriving DecidableEq

namespace Table

variable {κ α β : Type}

/-- The table without entries. -/
def empty : Table κ α := {}

/-- The keys in order of arrival. -/
def keys (table : Table κ α) : List κ := table.entries.map Prod.fst

/-- The values in order of their keys' arrival. -/
def values (table : Table κ α) : List α := table.entries.map Prod.snd

/-- Keeps the entries whose value `f` can convert, with the converted value. -/
def filterMap (f : α → Option β) (table : Table κ α) : Table κ β where
  entries := table.entries.filterMap fun entry => (f entry.2).map (entry.1, ·)
  distinct := by
    have key : ∀ entries : List (κ × α),
        (entries.filterMap fun entry => (f entry.2).map (entry.1, ·)).map Prod.fst
          |>.Sublist (entries.map Prod.fst) := by
      intro entries
      induction entries with
      | nil => simp
      | cons entry rest ih =>
        cases h : f entry.2 with
        | none => simpa [h] using ih.cons entry.1
        | some value => simpa [h] using ih
    exact table.distinct.sublist (key table.entries)

/-- Converts every value by `f`. -/
def map (f : α → β) (table : Table κ α) : Table κ β where
  entries := table.entries.map fun entry => (entry.1, f entry.2)
  distinct := by simpa [Function.comp_def] using table.distinct

variable [DecidableEq κ]

/-- The value under `key`. -/
def find? (table : Table κ α) (key : κ) : Option α :=
  (table.entries.find? fun entry => entry.1 = key).map Prod.snd

/-- Entries in which the value under `key` is `f` of what stood there before,
the key coming last if it is new. -/
def alterEntries (key : κ) (f : Option α → α) : List (κ × α) → List (κ × α)
  | [] => [(key, f none)]
  | (k, value) :: rest =>
    if k = key then (k, f (some value)) :: rest else (k, value) :: alterEntries key f rest

/-- Altering an entry adds its key at most. -/
theorem mem_keys_alterEntries (key k : κ) (f : Option α → α) (entries : List (κ × α)) :
    k ∈ (alterEntries key f entries).map Prod.fst ↔ k = key ∨ k ∈ entries.map Prod.fst := by
  induction entries with
  | nil => simp [alterEntries]
  | cons entry rest ih => grind [alterEntries]

/-- Altering an entry keeps the keys distinct. -/
theorem nodup_keys_alterEntries (key : κ) (f : Option α → α) {entries : List (κ × α)}
    (h : (entries.map Prod.fst).Nodup) : ((alterEntries key f entries).map Prod.fst).Nodup := by
  induction entries with
  | nil => simp [alterEntries]
  | cons entry rest ih =>
    have hm := mem_keys_alterEntries key entry.1 f rest
    grind [alterEntries]

/-- Replaces the value under `key` by `f` of what stands there. -/
def alter (table : Table κ α) (key : κ) (f : Option α → α) : Table κ α :=
  ⟨alterEntries key f table.entries, nodup_keys_alterEntries key f table.distinct⟩

/-- Puts `value` under `key`. -/
def insert (table : Table κ α) (key : κ) (value : α) : Table κ α :=
  table.alter key fun _ => value

/-- Puts `value` under `key`, combined by `f` with a value that stands there. -/
def merge (f : α → α → α) (table : Table κ α) (key : κ) (value : α) : Table κ α :=
  table.alter key fun
    | none => value
    | some old => f old value

/-- Removes the entry of `key`. -/
def erase (table : Table κ α) (key : κ) : Table κ α where
  entries := table.entries.filter fun entry => entry.1 ≠ key
  distinct := table.distinct.sublist (List.filter_sublist.map Prod.fst)

/-- Whether both tables hold the same values under the same keys, in whatever
order. -/
def sameEntries [DecidableEq α] (a b : Table κ α) : Bool :=
  a.entries.length = b.entries.length &&
    a.entries.all fun entry => b.find? entry.1 = some entry.2

/-- After an alteration the altered key has its new value. -/
theorem find?_alter_self (table : Table κ α) (key : κ) (f : Option α → α) :
    (table.alter key f).find? key = some (f (table.find? key)) := by
  obtain ⟨entries, h⟩ := table
  simp only [alter, find?]
  clear h
  induction entries with
  | nil => simp [alterEntries]
  | cons entry rest ih => grind [alterEntries]

/-- An alteration leaves every other key alone. -/
theorem find?_alter_of_ne (table : Table κ α) {key k : κ} (f : Option α → α) (hk : k ≠ key) :
    (table.alter key f).find? k = table.find? k := by
  obtain ⟨entries, h⟩ := table
  simp only [alter, find?]
  clear h
  induction entries with
  | nil => simp [alterEntries, Ne.symm hk]
  | cons entry rest ih => grind [alterEntries]

end Table

end WordPattern
