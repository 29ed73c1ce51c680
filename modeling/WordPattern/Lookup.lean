import WordPattern.Error

/-!
# Lookups that may be out of range

Rows are looked up by numbers that come from elsewhere, from the edges of an
automaton or from the blocks of a partition, and nothing about such a number
makes the row long enough. A lookup out of range is the error `noSuchState`.
-/

namespace WordPattern.Row

variable {α : Type} {row : Array α} {ids : List Nat} {id : Nat}

/-- Reads a place of a row. -/
def read (row : Array α) (id : Nat) : Except Error α :=
  match row[id]? with
  | some value => .ok value
  | none => .error (.noSuchState id)

/-- Changes a place of a row by `f`. -/
def change (row : Array α) (id : Nat) (f : α → α) : Except Error (Array α) :=
  if id < row.size then .ok (row.modify id f) else .error (.noSuchState id)

/-- The place at which a number is listed. -/
def placeOf (ids : List Nat) (id : Nat) : Except Error Nat :=
  if id ∈ ids then .ok (ids.idxOf id) else .error (.noSuchState id)

theorem read_eq_ok_iff {value : α} : read row id = .ok value ↔ row[id]? = some value := by
  rw [read]
  cases row[id]? <;> simp

theorem read_eq_ok (default : α) (h : id < row.size) :
    read row id = .ok (row[id]?.getD default) := by
  rw [read_eq_ok_iff, Array.getElem?_eq_getElem h, Option.getD_some]

theorem change_eq_ok (h : id < row.size) (f : α → α) :
    change row id f = .ok (row.modify id f) := if_pos h

theorem placeOf_eq_ok (h : id ∈ ids) : placeOf ids id = .ok (ids.idxOf id) := if_pos h

end WordPattern.Row
