/-!
# Finite sets of identifiers

A set of natural numbers is the ascending list of its members, so equal sets
are equal lists and the size is the length. Union, intersection and difference
walk both lists once. Membership decides everything that is said here about
them; no claim is made about their cost.
-/

namespace WordPattern

/-- A finite set of identifiers. -/
structure IdSet where
  /-- The members, ascending and each listed once. -/
  members : List Nat := []
  /-- The list ascends strictly. -/
  ascending : members.Pairwise (· < ·) := by simp
deriving DecidableEq

namespace IdSet

/-- The set without members. -/
def empty : IdSet := {}

instance : Membership Nat IdSet := ⟨fun set id => id ∈ set.members⟩

instance (id : Nat) (set : IdSet) : Decidable (id ∈ set) :=
  inferInstanceAs (Decidable (id ∈ set.members))

/-- Whether there is no member. -/
def isEmpty (set : IdSet) : Bool := set.members.isEmpty

/-- The number of members. -/
def size (set : IdSet) : Nat := set.members.length

/-- The lowest member. -/
def least? (set : IdSet) : Option Nat := set.members.head?

/-- Members of either list, both ascending. -/
def unionLists : List Nat → List Nat → List Nat
  | [], ys => ys
  | x :: xs, ys => ys.takeWhile (· < x) ++ x :: unionLists xs (ys.dropWhile (· ≤ x))

/-- Members of both lists, both ascending. -/
def interLists : List Nat → List Nat → List Nat
  | [], _ => []
  | x :: xs, ys =>
    match ys.dropWhile (· < x) with
    | [] => []
    | y :: rest => if x = y then x :: interLists xs rest else interLists xs (y :: rest)

/-- Members of the first list that the second lacks, both ascending. -/
def diffLists : List Nat → List Nat → List Nat
  | [], _ => []
  | x :: xs, ys =>
    match ys.dropWhile (· < x) with
    | [] => x :: xs
    | y :: rest => if x = y then diffLists xs rest else x :: diffLists xs (y :: rest)

/-- In an ascending list, dropping what lies below `x` keeps what lies above. -/
theorem mem_dropWhile_lt {ys : List Nat} (h : ys.Pairwise (· < ·)) (x z : Nat) :
    z ∈ ys.dropWhile (· < x) ↔ z ∈ ys ∧ x ≤ z := by
  induction ys with
  | nil => simp
  | cons y rest ih =>
    rw [List.pairwise_cons] at h
    have hy := h.1 z
    have hr := ih h.2
    grind [List.dropWhile_cons]

/-- In an ascending list, dropping what lies up to `x` keeps what lies above. -/
theorem mem_dropWhile_le {ys : List Nat} (h : ys.Pairwise (· < ·)) (x z : Nat) :
    z ∈ ys.dropWhile (· ≤ x) ↔ z ∈ ys ∧ x < z := by
  induction ys with
  | nil => simp
  | cons y rest ih =>
    rw [List.pairwise_cons] at h
    have hy := h.1 z
    have hr := ih h.2
    grind [List.dropWhile_cons]

/-- In an ascending list, taking what lies below `x` takes all of it. -/
theorem mem_takeWhile_lt {ys : List Nat} (h : ys.Pairwise (· < ·)) (x z : Nat) :
    z ∈ ys.takeWhile (· < x) ↔ z ∈ ys ∧ z < x := by
  induction ys with
  | nil => simp
  | cons y rest ih =>
    rw [List.pairwise_cons] at h
    have hy := h.1 z
    have hr := ih h.2
    grind [List.takeWhile_cons]

/-- A number lies in the united lists exactly when one of them has it. -/
theorem mem_unionLists {xs ys : List Nat} (hy : ys.Pairwise (· < ·)) (z : Nat) :
    z ∈ unionLists xs ys ↔ z ∈ xs ∨ z ∈ ys := by
  induction xs generalizing ys with
  | nil => simp [unionLists]
  | cons x xs ih =>
    have hd : (ys.dropWhile (· ≤ x)).Pairwise (· < ·) := hy.sublist (List.dropWhile_sublist _)
    simp only [unionLists, List.mem_append, List.mem_cons, ih hd, mem_takeWhile_lt hy,
      mem_dropWhile_le hy]
    have := Nat.lt_trichotomy z x
    grind

/-- United lists ascend. -/
theorem ascending_unionLists {xs ys : List Nat} (hx : xs.Pairwise (· < ·))
    (hy : ys.Pairwise (· < ·)) : (unionLists xs ys).Pairwise (· < ·) := by
  induction xs generalizing ys with
  | nil => simpa [unionLists]
  | cons x xs ih =>
    have hd : (ys.dropWhile (· ≤ x)).Pairwise (· < ·) := hy.sublist (List.dropWhile_sublist _)
    have ht : (ys.takeWhile (· < x)).Pairwise (· < ·) := hy.sublist (List.takeWhile_sublist _)
    rw [List.pairwise_cons] at hx
    have htail := ih hx.2 hd
    have habove : ∀ z ∈ unionLists xs (ys.dropWhile (· ≤ x)), x < z := by
      intro z hz
      rw [mem_unionLists hd, mem_dropWhile_le hy] at hz
      exact hz.elim (hx.1 z) And.right
    rw [unionLists, List.pairwise_append]
    refine ⟨ht, List.pairwise_cons.2 ⟨habove, htail⟩, ?_⟩
    intro a ha b hb
    rw [mem_takeWhile_lt hy] at ha
    rcases List.mem_cons.1 hb with rfl | hb
    · exact ha.2
    · exact Nat.lt_trans ha.2 (habove b hb)

/-- The common members of two lists are a sublist of the first. -/
theorem interLists_sublist (xs ys : List Nat) : (interLists xs ys).Sublist xs := by
  induction xs generalizing ys with
  | nil => simp [interLists]
  | cons x xs ih =>
    unfold interLists
    split
    · simp
    · split
      · exact (ih _).cons_cons x
      · exact (ih _).cons x

/-- The remaining members of the first list are a sublist of it. -/
theorem diffLists_sublist (xs ys : List Nat) : (diffLists xs ys).Sublist xs := by
  induction xs generalizing ys with
  | nil => simp [diffLists]
  | cons x xs ih =>
    unfold diffLists
    split
    · simp
    · split
      · exact (ih _).cons x
      · exact (ih _).cons_cons x

/-- A number lies in the intersected lists exactly when both have it. -/
theorem mem_interLists {xs ys : List Nat} (hx : xs.Pairwise (· < ·)) (hy : ys.Pairwise (· < ·))
    (z : Nat) : z ∈ interLists xs ys ↔ z ∈ xs ∧ z ∈ ys := by
  induction xs generalizing ys with
  | nil => simp [interLists]
  | cons x xs ih =>
    have hd : (ys.dropWhile (· < x)).Pairwise (· < ·) := hy.sublist (List.dropWhile_sublist _)
    have hm := mem_dropWhile_lt hy x
    rw [List.pairwise_cons] at hx
    unfold interLists
    split
    · rename_i heq
      rw [heq] at hm
      have hmz := hm z
      have hxz := hx.1 z
      clear ih hm
      grind
    · rename_i y rest heq
      rw [heq] at hm hd
      have hrest := (List.pairwise_cons.1 hd).2
      have here := ih hx.2 hrest
      have later := ih hx.2 hd
      have habove := (List.pairwise_cons.1 hd).1 x
      have hmz := hm z
      have hmx := hm x
      have hmy := hm y
      have hxz := hx.1 z
      clear ih hm
      split <;> grind

/-- A number remains exactly when the first list has it and the second lacks it. -/
theorem mem_diffLists {xs ys : List Nat} (hx : xs.Pairwise (· < ·)) (hy : ys.Pairwise (· < ·))
    (z : Nat) : z ∈ diffLists xs ys ↔ z ∈ xs ∧ z ∉ ys := by
  induction xs generalizing ys with
  | nil => simp [diffLists]
  | cons x xs ih =>
    have hd : (ys.dropWhile (· < x)).Pairwise (· < ·) := hy.sublist (List.dropWhile_sublist _)
    have hm := mem_dropWhile_lt hy x
    rw [List.pairwise_cons] at hx
    unfold diffLists
    split
    · rename_i heq
      rw [heq] at hm
      have hmz := hm z
      have hxz := hx.1 z
      clear ih hm
      grind
    · rename_i y rest heq
      rw [heq] at hm hd
      have hrest := (List.pairwise_cons.1 hd).2
      have here := ih hx.2 hrest
      have later := ih hx.2 hd
      have habove := (List.pairwise_cons.1 hd).1 x
      have hmz := hm z
      have hmx := hm x
      have hmy := hm y
      have hxz := hx.1 z
      clear ih hm
      split <;> grind

/-- The set of one identifier. -/
def singleton (id : Nat) : IdSet := ⟨[id], by simp⟩

/-- The members of either set. -/
def union (a b : IdSet) : IdSet :=
  ⟨unionLists a.members b.members, ascending_unionLists a.ascending b.ascending⟩

/-- The members of both sets. -/
def inter (a b : IdSet) : IdSet :=
  ⟨interLists a.members b.members, a.ascending.sublist (interLists_sublist _ _)⟩

/-- The members of the first set that the second lacks. -/
def diff (a b : IdSet) : IdSet :=
  ⟨diffLists a.members b.members, a.ascending.sublist (diffLists_sublist _ _)⟩

/-- Adds one identifier. -/
def insert (set : IdSet) (id : Nat) : IdSet := (singleton id).union set

/-- Removes one identifier. -/
def erase (set : IdSet) (id : Nat) : IdSet :=
  ⟨set.members.erase id, set.ascending.sublist List.erase_sublist⟩

/-- The set of the listed identifiers, in whatever order and however often
they are listed. -/
def ofList (ids : List Nat) : IdSet := ids.foldr (fun id set => set.insert id) empty

@[simp] theorem mem_members {id : Nat} {set : IdSet} : id ∈ set.members ↔ id ∈ set := Iff.rfl

@[simp] theorem not_mem_empty (id : Nat) : id ∉ empty := List.not_mem_nil

@[simp] theorem mem_singleton {id other : Nat} : id ∈ singleton other ↔ id = other :=
  List.mem_singleton

@[simp] theorem mem_union {id : Nat} {a b : IdSet} : id ∈ a.union b ↔ id ∈ a ∨ id ∈ b :=
  mem_unionLists b.ascending id

@[simp] theorem mem_inter {id : Nat} {a b : IdSet} : id ∈ a.inter b ↔ id ∈ a ∧ id ∈ b :=
  mem_interLists a.ascending b.ascending id

@[simp] theorem mem_diff {id : Nat} {a b : IdSet} : id ∈ a.diff b ↔ id ∈ a ∧ id ∉ b :=
  mem_diffLists a.ascending b.ascending id

@[simp] theorem mem_insert {id new : Nat} {set : IdSet} :
    id ∈ set.insert new ↔ id = new ∨ id ∈ set := by
  rw [insert, mem_union]
  exact or_congr_left List.mem_singleton

@[simp] theorem mem_erase {id old : Nat} {set : IdSet} :
    id ∈ set.erase old ↔ id ≠ old ∧ id ∈ set :=
  List.Nodup.mem_erase_iff (set.ascending.imp Nat.ne_of_lt)

@[simp] theorem mem_ofList {id : Nat} {ids : List Nat} : id ∈ ofList ids ↔ id ∈ ids := by
  induction ids with
  | nil => simp [ofList]
  | cons first rest ih =>
    rw [ofList, List.foldr_cons, mem_insert, List.mem_cons]
    exact or_congr_right ih

end IdSet

end WordPattern
