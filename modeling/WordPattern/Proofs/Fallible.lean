import WordPattern.Error

/-!
# Loops that may fail

A loop over a list that may stop with an error runs through if each of its
steps does, and what every step preserves holds at the end. The invariant may
speak of the part of the list that is still to come.
-/

namespace WordPattern

variable {α β : Type}

/-- A fold runs through and ends in its invariant, provided that each step
leads from the invariant for what is to come to that for the rest. -/
theorem foldlM_ok {f : β → α → Except Error β} (inv : List α → β → Prop)
    (hstep : ∀ x xs b, inv (x :: xs) b → ∃ next, f b x = .ok next ∧ inv xs next) :
    ∀ xs b, inv xs b → ∃ final, xs.foldlM f b = .ok final ∧ inv [] final := by
  intro xs
  induction xs with
  | nil => exact fun b hb => ⟨b, rfl, hb⟩
  | cons x xs ih =>
    intro b hb
    obtain ⟨next, hnext, hinv⟩ := hstep x xs b hb
    obtain ⟨final, hfinal, hend⟩ := ih next hinv
    refine ⟨final, ?_, hend⟩
    rw [List.foldlM_cons, hnext]
    exact hfinal

/-- A converted result is there if the result is. -/
theorem map_eq_ok_iff {x : Except Error α} {f : α → β} {value : β} :
    x.map f = .ok value ↔ ∃ result, x = .ok result ∧ f result = value := by
  cases x <;> simp [Except.map]

/-- A conversion fails where there is nothing to be converted. -/
theorem map_eq_error_iff {x : Except Error α} {f : α → β} {error : Error} :
    x.map f = .error error ↔ x = .error error := by
  cases x <;> simp [Except.map]

/-- Of two steps one after the other, both succeed if the whole does. -/
theorem bind_eq_ok_iff {x : Except Error α} {f : α → Except Error β} {value : β} :
    x >>= f = .ok value ↔ ∃ result, x = .ok result ∧ f result = .ok value := by
  cases x <;> simp [bind, Except.bind]

/-- What every step that succeeds preserves holds at the end of a fold that
runs through. -/
theorem foldlM_keeps {f : β → α → Except Error β} {inv : β → Prop}
    (hstep : ∀ {x b next}, inv b → f b x = .ok next → inv next) {xs : List α} {b final : β}
    (hb : inv b) (hok : xs.foldlM f b = .ok final) : inv final := by
  induction xs generalizing b with
  | nil =>
    cases hok
    exact hb
  | cons x xs ih =>
    rw [List.foldlM_cons, bind_eq_ok_iff] at hok
    obtain ⟨next, hnext, hrest⟩ := hok
    exact ih (hstep hb hnext) hrest

/-- A fold of converted values is converted, if each step is. -/
theorem foldlM_hom {γ : Type} {f : β → α → Except Error β} {g : γ → α → Except Error γ}
    (φ : β → γ) (h : ∀ b x, g (φ b) x = (f b x).map φ) (xs : List α) (b : β) :
    xs.foldlM g (φ b) = (xs.foldlM f b).map φ := by
  induction xs generalizing b with
  | nil => rfl
  | cons x xs ih =>
    rw [List.foldlM_cons, List.foldlM_cons, h]
    cases f b x with
    | error e => rfl
    | ok next => exact ih next

/-- Steps that agree on the listed elements make the same fold. -/
theorem foldlM_congr {f g : β → α → Except Error β} {xs : List α}
    (h : ∀ x ∈ xs, ∀ b, g b x = f b x) (b : β) : xs.foldlM g b = xs.foldlM f b := by
  induction xs generalizing b with
  | nil => rfl
  | cons x xs ih =>
    obtain ⟨hx, hxs⟩ := List.forall_mem_cons.mp h
    simp only [List.foldlM_cons, hx, ih hxs]

/-- Conversions that agree on the listed elements give the same list. -/
theorem mapM_congr {f g : α → Except Error β} {xs : List α} (h : ∀ x ∈ xs, g x = f x) :
    xs.mapM g = xs.mapM f := by
  induction xs with
  | nil => rfl
  | cons x xs ih =>
    obtain ⟨hx, hxs⟩ := List.forall_mem_cons.mp h
    rw [List.mapM_cons, List.mapM_cons, hx, ih hxs]

/-- Converting every element succeeds if each conversion does. -/
theorem mapM_ok {f : α → Except Error β} {g : α → β} {xs : List α}
    (h : ∀ x ∈ xs, f x = .ok (g x)) : xs.mapM f = .ok (xs.map g) := by
  induction xs with
  | nil => rfl
  | cons x xs ih =>
    have hx := h x List.mem_cons_self
    have hrest := ih fun y hy => h y (List.mem_cons_of_mem _ hy)
    rw [List.mapM_cons, hx, hrest]
    rfl

/-- Converting what each conversion gives may be left to the end. -/
theorem mapM_map {γ : Type} (g : β → γ) (h : α → Except Error β) (xs : List α) :
    xs.mapM (fun x => (h x).map g) = (xs.mapM h).map (List.map g) := by
  induction xs with
  | nil => rfl
  | cons x xs ih =>
    rw [List.mapM_cons, List.mapM_cons, ih]
    cases h x with
    | error e => rfl
    | ok y => cases xs.mapM h <;> rfl

end WordPattern
