import WordPattern.Proofs.Automaton.Reachable

/-!
# States that no word tells apart

Two states are alike when every word has the same verdict from both: its runs
are both undefined, or both defined and end alike. This is finer than accepting
the same words, because a run that is undefined differs from one that rejects.
Alike states have alike successors, and any relation that keeps acceptance and
successors together relates alike states only.
-/

namespace WordPattern.Automaton

variable {a : Automaton} {p q r : StateId} {letter : Char}

/-- No word tells the states apart. -/
def Alike (a : Automaton) (p q : StateId) : Prop := ∀ word, a.verdict p word = a.verdict q word

theorem Alike.refl (a : Automaton) (p : StateId) : a.Alike p p := fun _ => rfl

theorem Alike.symm (h : a.Alike p q) : a.Alike q p := fun word => (h word).symm

theorem Alike.trans (h : a.Alike p q) (k : a.Alike q r) : a.Alike p r :=
  fun word => (h word).trans (k word)

/-- The empty word compares acceptance. -/
theorem Alike.accepting (h : a.Alike p q) : a.isAccepting p = a.isAccepting q := by
  have hnil := h []
  rw [verdict_nil, verdict_nil] at hnil
  exact Option.some.inj hnil

/-- The edges of alike states on a letter are both missing or lead to alike
states. -/
theorem Alike.target? (h : a.Alike p q) (letter : Char) :
    Option.Rel a.Alike (a.target? p letter) (a.target? q letter) := by
  have hword : ∀ rest, (a.target? p letter).bind (a.verdict · rest) =
      (a.target? q letter).bind (a.verdict · rest) := by
    intro rest
    rw [← verdict_cons, ← verdict_cons]
    exact h (letter :: rest)
  cases hp : a.target? p letter with
  | none =>
    cases hq : a.target? q letter with
    | none => exact .none
    | some next =>
      have hnil := hword []
      rw [hp, hq] at hnil
      cases hnil
  | some first =>
    cases hq : a.target? q letter with
    | none =>
      have hnil := hword []
      rw [hp, hq] at hnil
      cases hnil
    | some second =>
      rw [hp, hq] at hword
      exact .some hword

/-- A relation that keeps acceptance and successors together relates alike
states only. -/
theorem alike_of_related {same : StateId → StateId → Prop}
    (haccept : ∀ {p q}, same p q → a.isAccepting p = a.isAccepting q)
    (hedge : ∀ {p q}, same p q → ∀ letter,
      Option.Rel same (a.target? p letter) (a.target? q letter))
    (h : same p q) : a.Alike p q := by
  intro word
  induction word generalizing p q with
  | nil => rw [verdict_nil, verdict_nil, haccept h]
  | cons letter rest ih =>
    have hrel := hedge h letter
    rw [verdict_cons, verdict_cons]
    cases hp : a.target? p letter with
    | none =>
      rw [hp] at hrel
      cases hq : a.target? q letter with
      | none => rfl
      | some next =>
        rw [hq] at hrel
        cases hrel
    | some first =>
      rw [hp] at hrel
      cases hq : a.target? q letter with
      | none =>
        rw [hq] at hrel
        cases hrel
      | some second =>
        rw [hq] at hrel
        cases hrel with
        | some hsame => exact ih hsame

end WordPattern.Automaton
