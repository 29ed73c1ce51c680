import WordPattern.Proofs.Expr.Derivation

/-!
# What is left when exposed text is taken off

Text is taken off exactly the expressions that expose some. What is left matches
the words of the expression without the characters that were taken off, which
stand at the side from which they were taken; asking for more characters than
there are takes off all of them. A half that becomes empty is left out, so no
concatenation comes to have an empty half. Text that all words share but that no
literal shows is not exposed, and nothing is said about it here.
-/

namespace WordPattern

/-- A text put to one side of a word. -/
def Side.join (side : Side) (text word : Word) : Word :=
  match side with
  | .start => text ++ word
  | .finish => word ++ text

/-- The words of a language with text put to one side of them. -/
theorem Side.mem_put {side : Side} {text word : Word} {L : Language Char} :
    word ∈ side.put text L ↔ ∃ rest ∈ L, word = side.join text rest := by
  cases side with
  | start =>
    rw [Side.put, Language.mem_mul]
    constructor
    · rintro ⟨first, hfirst, rest, hrest, rfl⟩
      rw [Expr.mem_literal.mp hfirst]
      exact ⟨rest, hrest, rfl⟩
    · rintro ⟨rest, hrest, rfl⟩
      exact ⟨text, Expr.mem_literal.mpr rfl, rest, hrest, rfl⟩
  | finish =>
    rw [Side.put, Language.mem_mul]
    constructor
    · rintro ⟨rest, hrest, last, hlast, rfl⟩
      rw [Expr.mem_literal.mp hlast]
      exact ⟨rest, hrest, rfl⟩
    · rintro ⟨rest, hrest, rfl⟩
      exact ⟨rest, hrest, text, Expr.mem_literal.mpr rfl, rfl⟩

/-- All characters of a text are its outermost ones. -/
theorem Side.outer_of_length_le {side : Side} {text : Word} {count : Nat}
    (h : text.length ≤ count) : side.outer count text = text := by
  cases side with
  | start => exact List.take_of_length_le h
  | finish =>
    rw [Side.outer, Nat.sub_eq_zero_of_le h]
    exact List.drop_zero

namespace Expr

variable {a b e : Expr} {side : Side} {text : Word} {count : Nat}

/-- Text is taken off exactly where it is exposed, however much is asked for. -/
theorem isSome_dropAt? (e : Expr) (side : Side) (count : Nat) :
    (e.dropAt? side count).isSome = (e.literalAt? side).isSome := by
  induction e using literalAt?.induct side with
  | case1 own => cases side <;> rfl
  | case2 a b hside ih =>
    subst hside
    rw [dropAt?, literalAt?, Option.isSome_map]
    exact ih
  | case3 a b hside ih =>
    subst hside
    rw [dropAt?, literalAt?, Option.isSome_map]
    exact ih
  | case4 e hliteral hconcat =>
    rw [dropAt?, literalAt?]
    · rfl
    · exact hliteral
    · exact hconcat
    · exact hliteral
    · exact hconcat

/-- Asking for more characters than there are takes off all of them. -/
theorem dropAt?_of_length_le (h : e.literalAt? side = some text) (hcount : text.length ≤ count) :
    e.dropAt? side count = e.dropAt? side text.length := by
  induction e using literalAt?.induct side with
  | case1 own =>
    rw [literalAt?, Option.some.injEq] at h
    subst h
    cases side with
    | start => simp [dropAt?, hcount]
    | finish => simp [dropAt?, Nat.sub_eq_zero_of_le hcount]
  | case2 a b hside ih =>
    subst hside
    rw [literalAt?] at h
    rw [dropAt?, ih h, dropAt?]
  | case3 a b hside ih =>
    subst hside
    rw [literalAt?] at h
    rw [dropAt?, ih h, dropAt?]
  | case4 e hliteral hconcat =>
    rw [literalAt?] at h
    · cases h
    · exact hliteral
    · exact hconcat

/-- No concatenation in the expression has an empty half. -/
def Filled (e : Expr) : Prop := ∀ a b, Part (concat a b) e → a ≠ empty ∧ b ≠ empty

theorem filled_literal (text : Word) : Filled (literal text) := by
  intro a b hpart
  cases hpart

theorem Filled.halves (h : (concat a b).Filled) : a.Filled ∧ b.Filled :=
  ⟨fun x y hpart => h x y (.first hpart), fun x y hpart => h x y (.second hpart)⟩

/-- A concatenation of halves that are not empty is filled if they are. -/
theorem Filled.concat (ha : a.Filled) (hb : b.Filled) (hne : a ≠ empty ∧ b ≠ empty) :
    (concat a b).Filled := by
  intro x y hpart
  cases hpart with
  | whole => exact hne
  | first hpart => exact ha x y hpart
  | second hpart => exact hb x y hpart

theorem Stripped.ne_empty {rest : Expr} (h : Stripped side e rest) : rest ≠ empty := by
  rintro rfl
  exact Bool.false_ne_true h.nonempty.symm

/-- Halves that become empty are left out, so what is left is filled. -/
theorem Filled.dropAt? (h : e.Filled) (hlit : e.literalAt? side = some text)
    (hcount : count ≤ text.length) : ((e.dropAt? side count).getD e).Filled := by
  refine dropAt?_keeps filled_literal Filled.halves ?_ ?_ h hlit hcount
  · intro a b rest hconcat hstripped hrest
    exact hrest.concat hconcat.halves.2 ⟨hstripped.ne_empty, (hconcat a b .whole).2⟩
  · intro a b rest hconcat hstripped hrest
    exact hconcat.halves.1.concat hrest ⟨(hconcat a b .whole).1, hstripped.ne_empty⟩

/-- Taking off no more characters than there are leaves something that matches
the words without them, and that is filled if the expression is. -/
theorem exists_dropAt? (hlit : e.literalAt? side = some text) (hcount : count ≤ text.length) :
    ∃ rest, e.dropAt? side count = some rest ∧
      (∀ word, word ∈ e.language ↔
        ∃ v ∈ rest.language, word = side.join (side.outer count text) v) ∧
      (e.Filled → rest.Filled) := by
  obtain ⟨rest, hrest, hlanguage⟩ := dropAt?_spec hlit hcount
  refine ⟨rest, hrest, ?_, ?_⟩
  · intro word
    rw [hlanguage, Side.mem_put]
  · intro hfilled
    have hleft := hfilled.dropAt? hlit hcount
    rwa [hrest, Option.getD_some] at hleft

/-- Text is taken off an expression if and only if it exposes some. What is left
matches the words of the expression without the outermost characters of the
exposed text, all of them if more are asked for, and is filled if the expression
is. -/
theorem dropAt?_divides (e : Expr) (side : Side) (count : Nat) :
    ((e.dropAt? side count).isSome = (e.literalAt? side).isSome) ∧
      ∀ text, e.literalAt? side = some text → ∃ rest, e.dropAt? side count = some rest ∧
        (∀ word, word ∈ e.language ↔
          ∃ v ∈ rest.language, word = side.join (side.outer count text) v) ∧
        (text.length < count → side.outer count text = text ∧
          e.dropAt? side text.length = some rest) ∧
        (e.Filled → rest.Filled) := by
  refine ⟨isSome_dropAt? e side count, ?_⟩
  intro text hlit
  rcases Nat.lt_or_ge text.length count with hmore | hle
  · -- all characters come off, as if no more had been asked for
    obtain ⟨rest, hrest, hwords, hfilled⟩ := exists_dropAt? hlit (Nat.le_refl text.length)
    have hall : side.outer count text = text := Side.outer_of_length_le (Nat.le_of_lt hmore)
    refine ⟨rest, ?_, ?_, fun _ => ⟨hall, hrest⟩, hfilled⟩
    · rw [dropAt?_of_length_le hlit (Nat.le_of_lt hmore), hrest]
    · rw [Side.outer_of_length_le (Nat.le_refl text.length)] at hwords
      rwa [hall]
  · obtain ⟨rest, hrest, hwords, hfilled⟩ := exists_dropAt? hlit hle
    exact ⟨rest, hrest, hwords, fun hmore => absurd hle (Nat.not_le_of_lt hmore), hfilled⟩

/-- Two letters or a third behind them, with text before and behind. -/
def bracketed : Expr :=
  .concat (.concat (.literal ['a', 'b']) (.charClass ['x', 'y'])) (.literal ['c'])

/-- The text at the start is shorter than what is asked for, and its half of the
inner concatenation is left out. -/
theorem dropAt?_divides_bracketed :
    bracketed.literalAt? .start = some ['a', 'b'] ∧ ∃ rest,
      bracketed.dropAt? .start 5 = some rest ∧
        (∀ word, word ∈ bracketed.language ↔
          ∃ v ∈ rest.language, word = Side.join .start (Side.outer .start 5 ['a', 'b']) v) ∧
        (['a', 'b'].length < 5 → Side.outer .start 5 ['a', 'b'] = ['a', 'b'] ∧
          bracketed.dropAt? .start ['a', 'b'].length = some rest) ∧
        (bracketed.Filled → rest.Filled) :=
  ⟨rfl, (dropAt?_divides bracketed .start 5).2 ['a', 'b'] rfl⟩

end Expr

end WordPattern
