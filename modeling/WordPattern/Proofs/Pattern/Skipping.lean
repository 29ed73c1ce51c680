import WordPattern.Pattern.Render
import WordPattern.Proofs.Expr.Language
import WordPattern.Proofs.Pattern.Grammar

/-!
# What readers skip

Readers of extended patterns skip white space and comments. Nothing of a written
expression is skipped, since white space is given by number and hashes are
escaped; this holds for trees of any shape, also for classes without members.
-/

namespace WordPattern.Pattern

variable {flags : Flags} {text later : List Char} {c : Char}

/-- Text of which nothing is skipped, whatever follows it. -/
def Kept (flags : Flags) (text : List Char) : Prop :=
  ∀ rest, shown flags (text ++ rest) = text ++ shown flags rest

theorem kept_nil : Kept flags [] := fun _ => rfl

theorem Kept.append (h : Kept flags text) (hlater : Kept flags later) :
    Kept flags (text ++ later) := by
  intro rest
  rw [List.append_assoc, h, hlater, List.append_assoc]

theorem kept_flatMap {α : Type} {xs : List α} {f : α → List Char}
    (h : ∀ x ∈ xs, Kept flags (f x)) : Kept flags (xs.flatMap f) := by
  induction xs with
  | nil => exact kept_nil
  | cons x xs ih =>
    obtain ⟨hx, hxs⟩ := List.forall_mem_cons.mp h
    rw [List.flatMap_cons]
    exact hx.append (ih hxs)

/-- Text that is kept before everything is kept as a whole. -/
theorem Kept.shown_eq (h : Kept flags text) : shown flags text = text := by
  have hall := h []
  have hnil : shown flags [] = [] := by
    unfold shown
    split
    · exact skipBlanks.eq_1 false
    · rfl
  rwa [List.append_nil, hnil, List.append_nil] at hall

/-- An escaped character is kept. -/
theorem kept_escaped (c : Char) : Kept flags ['\\', c] := by
  intro rest
  unfold shown
  split
  · exact skipBlanks.eq_2 false c rest
  · rfl

/-- A character is kept if it neither is white space that is skipped nor
begins a comment or an escape. -/
theorem kept_char (hblank : (flags.extended && Text.isBlank c) = false) (hhash : c ≠ '#')
    (hback : c ≠ '\\') : Kept flags [c] := by
  intro rest
  unfold shown
  split
  · rename_i hextended
    rw [hextended, Bool.true_and] at hblank
    rw [List.singleton_append, skipBlanks.eq_3 false c rest fun _ _ h => absurd h hback]
    simp [hhash, hblank]
  · rfl

/-- Whether a character is never skipped and begins neither a comment nor an
escape. -/
def isVisible (c : Char) : Bool := !Text.isBlank c && c ≠ '#' && c ≠ '\\'

/-- A visible character is kept. -/
theorem kept_of_isVisible (h : isVisible c = true) : Kept flags [c] := by
  simp only [isVisible, Bool.and_eq_true, Bool.not_eq_true', decide_eq_true_eq] at h
  obtain ⟨⟨hblank, hhash⟩, hback⟩ := h
  exact kept_char (by rw [hblank, Bool.and_false]) hhash hback

/-- A hexadecimal digit as it is written. -/
def hexDigit (value : Nat) : Char := value.digitChar.toUpper

/-- A digit has its value and is visible. -/
theorem hexDigit_spec {value : Nat} (h : value < 16) :
    hexValue? (hexDigit value) = some value ∧ isVisible (hexDigit value) = true := by
  have hall : ∀ value < 16,
      hexValue? (hexDigit value) = some value ∧ isVisible (hexDigit value) = true := by
    decide
  exact hall value h

/-- A number is written in the digits that make it. -/
theorem hexDigits_spec (n : Nat) : ∃ values, (∀ value ∈ values, value < 16) ∧ values ≠ [] ∧
    numberOf values = n ∧ (Text.hexDigits n).map Char.toUpper = values.map hexDigit := by
  induction n using Nat.strongRecOn with
  | ind n ih =>
    by_cases hn : n < 16
    · refine ⟨[n], List.forall_mem_singleton.mpr hn, List.cons_ne_nil n [], ?_, ?_⟩
      · rw [numberOf, List.foldl_cons, List.foldl_nil, Nat.zero_mul, Nat.zero_add]
      · rw [Text.hexDigits, Nat.toDigits_of_lt_base hn]
        rfl
    · have hle : 16 ≤ n := Nat.le_of_not_lt hn
      obtain ⟨values, hvalues, -, hnumber, hdigits⟩ :=
        ih (n / 16) (Nat.div_lt_self (by omega) (by decide))
      refine ⟨values ++ [n % 16], ?_, by simp, ?_, ?_⟩
      · exact List.forall_mem_append.mpr
          ⟨hvalues, List.forall_mem_singleton.mpr (Nat.mod_lt n (by decide))⟩
      · rw [numberOf] at hnumber ⊢
        rw [List.foldl_append, hnumber, List.foldl_cons, List.foldl_nil, Nat.div_add_mod']
      · rw [Text.hexDigits] at hdigits ⊢
        rw [Nat.toDigits_of_base_le (by decide) hle, List.map_append, hdigits, List.map_append]
        rfl

/-- A character as it is written is kept. -/
theorem kept_escape (flags : Flags) (c : Char) : Kept flags (escape flags c) := by
  unfold escape
  by_cases hblank : (flags.extended && Text.isBlank c) = true
  · rw [if_pos hblank]
    obtain ⟨values, hvalues, -, -, hdigits⟩ := hexDigits_spec c.toNat
    have hstart : Kept flags ['\x7b'] := kept_of_isVisible (by decide)
    have hstop : Kept flags ['\x7d'] := kept_of_isVisible (by decide)
    have hnumber : Kept flags (codeDigits c) := by
      rw [codeDigits, hdigits, List.map_eq_flatMap]
      exact kept_flatMap fun value hvalue =>
        kept_of_isVisible (hexDigit_spec (hvalues value hvalue)).2
    exact (((kept_escaped 'x').append hstart).append hnumber).append hstop
  · rw [if_neg hblank]
    split
    · exact kept_escaped c
    · rename_i hmeta
      have hhash : c ≠ '#' := fun h => hmeta (h ▸ by decide)
      have hback : c ≠ '\\' := fun h => hmeta (h ▸ by decide)
      exact kept_char (Bool.not_eq_true _ ▸ hblank) hhash hback

theorem kept_renderRun (flags : Flags) (first last : Char) :
    Kept flags (renderRun flags first last) := by
  unfold renderRun
  split
  · exact kept_escape flags first
  · exact (kept_escape flags first).append (kept_escape flags last)
  · have hdash : Kept flags ['-'] := kept_of_isVisible (by decide)
    exact (kept_escape flags first).append (hdash.append (kept_escape flags last))

theorem kept_renderClass (flags : Flags) (members : List Char) :
    Kept flags (renderClass flags members) := by
  have hopen : Kept flags ['['] := kept_of_isVisible (by decide)
  have hclose : Kept flags [']'] := kept_of_isVisible (by decide)
  have hlisted : ∀ text, Kept flags text → Kept flags ('[' :: text ++ [']']) :=
    fun _ h => (hopen.append h).append hclose
  unfold renderClass
  dsimp only
  split
  · exact hlisted _ (kept_flatMap fun c _ => kept_escape flags c)
  · exact hlisted _ (kept_flatMap fun run _ => kept_renderRun flags run.1 run.2)

theorem Kept.group (h : Kept flags text) : Kept flags (group text) := by
  have hopen : Kept flags ['('] := kept_of_isVisible (by decide)
  have hquestion : Kept flags ['?'] := kept_of_isVisible (by decide)
  have hcolon : Kept flags [':'] := kept_of_isVisible (by decide)
  have hclose : Kept flags [')'] := kept_of_isVisible (by decide)
  exact ((hopen.append (hquestion.append hcolon)).append h).append hclose

theorem Kept.part (h : Kept flags text) (precedence : Nat) (e : Expr) :
    Kept flags (part flags precedence e text) := by
  unfold Pattern.part
  split
  · exact h
  · exact h.group

theorem Kept.repeated (h : Kept flags text) (e : Expr) : Kept flags (repeated flags e text) := by
  unfold Pattern.repeated
  split
  · exact h.group
  · exact h.part 3 e

theorem kept_mark (quantifier : Quantifier) : Kept flags [quantifier.mark] := by
  cases quantifier with
  | optional => exact kept_of_isVisible (by decide)
  | star => exact kept_of_isVisible (by decide)

theorem kept_renderOptions {options : List Expr} (h : ∀ e ∈ options, Kept flags (render flags e)) :
    Kept flags (renderOptions flags options) := by
  induction options with
  | nil => exact kept_nil
  | cons e rest ih =>
    obtain ⟨he, hrest⟩ := List.forall_mem_cons.mp h
    cases rest with
    | nil => exact he
    | cons f rest =>
      have hbar : Kept flags ['|'] := kept_of_isVisible (by decide)
      rw [renderOptions]
      · exact he.append (hbar.append (ih hrest))
      · exact List.cons_ne_nil f rest

/-- Nothing of a written expression is skipped. -/
theorem kept_render (flags : Flags) (e : Expr) : Kept flags (render flags e) := by
  induction e using Expr.tree_induction with
  | literal text =>
    rw [render]
    exact kept_flatMap fun c _ => kept_escape flags c
  | charClass members =>
    rw [render]
    exact kept_renderClass flags members
  | concat first second ihfirst ihsecond =>
    rw [render]
    exact (ihfirst.part 2 first).append (ihsecond.part 2 second)
  | alternation options ih =>
    rw [render]
    exact kept_renderOptions ih
  | repetition body quantifier ih =>
    rw [render]
    exact (ih.repeated body).append (kept_mark quantifier)

end WordPattern.Pattern
