import Mathlib.Computability.Language
import WordPattern.Expr.Simplify

/-!
# Languages of expressions

An expression denotes a language in the usual way. Every builder that
simplifies denotes what the plain constructor denotes, on all trees, however
they were put together: `append` the product, `union` the sum. Taking exposed
text off an expression divides its language by that text, and `factor` takes
the same text off two expressions. How often a word can be matched, and in which
order matches are tried, is not part of a language.
-/

namespace WordPattern

namespace Expr

open Computability

mutual

/-- The words that an expression matches. -/
def language : Expr → Language Char
  | literal text => {text}
  | charClass members => {word | ∃ c ∈ members, word = [c]}
  | concat first second => first.language * second.language
  | alternation options => languageOfOptions options
  | repetition body .optional => 1 + body.language
  | repetition body .star => body.language∗

/-- The words that one of several expressions matches. -/
def languageOfOptions : List Expr → Language Char
  | [] => 0
  | option :: rest => option.language + languageOfOptions rest

end

/-- What is shown for each shape of an expression from its parts holds of every
expression. -/
@[elab_as_elim]
theorem tree_induction {P : Expr → Prop} (literal : ∀ text, P (literal text))
    (charClass : ∀ members, P (charClass members))
    (concat : ∀ first second, P first → P second → P (concat first second))
    (alternation : ∀ options, (∀ option ∈ options, P option) → P (alternation options))
    (repetition : ∀ body quantifier, P body → P (repetition body quantifier)) (e : Expr) : P e := by
  refine Expr.rec literal charClass concat alternation repetition ?_ ?_ e
  · exact List.forall_mem_nil P
  · exact fun _ _ hhead htail => List.forall_mem_cons.mpr ⟨hhead, htail⟩

variable {a b : Expr} {word : Word}

theorem mem_languageOfOptions {options : List Expr} :
    word ∈ languageOfOptions options ↔ ∃ option ∈ options, word ∈ option.language := by
  induction options with
  | nil =>
    rw [languageOfOptions]
    simp
  | cons option rest ih =>
    rw [languageOfOptions, Language.mem_add, ih]
    simp

theorem mem_literal {text : Word} : word ∈ (literal text).language ↔ word = text := by
  rw [language]
  rfl

theorem mem_charClass {members : List Char} :
    word ∈ (charClass members).language ↔ ∃ c ∈ members, word = [c] := by
  rw [language]
  rfl

theorem mem_alternation {options : List Expr} :
    word ∈ (alternation options).language ↔ ∃ option ∈ options, word ∈ option.language := by
  rw [language, mem_languageOfOptions]

theorem language_concat : (concat a b).language = a.language * b.language := by rw [language]

theorem language_optional : (repetition a .optional).language = 1 + a.language := by rw [language]

theorem language_star : a.star.language = a.language∗ := by rw [star, language]

/-- A repetition matches the empty word. -/
theorem nil_mem_repetition (body : Expr) (quantifier : Quantifier) :
    [] ∈ (repetition body quantifier).language := by
  cases quantifier with
  | optional => exact language_optional ▸ Or.inl rfl
  | star =>
    rw [language]
    exact Language.nil_mem_kstar _

/-- A repetition matches what its body matches. -/
theorem mem_repetition (h : word ∈ a.language) (quantifier : Quantifier) :
    word ∈ (repetition a quantifier).language := by
  cases quantifier with
  | optional => exact language_optional ▸ Or.inr h
  | star =>
    rw [language]
    exact (le_kstar : a.language ≤ a.language∗) h

theorem language_empty : empty.language = 1 := by
  rw [empty, language]
  rfl

theorem isEmptyLiteral_iff : a.isEmptyLiteral = true ↔ a = empty := by
  cases a <;> simp [isEmptyLiteral, empty]

/-- Texts one after the other are one text. -/
theorem language_literal_append (s t : Word) :
    (literal (s ++ t)).language = (literal s).language * (literal t).language := by
  ext word
  simp only [Language.mem_mul, mem_literal]
  constructor
  · intro h
    exact ⟨s, rfl, t, rfl, h.symm⟩
  · intro h
    obtain ⟨u, rfl, v, rfl, h⟩ := h
    exact h.symm

/-- Concatenation as it is built denotes the product. -/
theorem language_append (a b : Expr) : (a.append b).language = a.language * b.language := by
  unfold append
  split
  · rename_i ha
    rw [isEmptyLiteral_iff.mp ha, language_empty, one_mul]
  · split
    · rename_i hb
      rw [isEmptyLiteral_iff.mp hb, language_empty, mul_one]
    · split
      · rw [language_literal_append]
      · rw [language_concat, language_concat, language_literal_append, mul_assoc]
      · rw [language_concat, language_concat, language_literal_append, mul_assoc]
      · rw [language_concat]

/-- Whatever is not an alternation is its own only option. -/
theorem options_cases (e : Expr) : (∃ options, e = .alternation options) ∨ e.options = [e] := by
  cases e with
  | alternation options => exact Or.inl ⟨options, rfl⟩
  | _ => exact Or.inr rfl

/-- An expression matches what one of its options matches. -/
theorem mem_options : word ∈ a.language ↔ ∃ option ∈ a.options, word ∈ option.language := by
  cases a with
  | alternation options => exact mem_alternation
  | _ => simp [options]

/-- What holds of all options, and of an alternation of such options, holds of an
alternation as it is built. -/
theorem either_keeps {P : Expr → Prop} (ha : ∀ e ∈ a.options, P e) (hb : ∀ e ∈ b.options, P e)
    (halternation : ∀ options, (a.options ≠ [] → options ≠ []) → (∀ e ∈ options, P e) →
      P (alternation options)) : P (either a b) := by
  have hall : ∀ e ∈ (a.options ++ b.options).eraseDups, P e := by
    intro e he
    rw [List.mem_eraseDups, List.mem_append] at he
    exact he.elim (ha e) (hb e)
  unfold either
  split
  · rename_i only honly
    exact hall only (honly ▸ List.mem_cons_self)
  · refine halternation _ (fun hne => ?_) fun e he => hall e (List.mem_mergeSort.mp he)
    obtain ⟨e, he⟩ := List.exists_mem_of_ne_nil _ hne
    exact List.ne_nil_of_mem
      (List.mem_mergeSort.mpr (List.mem_eraseDups.mpr (List.mem_append_left _ he)))

/-- An alternation as it is built denotes the sum. -/
theorem language_either (a b : Expr) : (either a b).language = a.language + b.language := by
  ext word
  have hmem : word ∈ a.language + b.language ↔
      ∃ option ∈ (a.options ++ b.options).eraseDups, word ∈ option.language := by
    rw [Language.mem_add, mem_options, mem_options (a := b)]
    simp only [List.mem_eraseDups, List.mem_append, or_and_right, exists_or]
  rw [hmem]
  unfold either
  split
  · rename_i only honly
    simp [honly]
  · rw [mem_alternation]
    simp only [List.mem_mergeSort]

/-- A class as it is built denotes the sum. -/
theorem language_classOf (xs ys : List Char) :
    (classOf xs ys).language = (charClass xs).language + (charClass ys).language := by
  ext word
  rw [classOf, Language.mem_add, mem_charClass, mem_charClass, mem_charClass]
  simp only [List.mem_eraseDups, List.mem_append, or_and_right, exists_or]

/-- Only a single letter and a class contribute to a class. -/
theorem classMembers?_cases {members : List Char} (h : a.classMembers? = some members) :
    (∃ c, a = literal [c] ∧ members = [c]) ∨ a = charClass members := by
  cases a with
  | literal text =>
    match text, h with
    | [c], h => exact Or.inl ⟨c, rfl, (Option.some.inj h).symm⟩
  | charClass own => exact Or.inr (congrArg charClass (Option.some.inj h))
  | concat => cases h
  | alternation => cases h
  | repetition => cases h

/-- The members that an expression contributes to a class are what it matches. -/
theorem language_of_classMembers? {members : List Char} (h : a.classMembers? = some members) :
    a.language = (charClass members).language := by
  rcases classMembers?_cases h with ⟨c, rfl, rfl⟩ | rfl
  · ext word
    simp [mem_literal, mem_charClass]
  · rfl

/-- The shape that a union takes denotes the sum. -/
theorem language_choice (a b : Expr) : (choice a b).language = a.language + b.language := by
  unfold choice
  split
  · rename_i ha
    rw [isEmptyLiteral_iff.mp ha, language_empty, language_optional]
  · split
    · rename_i hb
      rw [isEmptyLiteral_iff.mp hb, language_empty, language_optional, add_comm]
    · split
      · rw [language_optional, language_optional, language_either, add_assoc]
      · rw [language_optional, language_optional, language_either, add_left_comm]
      · split
        · rename_i s t hs ht
          rw [language_classOf, language_of_classMembers? hs, language_of_classMembers? ht]
        · rw [language_either]

/-- Text around an expression stands around what it matches. -/
theorem language_between (before : Word) (e : Expr) (after : Word) :
    (between before e after).language =
      (literal before).language * e.language * (literal after).language := by
  cases before <;> cases after <;>
    simp [between, language_concat, show (literal []).language = 1 from language_empty]

/-- What putting text before and after keeps holds of an expression between
texts. -/
theorem between_keeps {P : Expr → Prop}
    (hbefore : ∀ text e, text ≠ [] → P e → P (concat (literal text) e))
    (hafter : ∀ text e, text ≠ [] → P e → P (concat e (literal text))) (h : P a)
    (before after : Word) : P (between before a after) := by
  have hfirst : P (if before.isEmpty then a else concat (literal before) a) := by
    split
    · exact h
    · rename_i hne
      exact hbefore _ _ (by simpa using hne) h
  unfold between
  dsimp only
  split
  · exact hfirst
  · rename_i hne
    exact hafter _ _ (by simpa using hne) hfirst

end Expr

/-- A language with text put to one side of its words. -/
def Side.put (side : Side) (text : Word) (rest : Language Char) : Language Char :=
  match side with
  | .start => (Expr.literal text).language * rest
  | .finish => rest * (Expr.literal text).language

/-- Text goes in front of a word of the language. -/
theorem Side.mem_put_start {text word : Word} {L : Language Char} (h : word ∈ L) :
    text ++ word ∈ Side.put .start text L :=
  Language.append_mem_mul (Expr.mem_literal.mpr rfl) h

/-- Text goes behind a word of the language. -/
theorem Side.mem_put_finish {text word : Word} {L : Language Char} (h : word ∈ L) :
    word ++ text ∈ Side.put .finish text L :=
  Language.append_mem_mul h (Expr.mem_literal.mpr rfl)

/-- The outermost characters of a text at one side. -/
def Side.outer (side : Side) (count : Nat) (text : Word) : Word :=
  match side with
  | .start => text.take count
  | .finish => text.drop (text.length - count)

namespace Expr

variable {a b : Expr} {side : Side} {text : Word}

@[simp] theorem literalAt?_literal (side : Side) (text : Word) :
    (literal text).literalAt? side = some text := by
  cases side <;> rfl

@[simp] theorem literalAt?_concat_start (a b : Expr) :
    (concat a b).literalAt? .start = a.literalAt? .start := rfl

@[simp] theorem literalAt?_concat_finish (a b : Expr) :
    (concat a b).literalAt? .finish = b.literalAt? .finish := rfl

@[simp] theorem literalAt?_charClass (side : Side) (members : List Char) :
    (charClass members).literalAt? side = none := by
  cases side <;> rfl

@[simp] theorem literalAt?_alternation (side : Side) (options : List Expr) :
    (alternation options).literalAt? side = none := by
  cases side <;> rfl

@[simp] theorem literalAt?_repetition (side : Side) (body : Expr) (quantifier : Quantifier) :
    (repetition body quantifier).literalAt? side = none := by
  cases side <;> rfl

/-- Leaving out a part that has become empty changes nothing. -/
theorem language_ite_isEmptyLiteral_left :
    (if a.isEmptyLiteral then b else concat a b).language = a.language * b.language := by
  split
  · rename_i ha
    rw [isEmptyLiteral_iff.mp ha, language_empty, one_mul]
  · rw [language_concat]

theorem language_ite_isEmptyLiteral_right :
    (if b.isEmptyLiteral then a else concat a b).language = a.language * b.language := by
  split
  · rename_i hb
    rw [isEmptyLiteral_iff.mp hb, language_empty, mul_one]
  · rw [language_concat]

/-- Taking characters off exposed text divides the language by them. -/
theorem dropAt?_spec {e : Expr} (h : e.literalAt? side = some text) {count : Nat}
    (hcount : count ≤ text.length) :
    ∃ rest, e.dropAt? side count = some rest ∧
      e.language = side.put (side.outer count text) rest.language := by
  induction e using literalAt?.induct side with
  | case1 own =>
    rw [literalAt?, Option.some.injEq] at h
    subst h
    cases side with
    | start =>
      refine ⟨_, rfl, ?_⟩
      rw [Side.put, Side.outer, ← language_literal_append, List.take_append_drop]
    | finish =>
      refine ⟨_, rfl, ?_⟩
      rw [Side.put, Side.outer, ← language_literal_append, List.take_append_drop]
  | case2 a b hside ih =>
    subst hside
    rw [literalAt?] at h
    obtain ⟨rest, hrest, hlang⟩ := ih h
    refine ⟨_, by rw [dropAt?, hrest, Option.map_some], ?_⟩
    rw [language_concat, hlang, language_ite_isEmptyLiteral_left, Side.put, Side.put, mul_assoc]
  | case3 a b hside ih =>
    subst hside
    rw [literalAt?] at h
    obtain ⟨rest, hrest, hlang⟩ := ih h
    refine ⟨_, by rw [dropAt?, hrest, Option.map_some], ?_⟩
    rw [language_concat, hlang, language_ite_isEmptyLiteral_right, Side.put, Side.put, mul_assoc]
  | case4 e hlit hconcat =>
    rw [literalAt?] at h
    · cases h
    · exact hlit
    · exact hconcat

/-- The common beginning of two words is where each of them begins. -/
theorem commonStart_spec (s t : Word) :
    (commonStart s t).length ≤ s.length ∧ s.take (commonStart s t).length = commonStart s t ∧
      (commonStart s t).length ≤ t.length ∧ t.take (commonStart s t).length = commonStart s t := by
  induction s generalizing t with
  | nil => simp [commonStart]
  | cons c s ih =>
    cases t with
    | nil => simp [commonStart]
    | cons d t =>
      rw [commonStart]
      split
      · rename_i he
        obtain ⟨hs, hstake, ht, httake⟩ := ih t
        simp only [List.length_cons, List.take_succ_cons, hstake, httake, he, and_true,
          true_and]
        omega
      · simp

/-- The common text of two words at one side is outermost in both. -/
theorem common_spec (side : Side) (s t : Word) :
    ((common side s t).length ≤ s.length ∧
        side.outer (common side s t).length s = common side s t) ∧
      (common side s t).length ≤ t.length ∧
        side.outer (common side s t).length t = common side s t := by
  cases side with
  | start =>
    obtain ⟨hs, hstake, ht, httake⟩ := commonStart_spec s t
    exact ⟨⟨hs, hstake⟩, ht, httake⟩
  | finish =>
    obtain ⟨hs, hstake, ht, httake⟩ := commonStart_spec s.reverse t.reverse
    rw [List.length_reverse] at hs ht
    simp only [common, Side.outer, List.length_reverse]
    refine ⟨⟨hs, ?_⟩, ht, ?_⟩
    · rw [← hstake, List.take_reverse, List.reverse_reverse, List.length_reverse,
        List.length_drop, Nat.sub_sub_self hs]
    · rw [← httake, List.take_reverse, List.reverse_reverse, List.length_reverse,
        List.length_drop, Nat.sub_sub_self ht]

/-- Text is taken off an expression at one end, and what is left is not empty. -/
structure Stripped (side : Side) (e rest : Expr) : Prop where
  /-- The expression exposes text. -/
  exposed : ∃ text, e.literalAt? side = some text
  /-- Characters of that text are taken off. -/
  dropped : ∃ count, e.dropAt? side count = some rest
  /-- The language is divided by a text. -/
  language : ∃ text, e.language = side.put text rest.language
  /-- Something is left. -/
  nonempty : rest.isEmptyLiteral = false

/-- What holds of literals and of the halves of a concatenation, and goes on
holding when a half is replaced by what is left of it, holds of what is left of
an expression. -/
theorem dropAt?_keeps {P : Expr → Prop} (hliteral : ∀ text, P (literal text))
    (hhalves : ∀ {a b}, P (concat a b) → P a ∧ P b)
    (hfirst : ∀ {a b rest}, P (concat a b) → Stripped .start a rest → P rest → P (concat rest b))
    (hsecond : ∀ {a b rest}, P (concat a b) → Stripped .finish b rest → P rest → P (concat a rest))
    {e : Expr} (h : P e) (hlit : e.literalAt? side = some text) {count : Nat}
    (hcount : count ≤ text.length) : P ((e.dropAt? side count).getD e) := by
  induction e using literalAt?.induct side with
  | case1 own => cases side <;> exact hliteral _
  | case2 a b hside ih =>
    subst hside
    rw [literalAt?] at hlit
    obtain ⟨rest, hrest, hlanguage⟩ := dropAt?_spec hlit hcount
    have hleft := ih (hhalves h).1 hlit
    rw [hrest] at hleft
    rw [dropAt?, hrest, Option.map_some, Option.getD_some]
    split
    · exact (hhalves h).2
    · rename_i hne
      exact hfirst h ⟨⟨text, hlit⟩, ⟨count, hrest⟩, ⟨_, hlanguage⟩, by simpa using hne⟩ hleft
  | case3 a b hside ih =>
    subst hside
    rw [literalAt?] at hlit
    obtain ⟨rest, hrest, hlanguage⟩ := dropAt?_spec hlit hcount
    have hleft := ih (hhalves h).2 hlit
    rw [hrest] at hleft
    rw [dropAt?, hrest, Option.map_some, Option.getD_some]
    split
    · exact (hhalves h).1
    · rename_i hne
      exact hsecond h ⟨⟨text, hlit⟩, ⟨count, hrest⟩, ⟨_, hlanguage⟩, by simpa using hne⟩ hleft
  | case4 e hother hconcat =>
    rw [literalAt?] at hlit
    · cases hlit
    · exact hother
    · exact hconcat

/-- What taking exposed text off keeps holds of what is left of two
expressions. -/
theorem factor_keeps {P : Expr → Prop} (hliteral : ∀ text, P (literal text))
    (hhalves : ∀ {a b}, P (concat a b) → P a ∧ P b)
    (hfirst : ∀ {a b rest}, P (concat a b) → Stripped .start a rest → P rest → P (concat rest b))
    (hsecond : ∀ {a b rest}, P (concat a b) → Stripped .finish b rest → P rest → P (concat a rest))
    (ha : P a) (hb : P b) : P (factor side a b).1 ∧ P (factor side a b).2.1 := by
  unfold factor
  split
  · exact ⟨ha, hb⟩
  · rename_i htext
    unfold commonAt at htext ⊢
    split at htext
    · rename_i s t hs ht
      obtain ⟨⟨hsle, -⟩, htle, -⟩ := common_spec side s t
      exact ⟨dropAt?_keeps hliteral hhalves hfirst hsecond ha hs hsle,
        dropAt?_keeps hliteral hhalves hfirst hsecond hb ht htle⟩
    · exact absurd rfl htext

theorem put_nil (side : Side) (rest : Language Char) : side.put [] rest = rest := by
  have hone : (literal []).language = 1 := language_empty
  cases side <;> simp [Side.put, hone]

theorem put_add (side : Side) (text : Word) (first second : Language Char) :
    side.put text (first + second) = side.put text first + side.put text second := by
  cases side with
  | start => exact mul_add _ _ _
  | finish => exact add_mul _ _ _

/-- What is left of two expressions, with the common text put back, matches what
they matched. -/
theorem language_factor (side : Side) (a b : Expr) :
    a.language = side.put (factor side a b).2.2 (factor side a b).1.language ∧
      b.language = side.put (factor side a b).2.2 (factor side a b).2.1.language := by
  unfold factor
  split
  · exact ⟨(put_nil side _).symm, (put_nil side _).symm⟩
  · rename_i htext
    have htake : ∀ {e : Expr} {text : Word}, e.literalAt? side = some text →
        (commonAt side a b).length ≤ text.length →
        side.outer (commonAt side a b).length text = commonAt side a b →
        e.language = side.put (commonAt side a b)
          ((e.dropAt? side (commonAt side a b).length).getD e).language := by
      intro e text he hle houter
      obtain ⟨rest, hrest, hlang⟩ := dropAt?_spec he hle
      rw [hrest, Option.getD_some, hlang, houter]
    unfold commonAt at htext htake ⊢
    split at htext
    · rename_i s t hs ht
      obtain ⟨⟨hsle, hsouter⟩, htle, htouter⟩ := common_spec side s t
      simp only [hs, ht] at htake ⊢
      exact ⟨htake hs hsle hsouter, htake ht htle htouter⟩
    · exact absurd rfl htext

/-- Union as it is built denotes the sum. -/
theorem language_union (a b : Expr) : (a.union b).language = a.language + b.language := by
  unfold union
  split
  · rename_i he
    rw [he, Language.add_self]
  · obtain ⟨ha, hb⟩ := language_factor .start a b
    obtain ⟨ha', hb'⟩ := language_factor .finish (factor .start a b).1 (factor .start a b).2.1
    have hsum : a.language + b.language = Side.put .start (factor .start a b).2.2
        (Side.put .finish
          (factor .finish (factor .start a b).1 (factor .start a b).2.1).2.2
          ((factor .finish (factor .start a b).1 (factor .start a b).2.1).1.language +
            (factor .finish (factor .start a b).1 (factor .start a b).2.1).2.1.language)) := by
      rw [put_add, ← ha', ← hb', put_add, ← ha, ← hb]
    rw [hsum]
    dsimp only
    split
    · rename_i hempty
      rw [Bool.and_eq_true, isEmptyLiteral_iff, isEmptyLiteral_iff] at hempty
      rw [hempty.1, hempty.2, Language.add_self, language_empty, language_literal_append]
      simp only [Side.put, one_mul]
    · rw [language_between, language_choice]
      simp only [Side.put, mul_assoc]

/-- What an optional expression matches, nothing if it is absent. -/
def languageOf (e : Option Expr) : Language Char := e.elim 0 language

@[simp] theorem languageOf_none : languageOf none = 0 := rfl

@[simp] theorem languageOf_some (e : Expr) : languageOf (some e) = e.language := rfl

theorem languageOf_union? (a b : Option Expr) :
    languageOf (union? a b) = languageOf a + languageOf b := by
  cases a with
  | none => cases b <;> simp [union?, languageOf]
  | some a =>
    cases b with
    | none => simp [union?, languageOf]
    | some b => exact language_union a b

theorem languageOf_append? (a b : Option Expr) :
    languageOf (append? a b) = languageOf a * languageOf b := by
  cases a with
  | none => exact (zero_mul (languageOf b)).symm
  | some a =>
    cases b with
    | none => exact (mul_zero a.language).symm
    | some b => exact language_append a b

/-- Union and concatenation as they are built denote the sum and the product of
what their sides denote, whatever trees the sides are and whether or not they are
there. A union is absent only if both sides are, a concatenation if one is. -/
theorem languageOf_built (a b : Option Expr) :
    (languageOf (union? a b) = languageOf a + languageOf b ∧
      (union? a b = none ↔ a = none ∧ b = none)) ∧
      languageOf (append? a b) = languageOf a * languageOf b ∧
      (append? a b = none ↔ a = none ∨ b = none) := by
  refine ⟨⟨languageOf_union? a b, ?_⟩, languageOf_append? a b, ?_⟩
  · cases a <;> cases b <;> simp [union?]
  · cases a <;> cases b <;> simp [append?]

/-- What holds of the sides of a union holds of the union, if it does when both
are there. -/
theorem forall_union? {P : Expr → Prop} {a b : Option Expr} (ha : ∀ e, a = some e → P e)
    (hb : ∀ e, b = some e → P e)
    (hunion : ∀ {x y}, a = some x → b = some y → P x → P y → P (x.union y)) :
    ∀ e, union? a b = some e → P e := by
  intro e he
  cases a with
  | none =>
    cases b with
    | none => cases he
    | some y =>
      cases he
      exact hb _ rfl
  | some x =>
    cases b with
    | none =>
      cases he
      exact ha _ rfl
    | some y =>
      cases he
      exact hunion rfl rfl (ha x rfl) (hb y rfl)

end Expr

end WordPattern
