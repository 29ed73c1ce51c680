import Mathlib.Data.List.Basic
import WordPattern.Proofs.Expr.Language

/-!
# Ways to match a word

A derivation records every choice that is made while an expression matches a
word: which option is taken, where a word is cut in two, whether an optional
body is used, and into which rounds a repeated body falls. An expression is
unambiguous when its parts leave no choice open, and then every word has at most
one derivation. Whether a word is matched at all is the same question as whether
it has a derivation. The order in which a reader tries derivations is not
described here.
-/

namespace WordPattern

open Computability

/-- The choices made while a word is matched. -/
inductive Derivation where
  /-- A text is read. -/
  | text (word : Word)
  /-- A word is cut in two, and each part is matched. -/
  | both (first second : Derivation)
  /-- The option at a position is taken. -/
  | chosen (position : Nat) (option : Derivation)
  /-- An optional body is left out. -/
  | skipped
  /-- An optional body is used. -/
  | taken (body : Derivation)
  /-- A repetition ends. -/
  | finished
  /-- A repeated body is matched once more, and the repetition goes on. -/
  | round (body later : Derivation)

namespace Expr

variable {a b e : Expr} {d d' : Derivation} {word : Word}

/-- An expression matches a word with the given choices. -/
inductive Derives : Expr → Derivation → Word → Prop where
  /-- A literal reads its text. -/
  | literal (text : Word) : Derives (literal text) (.text text) text
  /-- A class reads a member. -/
  | charClass {members : List Char} {c : Char} (h : c ∈ members) :
    Derives (charClass members) (.text [c]) [c]
  /-- A concatenation matches one part after the other. -/
  | concat {a b : Expr} {d d' : Derivation} {u v : Word} (ha : Derives a d u)
    (hb : Derives b d' v) : Derives (concat a b) (.both d d') (u ++ v)
  /-- An alternation matches what an option matches. -/
  | alternation {options : List Expr} {position : Nat} {e : Expr} {d : Derivation} {word : Word}
    (hposition : options[position]? = some e) (h : Derives e d word) :
    Derives (alternation options) (.chosen position d) word
  /-- An optional body may be left out. -/
  | skipped (body : Expr) : Derives (repetition body .optional) .skipped []
  /-- An optional body may be used. -/
  | taken {body : Expr} {d : Derivation} {word : Word} (h : Derives body d word) :
    Derives (repetition body .optional) (.taken d) word
  /-- A repetition may end. -/
  | finished (body : Expr) : Derives (repetition body .star) .finished []
  /-- A repetition may go on. -/
  | round {body : Expr} {d d' : Derivation} {u v : Word} (h : Derives body d u)
    (hlater : Derives (repetition body .star) d' v) :
    Derives (repetition body .star) (.round d d') (u ++ v)

/-- A derivation of a concatenation consists of one for each part. -/
theorem derives_concat_iff : Derives (concat a b) d word ↔
    ∃ first second u v, Derives a first u ∧ Derives b second v ∧ d = .both first second ∧
      word = u ++ v := by
  constructor
  · intro h
    cases h with
    | concat ha hb => exact ⟨_, _, _, _, ha, hb, rfl, rfl⟩
  · intro h
    obtain ⟨first, second, u, v, ha, hb, rfl, rfl⟩ := h
    exact .concat ha hb

/-- A derivation of a repetition is at its end or consists of a round and a
derivation of the rest. -/
theorem derives_star_iff : Derives (repetition e .star) d word ↔
    (d = .finished ∧ word = []) ∨ ∃ body later u v, Derives e body u ∧
      Derives (repetition e .star) later v ∧ d = .round body later ∧ word = u ++ v := by
  constructor
  · intro h
    cases h with
    | finished => exact Or.inl ⟨rfl, rfl⟩
    | round hbody hlater => exact Or.inr ⟨_, _, _, _, hbody, hlater, rfl, rfl⟩
  · intro h
    rcases h with ⟨rfl, rfl⟩ | ⟨body, later, u, v, hbody, hlater, rfl, rfl⟩
    · exact .finished e
    · exact .round hbody hlater

/-- A word with a derivation is matched. -/
theorem Derives.mem (h : Derives e d word) : word ∈ e.language := by
  induction h with
  | literal text => exact mem_literal.mpr rfl
  | charClass h => exact mem_charClass.mpr ⟨_, h, rfl⟩
  | concat _ _ iha ihb => exact language_concat ▸ Language.append_mem_mul iha ihb
  | alternation hposition _ ih =>
    exact mem_alternation.mpr ⟨_, List.mem_of_getElem? hposition, ih⟩
  | skipped body => exact nil_mem_repetition body .optional
  | taken _ ih => exact language_optional ▸ Or.inr ih
  | finished body => exact nil_mem_repetition body .star
  | round _ _ ih ihlater =>
    rw [language] at ihlater ⊢
    rw [← Language.one_add_self_mul_kstar_eq_kstar]
    exact Or.inr (Language.append_mem_mul ih ihlater)

/-- A word that is matched has a derivation. -/
theorem exists_derives (h : word ∈ e.language) : ∃ d, Derives e d word := by
  induction e using tree_induction generalizing word with
  | literal text =>
    rw [mem_literal.mp h]
    exact ⟨_, .literal text⟩
  | charClass members =>
    obtain ⟨c, hc, rfl⟩ := mem_charClass.mp h
    exact ⟨_, .charClass hc⟩
  | concat a b iha ihb =>
    rw [language_concat] at h
    obtain ⟨u, hu, v, hv, rfl⟩ := Language.mem_mul.mp h
    obtain ⟨first, hfirst⟩ := iha hu
    obtain ⟨second, hsecond⟩ := ihb hv
    exact ⟨_, .concat hfirst hsecond⟩
  | alternation options ih =>
    obtain ⟨e, he, hword⟩ := mem_alternation.mp h
    obtain ⟨position, hposition⟩ := List.mem_iff_getElem?.mp he
    obtain ⟨d, hd⟩ := ih e he hword
    exact ⟨_, .alternation hposition hd⟩
  | repetition body quantifier ih =>
    cases quantifier with
    | optional =>
      rw [language_optional] at h
      rcases (Language.mem_add _ _ _).mp h with hnil | hbody
      · rw [(Language.mem_one _).mp hnil]
        exact ⟨_, .skipped body⟩
      · obtain ⟨d, hd⟩ := ih hbody
        exact ⟨_, .taken hd⟩
    | star =>
      rw [language] at h
      obtain ⟨parts, rfl, hparts⟩ := Language.mem_kstar.mp h
      clear h
      induction parts with
      | nil => exact ⟨_, .finished body⟩
      | cons first later ihparts =>
        obtain ⟨hfirst, hlater⟩ := List.forall_mem_cons.mp hparts
        obtain ⟨d, hd⟩ := ih hfirst
        obtain ⟨d', hd'⟩ := ihparts hlater
        exact ⟨_, .round hd hd'⟩

/-- The words matched are those with a derivation. -/
theorem mem_language_iff : word ∈ e.language ↔ ∃ d, Derives e d word :=
  ⟨exists_derives, fun ⟨_, h⟩ => h.mem⟩

end Expr

/-- Words of one language in front of words of another can be cut apart in one
way only. -/
def Splits (L M : Language Char) : Prop :=
  ∀ ⦃u u' v v'⦄, u ∈ L → u' ∈ L → v ∈ M → v' ∈ M → u ++ v = u' ++ v' → u = u'

/-- Two languages share no word. -/
def Apart (L M : Language Char) : Prop := ∀ word ∈ L, word ∉ M

namespace Expr

variable {a b e : Expr} {d d' : Derivation} {word : Word}

/-- No choice is left open while a word is matched. -/
inductive Unambiguous : Expr → Prop where
  /-- A text is read in one way. -/
  | literal (text : Word) : Unambiguous (literal text)
  /-- A character is read in one way. -/
  | charClass (members : List Char) : Unambiguous (charClass members)
  /-- Words can be cut in one way only. -/
  | concat {a b : Expr} (ha : Unambiguous a) (hb : Unambiguous b)
    (hcut : Splits a.language b.language) : Unambiguous (concat a b)
  /-- No two options match the same word. -/
  | alternation {options : List Expr} (hall : ∀ e ∈ options, Unambiguous e)
    (hapart : options.Pairwise fun e f => Apart e.language f.language) :
    Unambiguous (alternation options)
  /-- The body does not match what leaving it out matches. -/
  | optional {body : Expr} (h : Unambiguous body) (hnil : [] ∉ body.language) :
    Unambiguous (repetition body .optional)
  /-- Rounds are not empty, and words can be cut into rounds in one way only. -/
  | star {body : Expr} (h : Unambiguous body) (hnil : [] ∉ body.language)
    (hcut : Splits body.language body.language∗) : Unambiguous (repetition body .star)

/-- Where no two options match the same word, the positions of options that match one
word are the same. -/
theorem position_unique {options : List Expr} {i j : Nat}
    (hapart : options.Pairwise fun e f => Apart e.language f.language)
    (hi : options[i]? = some a) (hj : options[j]? = some b) (ha : word ∈ a.language)
    (hb : word ∈ b.language) : i = j := by
  obtain ⟨hilt, rfl⟩ := List.getElem?_eq_some_iff.mp hi
  obtain ⟨hjlt, rfl⟩ := List.getElem?_eq_some_iff.mp hj
  have hpair := List.pairwise_iff_getElem.mp hapart
  rcases Nat.lt_trichotomy i j with hlt | heq | hgt
  · exact absurd hb (hpair i j hilt hjlt hlt _ ha)
  · exact heq
  · exact absurd ha (hpair j i hjlt hilt hgt _ hb)

/-- If words of the body have one derivation and are not empty, and words can be cut
into rounds in one way only, then a repetition derives a word in one way only. -/
theorem derives_star_unique {body : Expr} (hnil : [] ∉ body.language)
    (hcut : Splits body.language body.language∗)
    (hbody : ∀ {d d' word}, Derives body d word → Derives body d' word → d = d')
    (hd : Derives (repetition body .star) d word) (hd' : Derives (repetition body .star) d' word) :
    d = d' := by
  have hround : ∀ {first : Derivation} {u v : Word}, Derives body first u → u ++ v ≠ [] :=
    fun hfirst he => hnil ((List.append_eq_nil_iff.mp he).1 ▸ hfirst.mem)
  -- by induction on the rounds of one derivation; the cuts of the word fix those of the other
  induction d generalizing d' word with
  | round first later _ ihlater =>
    obtain ⟨he, -⟩ | ⟨_, _, u, v, hfirst, hlater, he, rfl⟩ := derives_star_iff.mp hd
    · cases he
    · cases he
      obtain ⟨-, hend⟩ | ⟨first', later', u', v', hfirst', hlater', rfl, hword⟩ :=
        derives_star_iff.mp hd'
      · exact absurd hend (hround hfirst)
      · have hmem := hlater.mem
        have hmem' := hlater'.mem
        rw [language] at hmem hmem'
        obtain rfl := hcut hfirst.mem hfirst'.mem hmem hmem' hword
        obtain rfl := List.append_cancel_left hword
        rw [hbody hfirst hfirst', ihlater hlater hlater']
  | finished =>
    obtain ⟨-, rfl⟩ | ⟨_, _, _, _, _, _, he, -⟩ := derives_star_iff.mp hd
    · obtain ⟨rfl, -⟩ | ⟨first', later', u', v', hfirst', -, -, hword⟩ :=
        derives_star_iff.mp hd'
      · rfl
      · exact absurd hword.symm (hround hfirst')
    · cases he
  | text => cases hd
  | both => cases hd
  | chosen => cases hd
  | skipped => cases hd
  | taken => cases hd

/-- With an unambiguous expression, a word has at most one derivation. -/
theorem Unambiguous.derives_unique (h : e.Unambiguous) (hd : Derives e d word)
    (hd' : Derives e d' word) : d = d' := by
  induction h generalizing d d' word with
  | literal text =>
    cases hd
    cases hd'
    rfl
  | charClass members =>
    cases hd
    cases hd'
    rfl
  | concat _ _ hcut iha ihb =>
    obtain ⟨first, second, u, v, hfirst, hsecond, rfl, rfl⟩ := derives_concat_iff.mp hd
    obtain ⟨first', second', u', v', hfirst', hsecond', rfl, hword⟩ := derives_concat_iff.mp hd'
    obtain rfl := hcut hfirst.mem hfirst'.mem hsecond.mem hsecond'.mem hword
    obtain rfl := List.append_cancel_left hword
    rw [iha hfirst hfirst', ihb hsecond hsecond']
  | @alternation options hall hapart ih =>
    cases hd with
    | @alternation _ i e first _ hi hfirst =>
      cases hd' with
      | @alternation _ j f second _ hj hsecond =>
        obtain rfl := position_unique hapart hi hj hfirst.mem hsecond.mem
        obtain rfl := Option.some.inj (hi.symm.trans hj)
        rw [ih e (List.mem_of_getElem? hi) hfirst hsecond]
  | optional _ hnil ih =>
    cases hd with
    | skipped =>
      cases hd' with
      | skipped => rfl
      | taken hbody => exact absurd hbody.mem hnil
    | taken hbody =>
      cases hd' with
      | skipped => exact absurd hbody.mem hnil
      | taken hbody' => rw [ih hbody hbody']
  | star _ hnil hcut ih => exact derives_star_unique hnil hcut ih hd hd'

/-- An expression stands somewhere in another one. -/
inductive Part (e : Expr) : Expr → Prop where
  /-- The whole is a part. -/
  | whole : Part e e
  /-- In the first half of a concatenation. -/
  | first {a b : Expr} (h : Part e a) : Part e (concat a b)
  /-- In the second half of a concatenation. -/
  | second {a b : Expr} (h : Part e b) : Part e (concat a b)
  /-- In an option. -/
  | option {options : List Expr} {x : Expr} (hmem : x ∈ options) (h : Part e x) :
    Part e (alternation options)
  /-- In the body of a repetition. -/
  | body {x : Expr} {quantifier : Quantifier} (h : Part e x) : Part e (repetition x quantifier)

/-- A part of a part is a part of the whole. -/
theorem Part.trans {x : Expr} (h : Part x a) (ha : Part a e) : Part x e := by
  induction ha with
  | whole => exact h
  | first _ ih => exact .first ih
  | second _ ih => exact .second ih
  | option hmem _ ih => exact .option hmem ih
  | body _ ih => exact .body ih

/-- The parts of an unambiguous expression are unambiguous. -/
theorem Unambiguous.part (h : e.Unambiguous) (hpart : Part a e) : a.Unambiguous := by
  induction hpart with
  | whole => exact h
  | first _ ih =>
    cases h with
    | concat ha _ _ => exact ih ha
  | second _ ih =>
    cases h with
    | concat _ hb _ => exact ih hb
  | option hmem _ ih =>
    cases h with
    | alternation hall _ => exact ih (hall _ hmem)
  | body _ ih =>
    cases h with
    | optional h _ => exact ih h
    | star h _ _ => exact ih h

end Expr

end WordPattern
