import Mathlib.Data.List.Chain
import WordPattern.Proofs.Expr.NormalForm

/-!
# Literals that stand next to one another

Where one expression is put in front of another, text meets text if the first one
ends with text and the second one begins with text. Concatenation joins the two
only where it finds a literal one level down; here it is described what remains.
A kind of expression is parted in an expression if no text follows a first half
of that kind. Union keeps this, whatever the kind, since a choice stands between
the texts that it puts around it, and taking exposed text off does, since it opens
no new end. It is concatenation that may not.
-/

namespace WordPattern

/-- All words of a language begin with one letter. -/
def BeginsWith (letter : Char) (L : Language Char) : Prop := ∀ word ∈ L, word.head? = some letter

/-- All words of a language end with one letter. -/
def EndsWith (letter : Char) (L : Language Char) : Prop := ∀ word ∈ L, word.getLast? = some letter

namespace Expr

variable {a b e x : Expr} {kind : Expr → Prop} {side : Side} {text : Word}

/-- The factors of an expression from left to right, in whatever way its
concatenations lean. -/
def factors : Expr → List Expr
  | concat a b => a.factors ++ b.factors
  | e => [e]

/-- A literal. -/
def IsLiteral (e : Expr) : Prop := ∃ text, e = literal text

/-- An expression that ends with text. -/
def EndsInText (e : Expr) : Prop := e.literalAt? .finish ≠ none

/-- Behind a first half of the given kind no text is exposed. -/
def Parted (kind : Expr → Prop) (e : Expr) : Prop :=
  ∀ ⦃a b⦄, Part (concat a b) e → kind a → b.literalAt? .start = none

theorem parted_literal (kind : Expr → Prop) (text : Word) : Parted kind (literal text) := nofun

theorem parted_charClass (kind : Expr → Prop) (members : List Char) :
    Parted kind (charClass members) := nofun

theorem parted_concat (hseam : kind a → b.literalAt? .start = none) (ha : Parted kind a)
    (hb : Parted kind b) : Parted kind (concat a b) := by
  intro p q hpart
  cases hpart with
  | whole => exact hseam
  | first h => exact ha h
  | second h => exact hb h

theorem parted_alternation {options : List Expr} (h : ∀ x ∈ options, Parted kind x) :
    Parted kind (alternation options) := by
  intro p q hpart
  cases hpart with
  | option hmem hpart => exact h _ hmem hpart

theorem Parted.repetition (h : Parted kind e) (quantifier : Quantifier) :
    Parted kind (repetition e quantifier) := by
  intro p q hpart
  cases hpart with
  | body hpart => exact h hpart

theorem Parted.part (h : Parted kind e) (hpart : Part x e) : Parted kind x :=
  fun _ _ hinner => h (hinner.trans hpart)

theorem Parted.halves (h : Parted kind (concat a b)) : Parted kind a ∧ Parted kind b :=
  ⟨h.part (.first .whole), h.part (.second .whole)⟩

theorem Parted.options (h : Parted kind a) : ∀ x ∈ a.options, Parted kind x := by
  rcases options_cases a with ⟨options, rfl⟩ | hself
  · exact fun x hx => h.part (.option hx .whole)
  · rw [hself]
    exact List.forall_mem_singleton.mpr h

theorem Parted.either (ha : Parted kind a) (hb : Parted kind b) : Parted kind (either a b) :=
  either_keeps ha.options hb.options fun _ _ hall => parted_alternation hall

theorem Parted.choice (ha : Parted kind a) (hb : Parted kind b) : Parted kind (choice a b) := by
  unfold Expr.choice
  split
  · exact hb.repetition _
  · split
    · exact ha.repetition _
    · split
      · exact ((ha.part (.body .whole)).either hb).repetition _
      · exact (ha.either (hb.part (.body .whole))).repetition _
      · split
        · exact parted_charClass kind _
        · exact ha.either hb

/-- A kind of expressions that end with text. All literals are of the kind, and
what is left of an expression is of the kind only if the expression was. -/
structure Textual (kind : Expr → Prop) : Prop where
  /-- Literals are of the kind. -/
  literal : ∀ text, kind (literal text)
  /-- Expressions of the kind end with text. -/
  endsInText : ∀ {a}, kind a → EndsInText a
  /-- Taking text off the start does not make an expression one of the kind. -/
  of_stripped : ∀ {a rest}, Parted kind a → Stripped .start a rest → kind rest → kind a

/-- Taking text off one end exposes none at the other. -/
theorem literalAt?_of_dropAt? {other : Side} (hside : other ≠ side) {rest : Expr} {count : Nat}
    (hnone : e.literalAt? other = none) (hdrop : e.dropAt? side count = some rest) :
    rest.literalAt? other = none := by
  cases e with
  | literal text => simp at hnone
  | concat a b =>
    cases side with
    | start =>
      cases other with
      | start => exact absurd rfl hside
      | finish =>
        obtain ⟨a', -, rfl⟩ := Option.map_eq_some_iff.mp hdrop
        split <;> exact hnone
    | finish =>
      cases other with
      | start =>
        obtain ⟨b', -, rfl⟩ := Option.map_eq_some_iff.mp hdrop
        split <;> exact hnone
      | finish => exact absurd rfl hside
  | charClass => cases side <;> cases hdrop
  | alternation => cases side <;> cases hdrop
  | repetition => cases side <;> cases hdrop

theorem textual_endsInText : Textual EndsInText where
  literal := fun text => by simp [EndsInText]
  endsInText := fun h => h
  of_stripped := by
    intro a rest _ hstripped hrest hnone
    obtain ⟨count, hdrop⟩ := hstripped.dropped
    exact hrest (literalAt?_of_dropAt? (by decide) hnone hdrop)

/-- Only a literal becomes a literal when text is taken off its start. -/
theorem isLiteral_of_dropAt? (h : Parted IsLiteral e) {count : Nat}
    (hdrop : e.dropAt? .start count = some (literal text)) : IsLiteral e := by
  induction e using tree_induction generalizing text with
  | literal own => exact ⟨own, rfl⟩
  | concat a b iha _ =>
    obtain ⟨a', ha', he⟩ := Option.map_eq_some_iff.mp hdrop
    split at he
    · -- The first half has become empty, so it was a literal, and text follows it.
      rename_i hempty
      rw [isEmptyLiteral_iff.mp hempty] at ha'
      have hnone := h .whole (iha h.halves.1 ha')
      rw [he, literalAt?_literal] at hnone
      cases hnone
    · cases he
  | charClass => cases hdrop
  | alternation => cases hdrop
  | repetition => cases hdrop

theorem textual_isLiteral : Textual IsLiteral where
  literal := fun text => ⟨text, rfl⟩
  endsInText := by
    rintro a ⟨text, rfl⟩
    exact textual_endsInText.literal text
  of_stripped := by
    rintro a _ hparted hstripped ⟨text, rfl⟩
    obtain ⟨count, hdrop⟩ := hstripped.dropped
    exact isLiteral_of_dropAt? hparted hdrop

theorem Parted.factor (hkind : Textual kind) (ha : Parted kind a) (hb : Parted kind b)
    (side : Side) : Parted kind (factor side a b).1 ∧ Parted kind (factor side a b).2.1 := by
  refine factor_keeps (parted_literal kind) Parted.halves (fun h hstripped hrest => ?_)
    (fun h hstripped hrest => ?_) ha hb
  · refine parted_concat (fun hleft => ?_) hrest h.halves.2
    exact h .whole (hkind.of_stripped h.halves.1 hstripped hleft)
  · obtain ⟨count, hdrop⟩ := hstripped.dropped
    refine parted_concat (fun hleft => ?_) h.halves.1 hrest
    exact literalAt?_of_dropAt? (by decide) (h .whole hleft) hdrop

/-- Texts around an expression that exposes none meet no text. -/
theorem Parted.between (hkind : Textual kind) (h : Parted kind e)
    (hplain : ∀ side, e.literalAt? side = none) (before after : Word) :
    Parted kind (between before e after) := by
  have hfirst : ∃ first, first = (if before.isEmpty then e else concat (literal before) e) ∧
      Parted kind first ∧ first.literalAt? .finish = none := by
    refine ⟨_, rfl, ?_⟩
    split
    · exact ⟨h, hplain .finish⟩
    · exact ⟨parted_concat (fun _ => hplain .start) (parted_literal kind before) h,
        hplain .finish⟩
  obtain ⟨first, heq, hparted, hnone⟩ := hfirst
  rw [Expr.between, ← heq]
  split
  · exact hparted
  · exact parted_concat (fun hends => absurd hnone (hkind.endsInText hends)) hparted
      (parted_literal kind after)

/-- A choice exposes no text. -/
theorem literalAt?_choice (ha : a.Normal) (hb : b.Normal) (hapart : Apart a.language b.language)
    (side : Side) : (choice a b).literalAt? side = none := by
  unfold Expr.choice
  split
  · exact literalAt?_repetition side b _
  · rename_i hane
    split
    · exact literalAt?_repetition side a _
    · rename_i hbne
      have hsa := ha.solid (by simpa using hane)
      have hsb := hb.solid (by simpa using hbne)
      split
      · exact literalAt?_repetition side _ _
      · exact literalAt?_repetition side _ _
      · split
        · exact literalAt?_charClass side _
        · obtain ⟨-, options, heither⟩ := hsa.either_spec hsb (hsa.ne_of_apart hapart)
          rw [heither, literalAt?_alternation]

/-- In a union, too, no text follows an expression of the kind. -/
theorem Parted.union (hkind : Textual kind) (hna : a.Normal) (hnb : b.Normal)
    (hapart : Apart a.language b.language) (ha : Parted kind a) (hb : Parted kind b) :
    Parted kind (a.union b) := by
  obtain ⟨x, y, before, after, hx, hy, hxy, hunion⟩ :=
    union_eq (P := fun e => e.Normal ∧ Parted kind e) (fun h => h.1)
      (fun side _ _ hx hy => ⟨⟨(hx.1.factor hy.1 side).1, (hx.2.factor hkind hy.2 side).1⟩,
        (hx.1.factor hy.1 side).2, (hx.2.factor hkind hy.2 side).2⟩) ⟨hna, ha⟩ ⟨hnb, hb⟩ hapart
  rw [hunion]
  exact (hx.2.choice hy.2).between hkind (literalAt?_choice hx.1 hy.1 hxy) before after

/-- Text is exposed at the start one level down at most, where concatenation finds
it. -/
def Shallow (e : Expr) : Prop :=
  e.literalAt? .start = none ∨ IsLiteral e ∨ ∃ text rest, e = concat (literal text) rest

/-- A concatenation keeps expressions of the kind away from text, if text that
follows them is one level down and they are literals. -/
theorem Parted.append (hkind : Textual kind) (ha : Parted kind a) (hb : Parted kind b)
    (hseam : b.isEmptyLiteral = false → kind a →
      b.literalAt? .start = none ∨ IsLiteral a ∧ b.Shallow) : Parted kind (a.append b) := by
  unfold Expr.append
  split
  · exact hb
  · split
    · exact ha
    · rename_i hne
      split
      · exact parted_literal kind _
      · exact parted_concat (fun _ => hb .whole (hkind.literal _)) (parted_literal kind _)
          hb.halves.2
      · refine parted_concat (fun hends => ?_) ha.halves.1 (parted_literal kind _)
        have hnone := ha .whole hends
        rw [literalAt?_literal] at hnone
        cases hnone
      · rename_i hliterals hfirst _
        refine parted_concat (fun hends => ?_) ha hb
        rcases hseam (by simpa using hne) hends with hnone | ⟨⟨s, rfl⟩, hshallow⟩
        · exact hnone
        · rcases hshallow with hnone | ⟨t, rfl⟩ | ⟨t, rest, rfl⟩
          · exact hnone
          · exact absurd rfl (hliterals s t rfl)
          · exact absurd rfl (hfirst s t rest rfl)

theorem Letters.parted (h : e.Letters) (kind : Expr → Prop) : Parted kind e := by
  obtain ⟨members, hmembers⟩ := h.classMembers?
  rcases classMembers?_cases hmembers with ⟨c, rfl, -⟩ | rfl
  · exact parted_literal kind _
  · exact parted_charClass kind _

theorem Letters.shallow (h : e.Letters) : e.Shallow := by
  obtain ⟨members, hmembers⟩ := h.classMembers?
  rcases classMembers?_cases hmembers with ⟨c, rfl, -⟩ | rfl
  · exact Or.inr (Or.inl ⟨[c], rfl⟩)
  · exact Or.inl (literalAt?_charClass .start members)

/-- What is put behind a literal, or behind an expression that exposes no text at
its start, leaves any text at the start one level down. -/
theorem shallow_append (ha : a.Solid) (hstart : IsLiteral a ∨ a.literalAt? .start = none)
    (b : Expr) : (a.append b).Shallow := by
  unfold Expr.append
  split
  · rename_i hempty
    rw [ha.isEmptyLiteral] at hempty
    cases hempty
  · split
    · exact hstart.elim (fun h => Or.inr (Or.inl h)) Or.inl
    · split
      · exact Or.inr (Or.inl ⟨_, rfl⟩)
      · exact Or.inr (Or.inr ⟨_, _, rfl⟩)
      · rcases hstart with ⟨text, htext⟩ | hnone
        · cases htext
        · exact Or.inl hnone
      · rcases hstart with ⟨text, rfl⟩ | hnone
        · exact Or.inr (Or.inr ⟨_, _, rfl⟩)
        · exact Or.inl hnone

/-- Text that a solid expression exposes is not empty. -/
theorem Solid.ne_nil_of_literalAt? (h : e.Solid) (htext : e.literalAt? side = some text) :
    text ≠ [] := by
  induction h with
  | literal h =>
    rw [literalAt?_literal] at htext
    exact Option.some.inj htext ▸ h
  | concat _ _ iha ihb =>
    cases side with
    | start => exact iha htext
    | finish => exact ihb htext
  | charClass => simp at htext
  | alternation => simp at htext
  | repetition => simp at htext

/-- Words begin with the text that is exposed at the start. -/
theorem Solid.begins (h : e.Solid) (htext : e.literalAt? .start = some text) :
    ∃ letter, BeginsWith letter e.language := by
  obtain ⟨rest, -, hlanguage⟩ := dropAt?_spec htext (Nat.le_refl text.length)
  rw [Side.outer, List.take_length, Side.put] at hlanguage
  obtain ⟨letter, tail, rfl⟩ := List.exists_cons_of_ne_nil (h.ne_nil_of_literalAt? htext)
  refine ⟨letter, fun word hword => ?_⟩
  rw [hlanguage] at hword
  obtain ⟨u, hu, v, -, rfl⟩ := Language.mem_mul.mp hword
  rw [mem_literal.mp hu]
  rfl

/-- Words end with the text that is exposed at the finish. -/
theorem Solid.ends (h : e.Solid) (htext : e.literalAt? .finish = some text) :
    ∃ letter, EndsWith letter e.language := by
  obtain ⟨rest, -, hlanguage⟩ := dropAt?_spec htext (Nat.le_refl text.length)
  rw [Side.outer, Nat.sub_self, List.drop_zero, Side.put] at hlanguage
  have hne := h.ne_nil_of_literalAt? htext
  refine ⟨text.getLast hne, fun word hword => ?_⟩
  rw [hlanguage] at hword
  obtain ⟨u, -, v, hv, rfl⟩ := Language.mem_mul.mp hword
  rw [mem_literal.mp hv, List.getLast?_append_of_ne_nil _ hne, List.getLast?_eq_some_getLast hne]

/-- In a union, too, text at the start is one level down, unless all words of both
sides begin with one letter. -/
theorem shallow_union (ha : a.Normal) (hb : b.Normal) (hapart : Apart a.language b.language) :
    (a.union b).Shallow ∨ ∃ letter, BeginsWith letter (a.union b).language := by
  obtain ⟨x, y, before, after, hx, hy, hxy, hunion⟩ :=
    union_eq (fun h => h) (fun side _ _ hx hy => hx.factor hy side) ha hb hapart
  rw [hunion]
  have hplain := literalAt?_choice hx hy hxy .start
  cases before with
  | nil =>
    refine Or.inl (Or.inl ?_)
    cases after <;> exact hplain
  | cons letter tail =>
    refine Or.inr ⟨letter, fun word hword => ?_⟩
    rw [language_between, mul_assoc] at hword
    obtain ⟨u, hu, v, -, rfl⟩ := Language.mem_mul.mp hword
    rw [mem_literal.mp hu]
    rfl

/-- A solid concatenation matches a word of several letters. -/
theorem Solid.exists_long (h : (Expr.concat a b).Solid) :
    ∃ letter rest, letter :: rest ∈ (Expr.concat a b).language ∧ rest ≠ [] := by
  cases h with
  | concat ha hb =>
    obtain ⟨u, hu, hune⟩ := ha.exists_mem_ne_nil
    obtain ⟨v, hv, hvne⟩ := hb.exists_mem_ne_nil
    obtain ⟨letter, tail, rfl⟩ := List.exists_cons_of_ne_nil hune
    exact ⟨letter, tail ++ v, language_concat ▸ Language.append_mem_mul hu hv,
      List.append_ne_nil_of_right_ne_nil tail hvne⟩

/-- An expression that is not a literal matches several words, if no text follows
a literal in it and no choice is left open. -/
theorem Solid.several (h : e.Solid) (hunambiguous : e.Unambiguous) (hparted : Parted IsLiteral e)
    (hliteral : ¬e.IsLiteral) : ∃ u ∈ e.language, ∃ v ∈ e.language, u ≠ v := by
  induction h with
  | @literal text => exact absurd ⟨text, rfl⟩ hliteral
  | charClass hlength hnodup =>
    obtain ⟨c, hc, d, hd, hne⟩ := (Solid.charClass hlength hnodup).exists_ne
    exact ⟨[c], mem_charClass.mpr ⟨c, hc, rfl⟩, [d], mem_charClass.mpr ⟨d, hd, rfl⟩,
      fun he => hne (List.cons.inj he).1⟩
  | @concat a b ha hb iha ihb =>
    obtain ⟨hua, hub⟩ := hunambiguous.halves
    rw [language_concat]
    by_cases hlit : a.IsLiteral
    · have hlit' : ¬b.IsLiteral := by
        rintro ⟨text, rfl⟩
        have hnone := hparted .whole hlit
        rw [literalAt?_literal] at hnone
        cases hnone
      obtain ⟨u, hu⟩ := ha.proper.exists_mem
      obtain ⟨v, hv, v', hv', hne⟩ := ihb hub hparted.halves.2 hlit'
      exact ⟨u ++ v, Language.append_mem_mul hu hv, u ++ v', Language.append_mem_mul hu hv',
        fun he => hne (List.append_cancel_left he)⟩
    · obtain ⟨u, hu, u', hu', hne⟩ := iha hua hparted.halves.1 hlit
      obtain ⟨v, hv⟩ := hb.proper.exists_mem
      exact ⟨u ++ v, Language.append_mem_mul hu hv, u' ++ v, Language.append_mem_mul hu' hv,
        fun he => hne (List.append_cancel_right he)⟩
  | @alternation options hlength _ _ _ hall _ =>
    cases hunambiguous with
    | alternation _ hapart =>
      match options, hlength with
      | x :: y :: rest, _ =>
        obtain ⟨u, hu⟩ := (hall x List.mem_cons_self).proper.exists_mem
        obtain ⟨v, hv⟩ := (hall y (List.mem_cons_of_mem _ List.mem_cons_self)).proper.exists_mem
        refine ⟨u, mem_alternation.mpr ⟨x, List.mem_cons_self, hu⟩, v,
          mem_alternation.mpr ⟨y, List.mem_cons_of_mem _ List.mem_cons_self, hv⟩, ?_⟩
        rintro rfl
        exact (List.pairwise_cons.mp hapart).1 y List.mem_cons_self u hu hv
  | @repetition body hbody quantifier _ =>
    obtain ⟨word, hword, hne⟩ := hbody.exists_mem_ne_nil
    exact ⟨word, mem_repetition hword quantifier, [], nil_mem_repetition body quantifier, hne⟩

theorem factors_ne_nil (e : Expr) : e.factors ≠ [] := by
  induction e using tree_induction with
  | concat a b iha _ => exact List.append_ne_nil_of_left_ne_nil iha b.factors
  | literal => exact List.cons_ne_nil _ _
  | charClass => exact List.cons_ne_nil _ _
  | alternation => exact List.cons_ne_nil _ _
  | repetition => exact List.cons_ne_nil _ _

/-- Whatever has a single factor is that factor. -/
theorem eq_of_factors_eq (h : e.factors = [x]) : e = x := by
  cases e with
  | concat a b =>
    have hlength := congrArg List.length h
    have ha := List.length_pos_of_ne_nil a.factors_ne_nil
    have hb := List.length_pos_of_ne_nil b.factors_ne_nil
    rw [factors, List.length_append, List.length_singleton] at hlength
    omega
  | literal => exact (List.cons.inj h).1
  | charClass => exact (List.cons.inj h).1
  | alternation => exact (List.cons.inj h).1
  | repetition => exact (List.cons.inj h).1

/-- A literal that comes first is exposed at the start. -/
theorem literalAt?_of_head? (h : e.factors.head? = some (literal text)) :
    e.literalAt? .start = some text := by
  induction e using tree_induction with
  | concat a b iha _ =>
    rw [factors, List.head?_append_of_ne_nil _ a.factors_ne_nil] at h
    exact iha h
  | literal own =>
    cases h
    rfl
  | charClass => cases h
  | alternation => cases h
  | repetition => cases h

/-- A literal that comes last is exposed at the finish. -/
theorem literalAt?_of_getLast? (h : e.factors.getLast? = some (literal text)) :
    e.literalAt? .finish = some text := by
  induction e using tree_induction with
  | concat a b _ ihb =>
    rw [factors, List.getLast?_append_of_ne_nil _ b.factors_ne_nil] at h
    exact ihb h
  | literal own =>
    cases h
    rfl
  | charClass => cases h
  | alternation => cases h
  | repetition => cases h

/-- Where no text follows an expression that ends with text, no two literals are
adjacent. -/
theorem Parted.isChain_factors (h : Parted EndsInText e) :
    e.factors.IsChain fun x y => ¬(x.IsLiteral ∧ y.IsLiteral) := by
  induction e using tree_induction with
  | concat a b iha ihb =>
    refine List.isChain_append.mpr ⟨iha h.halves.1, ihb h.halves.2, ?_⟩
    rintro _ hlast _ hhead ⟨⟨s, rfl⟩, ⟨t, rfl⟩⟩
    have hends : a.EndsInText := by simp [EndsInText, literalAt?_of_getLast? hlast]
    have hnone := h .whole hends
    rw [literalAt?_of_head? hhead] at hnone
    cases hnone
  | literal => exact List.isChain_singleton _
  | charClass => exact List.isChain_singleton _
  | alternation => exact List.isChain_singleton _
  | repetition => exact List.isChain_singleton _

/-- Where no text follows a literal, factors do not begin with two literals. -/
theorem Parted.factors_ne (h : Parted IsLiteral e) (s t : Word) (rest : List Expr) :
    e.factors ≠ literal s :: literal t :: rest := by
  intro he
  induction e using tree_induction generalizing rest with
  | concat a b iha _ =>
    rw [factors, List.append_eq_cons_iff] at he
    obtain ⟨hnil, -⟩ | ⟨more, ha, hrest⟩ := he
    · exact a.factors_ne_nil hnil
    · cases more with
      | nil =>
        have hnone := h .whole ⟨s, eq_of_factors_eq ha⟩
        have hhead : b.factors.head? = some (literal t) := by
          rw [← List.nil_append b.factors, ← hrest, List.head?_cons]
        rw [literalAt?_of_head? hhead] at hnone
        cases hnone
      | cons next more =>
        cases hrest
        exact iha h.halves.1 more ha
  | literal => cases he
  | charClass => cases he
  | alternation => cases he
  | repetition => cases he

end Expr

end WordPattern
