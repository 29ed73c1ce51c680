import WordPattern.Proofs.Distinct
import WordPattern.Proofs.Expr.Derivation

/-!
# Builders keep expressions unambiguous

Concatenation as it is built keeps expressions unambiguous if their words can be
cut apart in one way only, and union does if they share no word. Taking exposed
text off two expressions that share no word leaves such expressions, so an empty
one next to a body never meets a body that matches the empty word. Nothing here
says that the builders look for shared words; they do not.
-/

namespace WordPattern

open Computability

variable {L L' M M' : Language Char}

/-- A single word in front is cut off in one way only. -/
theorem splits_literal_left (text : Word) (M : Language Char) :
    Splits (Expr.literal text).language M := by
  intro u u' v v' hu hu' _ _ _
  rw [Expr.mem_literal.mp hu, Expr.mem_literal.mp hu']

/-- A single word behind is cut off in one way only. -/
theorem splits_literal_right (L : Language Char) (text : Word) :
    Splits L (Expr.literal text).language := by
  intro u u' v v' _ _ hv hv' h
  rw [Expr.mem_literal.mp hv, Expr.mem_literal.mp hv'] at h
  exact List.append_cancel_right h

/-- Cuts stay unique when a text is taken off the front. -/
theorem Splits.of_put_start {text : Word} (h : Splits (Side.put .start text L) M) :
    Splits L M := by
  intro u u' v v' hu hu' hv hv' hword
  refine List.append_cancel_left (h (Side.mem_put_start hu) (Side.mem_put_start hu') hv hv' ?_)
  rw [List.append_assoc, List.append_assoc, hword]

/-- Cuts stay unique when a text is taken off the end. -/
theorem Splits.of_put_finish {text : Word} (h : Splits L (Side.put .finish text M)) :
    Splits L M := by
  intro u u' v v' hu hu' hv hv' hword
  refine h hu hu' (Side.mem_put_finish hv) (Side.mem_put_finish hv') ?_
  rw [← List.append_assoc, ← List.append_assoc, hword]

theorem Apart.symm (h : Apart L M) : Apart M L := fun word hM hL => h word hL hM

/-- Languages that share no word do not when the same text is taken off both. -/
theorem Apart.of_put {side : Side} {text : Word} (h : Apart (side.put text L) (side.put text M)) :
    Apart L M := by
  intro word hL hM
  cases side with
  | start => exact h _ (Side.mem_put_start hL) (Side.mem_put_start hM)
  | finish => exact h _ (Side.mem_put_finish hL) (Side.mem_put_finish hM)

theorem apart_add_left : Apart (L + L') M ↔ Apart L M ∧ Apart L' M := by
  simp only [Apart, Language.mem_add, or_imp, forall_and]

/-- Only a language without the empty word is apart from the empty word. -/
theorem apart_one_left : Apart 1 M ↔ [] ∉ M := by
  simp [Apart, Language.mem_one]

namespace Expr

variable {a b : Expr} {text : Word}

theorem Unambiguous.append (ha : a.Unambiguous) (hb : b.Unambiguous)
    (hcut : Splits a.language b.language) : (a.append b).Unambiguous := by
  unfold Expr.append
  split
  · exact hb
  · split
    · exact ha
    · split
      · exact .literal _
      · cases hb with
        | concat _ hrest _ => exact .concat (.literal _) hrest (splits_literal_left _ _)
      · cases ha with
        | concat hrest _ _ => exact .concat hrest (.literal _) (splits_literal_right _ _)
      · exact .concat ha hb hcut

theorem Unambiguous.halves (h : (Expr.concat a b).Unambiguous) :
    a.Unambiguous ∧ b.Unambiguous := by
  cases h with
  | concat ha hb _ => exact ⟨ha, hb⟩

/-- What is left of a first half is cut off in one way only. -/
theorem Unambiguous.replace_first {rest : Expr} (h : (Expr.concat a b).Unambiguous)
    (hstripped : Stripped .start a rest) (hrest : rest.Unambiguous) :
    (Expr.concat rest b).Unambiguous := by
  obtain ⟨text, hlanguage⟩ := hstripped.language
  cases h with
  | concat _ hb hcut =>
    rw [hlanguage] at hcut
    exact .concat hrest hb hcut.of_put_start

/-- What is left of a second half is cut off in one way only. -/
theorem Unambiguous.replace_second {rest : Expr} (h : (Expr.concat a b).Unambiguous)
    (hstripped : Stripped .finish b rest) (hrest : rest.Unambiguous) :
    (Expr.concat a rest).Unambiguous := by
  obtain ⟨text, hlanguage⟩ := hstripped.language
  cases h with
  | concat ha _ hcut =>
    rw [hlanguage] at hcut
    exact .concat ha hrest hcut.of_put_finish

theorem Unambiguous.factor (ha : a.Unambiguous) (hb : b.Unambiguous) (side : Side) :
    (factor side a b).1.Unambiguous ∧ (factor side a b).2.1.Unambiguous :=
  factor_keeps .literal Unambiguous.halves Unambiguous.replace_first Unambiguous.replace_second
    ha hb

/-- What is left of two expressions shares no word if they did not. -/
theorem apart_factor (h : Apart a.language b.language) (side : Side) :
    Apart (factor side a b).1.language (factor side a b).2.1.language := by
  obtain ⟨ha, hb⟩ := language_factor side a b
  rw [ha, hb] at h
  exact h.of_put

theorem Unambiguous.options (h : a.Unambiguous) : (∀ e ∈ a.options, e.Unambiguous) ∧
    a.options.Pairwise fun e f => Apart e.language f.language := by
  rcases options_cases a with ⟨options, rfl⟩ | hself
  · cases h with
    | alternation hall hapart => exact ⟨hall, hapart⟩
  · rw [hself]
    exact ⟨List.forall_mem_singleton.mpr h, List.pairwise_singleton _ _⟩

theorem Unambiguous.either (ha : a.Unambiguous) (hb : b.Unambiguous)
    (hapart : Apart a.language b.language) : (either a b).Unambiguous := by
  have hcross : ∀ e ∈ a.options, ∀ f ∈ b.options, Apart e.language f.language :=
    fun e he f hf word hword hword' =>
      hapart word (mem_options.mpr ⟨e, he, hword⟩) (mem_options.mpr ⟨f, hf, hword'⟩)
  have hpairwise : (a.options ++ b.options).Pairwise fun e f => Apart e.language f.language :=
    List.pairwise_append.mpr ⟨ha.options.2, hb.options.2, hcross⟩
  have hall : ∀ e ∈ a.options ++ b.options, e.Unambiguous :=
    fun e he => (List.mem_append.mp he).elim (ha.options.1 e) (hb.options.1 e)
  have hkept : (a.options ++ b.options).eraseDups.Sublist (a.options ++ b.options) :=
    eraseDups_sublist _
  unfold Expr.either
  split
  · rename_i only honly
    exact hall only (hkept.subset (honly ▸ List.mem_cons_self))
  · refine .alternation (fun e he => hall e (hkept.subset (List.mem_mergeSort.mp he))) ?_
    have hperm := List.mergeSort_perm (a.options ++ b.options).eraseDups
      fun x y => y.length ≤ x.length
    exact hperm.symm.pairwise (hpairwise.sublist hkept) fun h => h.symm

/-- The shape that a union takes is unambiguous if its sides share no word. -/
theorem Unambiguous.choice (ha : a.Unambiguous) (hb : b.Unambiguous)
    (hapart : Apart a.language b.language) : (choice a b).Unambiguous := by
  have hoptional : ∀ {x y : Expr}, (repetition x .optional).Unambiguous → y.Unambiguous →
      Apart (repetition x .optional).language y.language →
      x.Unambiguous ∧ [] ∉ x.language ∧ [] ∉ y.language ∧ Apart x.language y.language := by
    intro x y hx _ hxy
    rw [language_optional, apart_add_left, apart_one_left] at hxy
    cases hx with
    | optional h hnil => exact ⟨h, hnil, hxy.1, hxy.2⟩
  have hempty : ∀ {x y : Expr}, x.isEmptyLiteral = true → Apart x.language y.language →
      [] ∉ y.language := by
    intro x y hx hxy
    rw [isEmptyLiteral_iff.mp hx, language_empty, apart_one_left] at hxy
    exact hxy
  have hneither : ∀ {x y : Expr}, [] ∉ x.language → [] ∉ y.language →
      [] ∉ (Expr.either x y).language := by
    intro x y hx hy
    rw [language_either, Language.mem_add]
    exact fun h => h.elim hx hy
  unfold Expr.choice
  split
  · rename_i hempty'
    exact .optional hb (hempty hempty' hapart)
  · split
    · rename_i hempty'
      exact .optional ha (hempty hempty' hapart.symm)
    · split
      · obtain ⟨hx, hnil, hnil', hxy⟩ := hoptional ha hb hapart
        exact .optional (hx.either hb hxy) (hneither hnil hnil')
      · obtain ⟨hy, hnil, hnil', hxy⟩ := hoptional hb ha hapart.symm
        exact .optional (ha.either hy hxy.symm) (hneither hnil' hnil)
      · split
        · exact .charClass _
        · exact ha.either hb hapart

theorem Unambiguous.between (h : a.Unambiguous) (before after : Word) :
    (between before a after).Unambiguous :=
  between_keeps (fun _ _ _ h => .concat (.literal _) h (splits_literal_left _ _))
    (fun _ _ _ h => .concat h (.literal _) (splits_literal_right _ _)) h before after

/-- A union of unambiguous expressions that share no word is unambiguous. -/
theorem Unambiguous.union (ha : a.Unambiguous) (hb : b.Unambiguous)
    (hapart : Apart a.language b.language) : (a.union b).Unambiguous := by
  obtain ⟨ha', hb'⟩ := ha.factor hb .start
  obtain ⟨ha'', hb''⟩ := ha'.factor hb' .finish
  have hapart'' := apart_factor (apart_factor hapart .start) .finish
  unfold Expr.union
  split
  · exact ha
  · dsimp only
    split
    · exact .literal _
    · exact (ha''.choice hb'' hapart'').between _ _

end Expr

end WordPattern
