import WordPattern.Proofs.Expr.Language

/-!
# Proper expressions

An expression is proper if it has no class without members and no alternation
without options, anywhere in its tree. Every builder makes proper expressions of
proper ones, taking exposed text off keeps an expression proper, and a proper
expression matches some word.
-/

namespace WordPattern.Expr

variable {a b : Expr}

/-- An expression without classes that have no members and alternations that
have no options. -/
inductive Proper : Expr → Prop where
  /-- Any text is proper. -/
  | literal (text : Word) : Proper (literal text)
  /-- A class has members. -/
  | charClass {members : List Char} (h : members ≠ []) : Proper (charClass members)
  /-- Both parts are proper. -/
  | concat {a b : Expr} (ha : Proper a) (hb : Proper b) : Proper (concat a b)
  /-- There are options, and all are proper. -/
  | alternation {options : List Expr} (h : options ≠ []) (hall : ∀ e ∈ options, Proper e) :
    Proper (alternation options)
  /-- The body is proper. -/
  | repetition {body : Expr} (h : Proper body) (quantifier : Quantifier) :
    Proper (repetition body quantifier)

/-- A proper expression matches some word. -/
theorem Proper.exists_mem (h : a.Proper) : ∃ word, word ∈ a.language := by
  induction h with
  | literal text => exact ⟨text, mem_literal.mpr rfl⟩
  | charClass h =>
    obtain ⟨c, hc⟩ := List.exists_mem_of_ne_nil _ h
    exact ⟨[c], mem_charClass.mpr ⟨c, hc, rfl⟩⟩
  | concat _ _ iha ihb =>
    obtain ⟨u, hu⟩ := iha
    obtain ⟨v, hv⟩ := ihb
    exact ⟨u ++ v, language_concat ▸ Language.append_mem_mul hu hv⟩
  | alternation h _ ih =>
    obtain ⟨e, he⟩ := List.exists_mem_of_ne_nil _ h
    obtain ⟨word, hword⟩ := ih e he
    exact ⟨word, mem_alternation.mpr ⟨e, he, hword⟩⟩
  | @repetition body _ quantifier _ => exact ⟨[], nil_mem_repetition body quantifier⟩

theorem Proper.append (ha : a.Proper) (hb : b.Proper) : (a.append b).Proper := by
  unfold Expr.append
  split
  · exact hb
  · split
    · exact ha
    · split
      · exact .literal _
      · cases hb with
        | concat _ hrest => exact .concat (.literal _) hrest
      · cases ha with
        | concat hrest _ => exact .concat hrest (.literal _)
      · exact .concat ha hb

theorem Proper.options (h : a.Proper) : a.options ≠ [] ∧ ∀ e ∈ a.options, e.Proper := by
  rcases options_cases a with ⟨options, rfl⟩ | hself
  · cases h with
    | alternation hne hall => exact ⟨hne, hall⟩
  · rw [hself]
    exact ⟨List.cons_ne_nil a [], List.forall_mem_singleton.mpr h⟩

theorem Proper.either (ha : a.Proper) (hb : b.Proper) : (either a b).Proper :=
  either_keeps ha.options.2 hb.options.2 fun _ hne hall => .alternation (hne ha.options.1) hall

theorem Proper.classOf {xs : List Char} (h : xs ≠ []) (ys : List Char) :
    (classOf xs ys).Proper := by
  obtain ⟨c, hc⟩ := List.exists_mem_of_ne_nil _ h
  exact .charClass (List.ne_nil_of_mem (List.mem_eraseDups.mpr (List.mem_append_left _ hc)))

theorem Proper.classMembers?_ne_nil (h : a.Proper) {members : List Char}
    (hm : a.classMembers? = some members) : members ≠ [] := by
  rcases classMembers?_cases hm with ⟨c, rfl, rfl⟩ | rfl
  · exact List.cons_ne_nil c []
  · cases h with
    | charClass hne => exact hne

theorem Proper.choice (ha : a.Proper) (hb : b.Proper) : (choice a b).Proper := by
  unfold Expr.choice
  split
  · exact .repetition hb _
  · split
    · exact .repetition ha _
    · split
      · cases ha with
        | repetition hx => exact .repetition (hx.either hb) _
      · cases hb with
        | repetition hy => exact .repetition (ha.either hy) _
      · split
        · rename_i s t hs ht
          exact .classOf (ha.classMembers?_ne_nil hs) t
        · exact ha.either hb

theorem Proper.between (h : a.Proper) (before after : Word) : (between before a after).Proper :=
  between_keeps (fun _ _ _ h => .concat (.literal _) h) (fun _ _ _ h => .concat h (.literal _))
    h before after

theorem Proper.halves (h : (Expr.concat a b).Proper) : a.Proper ∧ b.Proper := by
  cases h with
  | concat ha hb => exact ⟨ha, hb⟩

theorem Proper.factor (ha : a.Proper) (hb : b.Proper) (side : Side) :
    (factor side a b).1.Proper ∧ (factor side a b).2.1.Proper :=
  factor_keeps .literal Proper.halves (fun h _ hrest => .concat hrest h.halves.2)
    (fun h _ hrest => .concat h.halves.1 hrest) ha hb

theorem Proper.union (ha : a.Proper) (hb : b.Proper) : (a.union b).Proper := by
  obtain ⟨ha', hb'⟩ := ha.factor hb .start
  obtain ⟨ha'', hb''⟩ := ha'.factor hb' .finish
  unfold Expr.union
  split
  · exact ha
  · dsimp only
    split
    · exact .literal _
    · exact (ha''.choice hb'').between _ _

/-- What a union with absent sides gives is proper if the sides are. -/
theorem proper_union? {a b : Option Expr} (ha : ∀ e, a = some e → e.Proper)
    (hb : ∀ e, b = some e → e.Proper) : ∀ e, union? a b = some e → e.Proper :=
  forall_union? ha hb fun _ _ hx hy => hx.union hy

end WordPattern.Expr
