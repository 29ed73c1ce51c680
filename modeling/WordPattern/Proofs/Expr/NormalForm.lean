import WordPattern.Proofs.Expr.Alternation
import WordPattern.Proofs.Expr.Elimination

/-!
# Expressions in normal form

An expression in normal form is the empty literal or has no empty literal in it.
Its classes have several members and its alternations several options, without
repeats, longer options first and none of them an alternation. Concatenation
keeps the normal form. Union does if its sides share no word: two sides that
become one letter each would make a class of one member if the letters were the
same. Equations that read a word in one way only ever join such sides, so the
expression of every closed automaton is in normal form. Literals may stand next
to one another in a concatenation, and which options an alternation has is not
described here.
-/

namespace WordPattern

namespace Expr

variable {a b e : Expr} {xs ys : List Char}

/-- An expression that is not empty, has no empty literals in it, and has only
classes and alternations in normal form. -/
inductive Solid : Expr → Prop where
  /-- There is text. -/
  | literal {text : Word} (h : text ≠ []) : Solid (literal text)
  /-- A class has several members, each once. -/
  | charClass {members : List Char} (hlength : 2 ≤ members.length) (hnodup : members.Nodup) :
    Solid (charClass members)
  /-- Both parts are solid. -/
  | concat {a b : Expr} (ha : Solid a) (hb : Solid b) : Solid (concat a b)
  /-- An alternation has several options, each once and longer ones first, and
  none of them is an alternation. -/
  | alternation {options : List Expr} (hlength : 2 ≤ options.length)
    (hflat : ∀ x ∈ options, ∀ inner, x ≠ alternation inner) (hnodup : options.Nodup)
    (hsorted : options.Pairwise fun x y => y.length ≤ x.length) (hall : ∀ x ∈ options, Solid x) :
    Solid (alternation options)
  /-- The body is solid. -/
  | repetition {body : Expr} (h : Solid body) (quantifier : Quantifier) :
    Solid (repetition body quantifier)

/-- An expression in normal form. -/
def Normal (e : Expr) : Prop := e = empty ∨ e.Solid

theorem normal_empty : Normal empty := Or.inl rfl

theorem Solid.normal (h : e.Solid) : e.Normal := Or.inr h

/-- Any text is in normal form. -/
theorem normal_literal (text : Word) : Normal (literal text) := by
  by_cases h : text = []
  · exact Or.inl (congrArg literal h)
  · exact Or.inr (.literal h)

/-- An expression in normal form that is not the empty literal is solid. -/
theorem Normal.solid (h : e.Normal) (hne : e.isEmptyLiteral = false) : e.Solid := by
  rcases h with rfl | hsolid
  · cases hne
  · exact hsolid

theorem Solid.isEmptyLiteral (h : e.Solid) : e.isEmptyLiteral = false := by
  cases h with
  | literal h => simpa [Expr.isEmptyLiteral] using h
  | charClass => rfl
  | concat => rfl
  | alternation => rfl
  | repetition => rfl

/-- Solid expressions are proper. -/
theorem Solid.proper (h : e.Solid) : e.Proper := by
  induction h with
  | literal => exact .literal _
  | charClass hlength => exact .charClass (List.ne_nil_of_length_pos (by omega))
  | concat _ _ iha ihb => exact .concat iha ihb
  | alternation hlength _ _ _ _ ih => exact .alternation (List.ne_nil_of_length_pos (by omega)) ih
  | repetition _ quantifier ih => exact .repetition ih quantifier

theorem Normal.proper (h : e.Normal) : e.Proper := by
  rcases h with rfl | hsolid
  · exact .literal []
  · exact hsolid.proper

/-- Every part of a solid expression is solid. -/
theorem Solid.part (h : e.Solid) (hpart : Part a e) : a.Solid := by
  induction hpart with
  | whole => exact h
  | first _ ih =>
    cases h with
    | concat ha _ => exact ih ha
  | second _ ih =>
    cases h with
    | concat _ hb => exact ih hb
  | option hmem _ ih =>
    cases h with
    | alternation _ _ _ _ hall => exact ih (hall _ hmem)
  | body _ ih =>
    cases h with
    | repetition h => exact ih h

/-- A solid expression in front of one in normal form gives a solid one. -/
theorem Solid.append (ha : a.Solid) (hb : b.Normal) : (a.append b).Solid := by
  unfold Expr.append
  split
  · rename_i hempty
    rw [ha.isEmptyLiteral] at hempty
    cases hempty
  · split
    · exact ha
    · rename_i hne
      have hsolid := hb.solid (by simpa using hne)
      split
      · cases ha with
        | literal h => exact .literal (List.append_ne_nil_of_left_ne_nil h _)
      · cases ha with
        | literal h =>
          cases hsolid with
          | concat _ hrest => exact .concat (.literal (List.append_ne_nil_of_left_ne_nil h _)) hrest
      · cases ha with
        | concat hrest hs =>
          cases hs with
          | literal h => exact .concat hrest (.literal (List.append_ne_nil_of_left_ne_nil h _))
      · exact .concat ha hsolid

/-- The options of a solid expression are solid and no alternations. -/
theorem Solid.options (h : a.Solid) :
    a.options ≠ [] ∧ ∀ x ∈ a.options, x.Solid ∧ ∀ inner, x ≠ .alternation inner := by
  refine ⟨h.proper.options.1, ?_⟩
  cases h with
  | alternation _ hflat _ _ hall => exact fun x hx => ⟨hall x hx, hflat x hx⟩
  | literal h => exact List.forall_mem_singleton.mpr ⟨.literal h, nofun⟩
  | charClass hlength hnodup =>
    exact List.forall_mem_singleton.mpr ⟨.charClass hlength hnodup, nofun⟩
  | concat ha hb => exact List.forall_mem_singleton.mpr ⟨.concat ha hb, nofun⟩
  | repetition h quantifier => exact List.forall_mem_singleton.mpr ⟨.repetition h quantifier, nofun⟩

/-- A solid expression with a single option is that option. -/
theorem Solid.eq_of_options (h : a.Solid) {only : Expr} (honly : ∀ x ∈ a.options, x = only) :
    a = only := by
  rcases options_cases a with ⟨options, rfl⟩ | hself
  · cases h with
    | alternation hlength _ hnodup =>
      have hrepeat := List.eq_replicate_of_mem honly
      rw [Expr.options] at hrepeat
      rw [hrepeat, List.nodup_replicate] at hnodup
      omega
  · exact honly a (hself ▸ List.mem_cons_self)

/-- Two different solid expressions make an alternation, which is solid. -/
theorem Solid.either_spec (ha : a.Solid) (hb : b.Solid) (hne : a ≠ b) :
    (Expr.either a b).Solid ∧ ∃ options, Expr.either a b = .alternation options := by
  have hall : ∀ x ∈ a.options ++ b.options, x.Solid ∧ ∀ inner, x ≠ .alternation inner :=
    List.forall_mem_append.mpr ⟨ha.options.2, hb.options.2⟩
  have harranged := arranged_either a b
  generalize Expr.either a b = e at harranged ⊢
  cases harranged with
  | only honly =>
    have hfirst := ha.eq_of_options fun x hx => (honly x).mp (List.mem_append_left _ hx)
    have hsecond := hb.eq_of_options fun x hx => (honly x).mp (List.mem_append_right _ hx)
    exact absurd (hfirst.trans hsecond.symm) hne
  | @several options hlength hordered =>
    have hmet : ∀ x ∈ options, x.Solid ∧ ∀ inner, x ≠ .alternation inner := fun x hx =>
      hall x ((hordered.mem_iff x).mp hx)
    obtain ⟨x, hx⟩ := List.exists_mem_of_ne_nil _ ha.options.1
    have hpos := List.length_pos_of_mem
      ((hordered.mem_iff x).mpr (List.mem_append_left b.options hx))
    refine ⟨.alternation (by omega) (fun x hx => (hmet x hx).2) hordered.nodup
      (hordered.standing.imp fun hxy => hxy.length_le) fun x hx => (hmet x hx).1, _, rfl⟩

theorem Solid.either (ha : a.Solid) (hb : b.Solid) (hne : a ≠ b) : (Expr.either a b).Solid :=
  (ha.either_spec hb hne).1

/-- A class that takes in two different characters is solid. -/
theorem solid_classOf {c d : Char} (hc : c ∈ xs ++ ys) (hd : d ∈ xs ++ ys) (hne : c ≠ d) :
    (classOf xs ys).Solid := by
  refine .charClass ?_ (nodup_eraseDups _)
  have hsubset : [c, d] ⊆ (xs ++ ys).eraseDups := by
    simp [List.mem_eraseDups, hc, hd]
  have hnodup : [c, d].Nodup := by simpa using hne
  exact (hnodup.subperm hsubset).length_le

/-- Solid expressions that share no word are different. -/
theorem Solid.ne_of_apart (ha : a.Solid) (hapart : Apart a.language b.language) : a ≠ b := by
  rintro rfl
  obtain ⟨word, hword⟩ := ha.proper.exists_mem
  exact hapart word hword hword

/-- What is next to the empty literal and shares no word with it is solid. -/
theorem Normal.solid_of_apart (hb : b.Normal) (ha : a.isEmptyLiteral = true)
    (hapart : Apart a.language b.language) : b.Solid := by
  rcases hb with rfl | hsolid
  · rw [isEmptyLiteral_iff.mp ha] at hapart
    exact absurd (mem_literal.mpr rfl) (hapart [] (mem_literal.mpr rfl))
  · exact hsolid

/-- The shape that a union takes is solid if its sides share no word. -/
theorem Normal.choice (ha : a.Normal) (hb : b.Normal) (hapart : Apart a.language b.language) :
    (choice a b).Solid := by
  unfold Expr.choice
  split
  · rename_i hempty
    exact .repetition (hb.solid_of_apart hempty hapart) _
  · rename_i hane
    split
    · rename_i hempty
      exact .repetition (ha.solid_of_apart hempty hapart.symm) _
    · rename_i hbne
      have hsa := ha.solid (by simpa using hane)
      have hsb := hb.solid (by simpa using hbne)
      split
      · cases hsa with
        | repetition hx =>
          rw [language_optional, apart_add_left] at hapart
          exact .repetition (hx.either hsb (hx.ne_of_apart hapart.2)) _
      · cases hsb with
        | repetition hy =>
          have hapart' := hapart.symm
          rw [language_optional, apart_add_left] at hapart'
          exact .repetition (hsa.either hy (hsa.ne_of_apart hapart'.2.symm)) _
      · split
        · rename_i s t hs ht
          -- The two classes share no character, so together they have two.
          obtain ⟨c, hc⟩ := List.exists_mem_of_ne_nil _ (hsa.proper.classMembers?_ne_nil hs)
          obtain ⟨d, hd⟩ := List.exists_mem_of_ne_nil _ (hsb.proper.classMembers?_ne_nil ht)
          rw [language_of_classMembers? hs, language_of_classMembers? ht] at hapart
          refine solid_classOf (List.mem_append_left _ hc) (List.mem_append_right _ hd) ?_
          rintro rfl
          exact hapart [c] (mem_charClass.mpr ⟨c, hc, rfl⟩) (mem_charClass.mpr ⟨c, hd, rfl⟩)
        · exact hsa.either hsb (hsa.ne_of_apart hapart)

theorem Solid.between (h : e.Solid) (before after : Word) : (between before e after).Solid :=
  between_keeps (fun _ _ hne h => .concat (.literal hne) h)
    (fun _ _ hne h => .concat h (.literal hne)) h before after

theorem Normal.halves (h : (Expr.concat a b).Normal) : a.Normal ∧ b.Normal := by
  rcases h with h | h
  · cases h
  · cases h with
    | concat ha hb => exact ⟨ha.normal, hb.normal⟩

/-- What is left of a half is not empty, so the concatenation stays solid. -/
theorem Normal.factor (ha : a.Normal) (hb : b.Normal) (side : Side) :
    (factor side a b).1.Normal ∧ (factor side a b).2.1.Normal := by
  refine factor_keeps normal_literal Normal.halves (fun h hstripped hrest => ?_)
    (fun h hstripped hrest => ?_) ha hb
  · cases h.solid rfl with
    | concat _ hsecond => exact .inr (.concat (hrest.solid hstripped.nonempty) hsecond)
  · cases h.solid rfl with
    | concat hfirst _ => exact .inr (.concat hfirst (hrest.solid hstripped.nonempty))

/-- A union of sides in normal form that share no word stands between the texts
that are common to both. What is left of the sides shares no word, and has the
properties that taking exposed text off keeps. -/
theorem union_eq {P : Expr → Prop} (hnormal : ∀ {e}, P e → e.Normal)
    (hfactor : ∀ side {x y}, P x → P y → P (factor side x y).1 ∧ P (factor side x y).2.1)
    (ha : P a) (hb : P b) (hapart : Apart a.language b.language) :
    ∃ x y before after, P x ∧ P y ∧ Apart x.language y.language ∧
      a.union b = between before (choice x y) after := by
  have hne : a ≠ b := by
    rintro rfl
    obtain ⟨word, hword⟩ := (hnormal ha).proper.exists_mem
    exact hapart word hword hword
  obtain ⟨ha', hb'⟩ := hfactor .start ha hb
  obtain ⟨ha'', hb''⟩ := hfactor .finish ha' hb'
  have hapart'' := apart_factor (apart_factor hapart .start) .finish
  refine ⟨_, _, (factor .start a b).2.2,
    (factor .finish (factor .start a b).1 (factor .start a b).2.1).2.2, ha'', hb'', hapart'', ?_⟩
  rw [union, if_neg hne]
  dsimp only
  rw [if_neg]
  intro hempty
  rw [Bool.and_eq_true] at hempty
  have hsolid := (hnormal hb'').solid_of_apart hempty.1 hapart''
  rw [hsolid.isEmptyLiteral] at hempty
  cases hempty.2

/-- A union of expressions in normal form that share no word is solid. -/
theorem Normal.union (ha : a.Normal) (hb : b.Normal) (hapart : Apart a.language b.language) :
    (a.union b).Solid := by
  obtain ⟨x, y, before, after, hx, hy, hxy, hunion⟩ :=
    union_eq (fun h => h) (fun side _ _ hx hy => hx.factor hy side) ha hb hapart
  rw [hunion]
  exact (hx.choice hy hxy).between before after

/-- Different letters have no text in common and join to a class. -/
theorem union_eq_classOf (hx : a.classMembers? = some xs) (hy : b.classMembers? = some ys)
    (hne : a ≠ b) : a.union b = classOf xs ys := by
  have hcommon : ∀ side, commonAt side a b = [] := by
    intro side
    rcases classMembers?_cases hx with ⟨c, rfl, -⟩ | rfl
    · rcases classMembers?_cases hy with ⟨d, rfl, -⟩ | rfl
      · have hcd : c ≠ d := fun he => hne (congrArg (fun c => literal [c]) he)
        cases side <;> simp [commonAt, literalAt?, common, commonStart, hcd]
      · simp [commonAt]
    · simp [commonAt]
  have hfactor : ∀ side, factor side a b = (a, b, []) := by
    intro side
    rw [factor, hcommon]
  have hempty : ∀ {e : Expr} {members}, e.classMembers? = some members →
      e.isEmptyLiteral = false := by
    intro e members he
    rcases classMembers?_cases he with ⟨c, rfl, -⟩ | rfl <;> rfl
  have hchoice : choice a b = classOf xs ys := by
    rcases classMembers?_cases hx with ⟨c, rfl, rfl⟩ | rfl <;>
      rcases classMembers?_cases hy with ⟨d, rfl, rfl⟩ | rfl <;> rfl
  rw [Expr.union, if_neg hne]
  simp [hfactor, hchoice, hempty hx, Expr.between]

/-- A solid class has two different members. -/
theorem Solid.exists_ne (h : (Expr.charClass xs).Solid) : ∃ c ∈ xs, ∃ d ∈ xs, c ≠ d := by
  cases h with
  | charClass hlength hnodup =>
    match xs, hlength, hnodup with
    | c :: d :: rest, _, hnodup =>
      rw [List.nodup_cons] at hnodup
      refine ⟨c, List.mem_cons_self, d, List.mem_cons_of_mem _ List.mem_cons_self, ?_⟩
      rintro rfl
      exact hnodup.1 List.mem_cons_self

/-- A solid expression matches a word that is not empty. -/
theorem Solid.exists_mem_ne_nil (h : e.Solid) : ∃ word ∈ e.language, word ≠ [] := by
  induction h with
  | @literal text h => exact ⟨text, mem_literal.mpr rfl, h⟩
  | charClass hlength hnodup =>
    obtain ⟨c, hc, -⟩ := (Solid.charClass hlength hnodup).exists_ne
    exact ⟨[c], mem_charClass.mpr ⟨c, hc, rfl⟩, List.cons_ne_nil c []⟩
  | concat _ hb iha _ =>
    obtain ⟨u, hu, hne⟩ := iha
    obtain ⟨v, hv⟩ := hb.proper.exists_mem
    exact ⟨u ++ v, language_concat ▸ Language.append_mem_mul hu hv,
      List.append_ne_nil_of_left_ne_nil hne v⟩
  | @alternation options hlength _ _ _ _ ih =>
    obtain ⟨x, hx⟩ := List.exists_mem_of_length_pos (l := options) (by omega)
    obtain ⟨word, hword, hne⟩ := ih x hx
    exact ⟨word, mem_alternation.mpr ⟨x, hx, hword⟩, hne⟩
  | repetition _ quantifier ih =>
    obtain ⟨word, hword, hne⟩ := ih
    exact ⟨word, mem_repetition hword quantifier, hne⟩

/-- A single letter or a class of several. -/
structure Letters (e : Expr) : Prop where
  /-- A class has several members. -/
  solid : e.Solid
  /-- The letters go into classes. -/
  classMembers? : ∃ members, e.classMembers? = some members

theorem letters_literal (c : Char) : Letters (literal [c]) :=
  ⟨.literal (List.cons_ne_nil c []), [c], rfl⟩

/-- Letters join to letters. -/
theorem Letters.union (ha : a.Letters) (hb : b.Letters) : (a.union b).Letters := by
  obtain ⟨xs, hx⟩ := ha.classMembers?
  obtain ⟨ys, hy⟩ := hb.classMembers?
  by_cases he : a = b
  · rw [Expr.union, if_pos he]
    exact ha
  · have hseveral : ∃ c ∈ xs ++ ys, ∃ d ∈ xs ++ ys, c ≠ d := by
      rcases classMembers?_cases hx with ⟨c, rfl, rfl⟩ | rfl
      · rcases classMembers?_cases hy with ⟨d, rfl, rfl⟩ | rfl
        · exact ⟨c, by simp, d, by simp, fun hcd => he (congrArg (fun c => literal [c]) hcd)⟩
        · obtain ⟨c, hc, d, hd, hne⟩ := hb.solid.exists_ne
          exact ⟨c, List.mem_append_right _ hc, d, List.mem_append_right _ hd, hne⟩
      · obtain ⟨c, hc, d, hd, hne⟩ := ha.solid.exists_ne
        exact ⟨c, List.mem_append_left _ hc, d, List.mem_append_left _ hd, hne⟩
    obtain ⟨c, hc, d, hd, hne⟩ := hseveral
    rw [union_eq_classOf hx hy he]
    exact ⟨solid_classOf hc hd hne, _, rfl⟩

end Expr

namespace Equation

variable {e solved : Equation} {id : StateId} {state : State}

/-- The edges that lead to one state are a letter or a class. -/
theorem letters_ofState {goal : StateId} {x : Expr}
    (hx : (ofState id state).upTo? (some goal) = some x) : x.Letters := by
  refine forall_entries_foldl_merge (P := fun _ e => e.Letters) (fun he hf => he.union hf)
    state.edges.entries Prod.snd (fun edge => .literal [edge.1]) .empty
    (fun term hterm => by cases hterm) (fun edge _ => Expr.letters_literal edge.1) (goal, x) ?_
  exact Table.find?_eq_some_iff.mp hx

/-- Where a state accepts, the end of the word is there. -/
theorem upTo?_none_ofState {x : Expr} (hx : (ofState id state).upTo? none = some x) :
    x = .empty := by
  simp only [upTo?, ofState, Option.ite_none_right_eq_some] at hx
  exact (Option.some.inj hx.2).symm

/-- The ways to all goals are in normal form, and those to an unknown are solid. -/
structure Normal (e : Equation) : Prop where
  /-- Words are read in one way. -/
  deterministic : e.Deterministic
  /-- The ways to all goals are in normal form. -/
  normal : ∀ goal x, e.upTo? goal = some x → x.Normal ∧ (goal ≠ none → x.Solid)

theorem Normal.solid (h : e.Normal) {x : Expr} (hx : e.upTo? (some id) = some x) : x.Solid :=
  (h.normal _ x hx).2 (Option.some_ne_none id)

/-- The equation of a state is in normal form. -/
theorem normal_ofState (id : StateId) (state : State) : (ofState id state).Normal where
  deterministic := deterministic_ofState id state
  normal := by
    intro goal x hx
    cases goal with
    | none =>
      rw [upTo?_none_ofState hx]
      exact ⟨Expr.normal_empty, fun hne => absurd rfl hne⟩
    | some goal => exact ⟨(letters_ofState hx).solid.normal, fun _ => (letters_ofState hx).solid⟩

/-- Solving an equation for its own unknown keeps its normal form. -/
theorem Normal.solveLoop (h : e.Normal) : e.solveLoop.Normal where
  deterministic := h.deterministic.solveLoop
  normal := by
    refine forall_upTo?_solveLoop h.normal fun {goal loop x} hloop hx _ => ?_
    have hsolid : (loop.star.append x).Solid :=
      (Expr.Solid.repetition (h.solid hloop) .star).append (h.normal goal x hx).1
    exact ⟨hsolid.normal, fun _ => hsolid⟩

/-- Putting an equation in normal form into another one keeps that one's normal
form. -/
theorem Normal.substitute (hs : solved.Normal) (h : e.Normal) : (solved.substitute e).Normal where
  deterministic := hs.deterministic.substitute h.deterministic
  normal := by
    refine forall_upTo?_substitute h.normal (fun {goal c y} hc hy => ?_)
      fun {goal c x y} hc hx hy hne hnx hny => ?_
    · have hsolid := (h.solid hc).append (hs.normal goal y hy).1
      exact ⟨hsolid.normal, fun _ => hsolid⟩
    · have hsolid := hnx.1.union hny.1 (h.deterministic.apart_append hc hx hne y)
      exact ⟨hsolid.normal, fun _ => hsolid⟩

end Equation

namespace Automaton

variable {a : Automaton}

/-- The expression of a closed automaton is in normal form. -/
theorem Closed.expression_normal (h : a.Closed) {e : Expr}
    (he : a.expression = .ok (some e)) : e.Normal := by
  obtain ⟨order, -, -, hsolve⟩ := h.expression_eq
  rw [he, Except.ok.injEq] at hsolve
  have hall : ∀ equation ∈ order.reverse.map fun id => Equation.ofState id (a.stateAt id),
      equation.Normal := by
    intro equation hequation
    obtain ⟨id, -, rfl⟩ := List.mem_map.mp hequation
    exact Equation.normal_ofState id (a.stateAt id)
  obtain ⟨equation, hequation, hconstant⟩ := Equation.exists_of_solve (fun _ h => h.solveLoop)
    (fun _ _ hs h => hs.substitute h) _ hall hsolve.symm
  exact (hequation.normal none e hconstant).1

/-- A closed automaton has an expression, unless it accepts nothing, and every
alternation in it has at least two options, none of which is an alternation or
comes twice, with longer options first. Every class in it has at least two
members, each once, and the empty literal is not in it unless it is the whole. -/
theorem expression_normalForm (h : a.Closed) : ∃ result, a.expression = .ok result ∧
    (result = none ↔ ¬∃ word, a.accepts word = .ok true) ∧
    ∀ e, result = some e →
      (∀ options, Expr.Part (.alternation options) e → 2 ≤ options.length ∧
        (∀ x ∈ options, ∀ inner, x ≠ .alternation inner) ∧ options.Nodup ∧
        options.Pairwise fun x y => y.length ≤ x.length) ∧
      (∀ members, Expr.Part (.charClass members) e → 2 ≤ members.length ∧ members.Nodup) ∧
      (Expr.Part .empty e → e = .empty) := by
  obtain ⟨result, hok, -, -⟩ := h.expression_spec
  refine ⟨result, hok, h.expression_eq_none_iff hok, ?_⟩
  rintro e rfl
  rcases h.expression_normal hok with rfl | hsolid
  · exact ⟨fun _ hpart => (nomatch hpart), fun _ hpart => (nomatch hpart), fun _ => rfl⟩
  · refine ⟨fun options hpart => ?_, fun members hpart => ?_, fun hpart => ?_⟩
    · cases hsolid.part hpart with
      | alternation hlength hflat hnodup hsorted _ => exact ⟨hlength, hflat, hnodup, hsorted⟩
    · cases hsolid.part hpart with
      | charClass hlength hnodup => exact ⟨hlength, hnodup⟩
    · cases hsolid.part hpart with
      | literal hne => exact absurd rfl hne

theorem expression_normalForm_twoWays : twoWays.Closed ∧
    ∃ result, twoWays.expression = .ok result ∧
      (result = none ↔ ¬∃ word, twoWays.accepts word = .ok true) ∧ ∀ e, result = some e →
      (∀ options, Expr.Part (.alternation options) e → 2 ≤ options.length ∧
        (∀ x ∈ options, ∀ inner, x ≠ .alternation inner) ∧ options.Nodup ∧
        options.Pairwise fun x y => y.length ≤ x.length) ∧
      (∀ members, Expr.Part (.charClass members) e → 2 ≤ members.length ∧ members.Nodup) ∧
      (Expr.Part .empty e → e = .empty) :=
  ⟨closed_twoWays, expression_normalForm closed_twoWays⟩

end Automaton

end WordPattern
