import WordPattern.Proofs.Automaton.Renaming
import WordPattern.Proofs.Expr.Language
import WordPattern.Expr.Equations

/-!
# Expressions over other letters

Whatever is built of expressions by union and concatenation is built alike of
expressions with renamed letters: simplification asks whether trees, letters or
texts are equal and how long they are, which renaming does not change if it
keeps different letters apart. Precedence and written forms are not described
here; they do depend on the letters.
-/

namespace WordPattern

namespace Expr

mutual

/-- An expression with renamed letters. -/
def rename (f : Char ↪ Char) : Expr → Expr
  | literal text => literal (text.map f)
  | charClass members => charClass (members.map f)
  | concat first second => concat (first.rename f) (second.rename f)
  | alternation options => alternation (renameAll f options)
  | repetition body quantifier => repetition (body.rename f) quantifier

/-- Several expressions with renamed letters. -/
def renameAll (f : Char ↪ Char) : List Expr → List Expr
  | [] => []
  | option :: rest => option.rename f :: renameAll f rest

end

variable {f : Char ↪ Char} {a b : Expr}

theorem renameAll_eq_map (options : List Expr) : renameAll f options = options.map (rename f) := by
  induction options with
  | nil => rfl
  | cons option rest ih => rw [renameAll, ih, List.map_cons]

@[simp] theorem rename_literal (text : Word) :
    (literal text).rename f = literal (text.map f) := rfl

@[simp] theorem rename_charClass (members : List Char) :
    (charClass members).rename f = charClass (members.map f) := rfl

@[simp] theorem rename_concat (a b : Expr) :
    (concat a b).rename f = concat (a.rename f) (b.rename f) := rfl

@[simp] theorem rename_alternation (options : List Expr) :
    (alternation options).rename f = alternation (options.map (rename f)) :=
  congrArg alternation (renameAll_eq_map options)

@[simp] theorem rename_repetition (body : Expr) (quantifier : Quantifier) :
    (repetition body quantifier).rename f = repetition (body.rename f) quantifier := rfl

/-- Lists with equal images are equal if each element of the first is told apart. -/
theorem eq_of_map_eq {α β : Type} {g : α → β} {xs ys : List α}
    (h : ∀ x ∈ xs, ∀ ⦃y⦄, g x = g y → x = y) (heq : xs.map g = ys.map g) : xs = ys := by
  induction xs generalizing ys with
  | nil => exact (List.map_eq_nil_iff.mp heq.symm).symm
  | cons x xs ih =>
    cases ys with
    | nil => cases heq
    | cons y ys =>
      obtain ⟨hhead, htail⟩ := List.cons.inj heq
      rw [h x List.mem_cons_self hhead, ih (fun z hz => h z (List.mem_cons_of_mem x hz)) htail]

/-- Different expressions are different under renamed letters. -/
theorem rename_injective (f : Char ↪ Char) : Function.Injective (rename f) := by
  have hwords : Function.Injective (List.map f) := List.map_injective_iff.mpr f.injective
  intro a
  induction a using tree_induction with
  | literal text =>
    intro b h
    cases b with
    | literal other => simpa [hwords.eq_iff] using h
    | _ => simp at h
  | charClass members =>
    intro b h
    cases b with
    | charClass other => simpa [hwords.eq_iff] using h
    | _ => simp at h
  | concat first second hfirst hsecond =>
    intro b h
    cases b with
    | concat c d =>
      simp only [rename_concat, concat.injEq] at h
      rw [hfirst h.1, hsecond h.2]
    | _ => simp at h
  | alternation options hoptions =>
    intro b h
    cases b with
    | alternation others =>
      simp only [rename_alternation, alternation.injEq] at h
      rw [eq_of_map_eq hoptions h]
    | _ => simp at h
  | repetition body quantifier hbody =>
    intro b h
    cases b with
    | repetition other q =>
      simp only [rename_repetition, repetition.injEq] at h
      rw [hbody h.1, h.2]
    | _ => simp at h

@[simp] theorem isEmptyLiteral_rename (e : Expr) :
    (e.rename f).isEmptyLiteral = e.isEmptyLiteral := by
  cases e <;> simp [isEmptyLiteral]

@[simp] theorem length_rename (e : Expr) : (e.rename f).length = e.length := by
  induction e using tree_induction with
  | literal text => simp [length]
  | charClass members => rfl
  | concat first second hfirst hsecond => simp [length, hfirst, hsecond]
  | alternation options hoptions =>
    cases options with
    | nil => rfl
    | cons option rest => simp [length, hoptions option List.mem_cons_self]
  | repetition body quantifier hbody => simpa [length] using hbody

/-! ### Text at the ends -/

theorem literalAt?_rename (side : Side) (e : Expr) :
    (e.rename f).literalAt? side = (e.literalAt? side).map (List.map f) := by
  induction e using tree_induction with
  | literal text => rfl
  | charClass members => rfl
  | concat first second hfirst hsecond => cases side <;> simpa [literalAt?]
  | alternation options => rw [rename_alternation]; rfl
  | repetition body quantifier => rfl

theorem dropAt?_rename (side : Side) (count : Nat) (e : Expr) :
    (e.rename f).dropAt? side count = (e.dropAt? side count).map (rename f) := by
  induction e using tree_induction with
  | literal text => cases side <;> simp [dropAt?]
  | charClass members => rfl
  | concat first second hfirst hsecond =>
    cases side with
    | start =>
      simp only [rename_concat, dropAt?, hfirst, Option.map_map]
      congr 1
      funext rest
      simp only [Function.comp_apply, isEmptyLiteral_rename, apply_ite (rename f), rename_concat]
    | finish =>
      simp only [rename_concat, dropAt?, hsecond, Option.map_map]
      congr 1
      funext rest
      simp only [Function.comp_apply, isEmptyLiteral_rename, apply_ite (rename f), rename_concat]
  | alternation options => rw [rename_alternation]; rfl
  | repetition body quantifier => rfl

theorem commonStart_map (s t : Word) :
    commonStart (s.map f) (t.map f) = (commonStart s t).map f := by
  induction s generalizing t with
  | nil => cases t <;> rfl
  | cons c s ih =>
    cases t with
    | nil => rfl
    | cons d t =>
      simp only [List.map_cons, commonStart, f.injective.eq_iff, ih]
      split <;> rfl

theorem common_map (side : Side) (s t : Word) :
    common side (s.map f) (t.map f) = (common side s t).map f := by
  cases side with
  | start => exact commonStart_map s t
  | finish => simp only [common, ← List.map_reverse, commonStart_map]

theorem commonAt_rename (side : Side) (a b : Expr) :
    commonAt side (a.rename f) (b.rename f) = (commonAt side a b).map f := by
  rw [commonAt, commonAt, literalAt?_rename, literalAt?_rename]
  cases a.literalAt? side with
  | none => rfl
  | some s =>
    cases b.literalAt? side with
    | none => rfl
    | some t => exact common_map side s t

/-- The same text is taken off, and what is left is renamed. -/
theorem factor_rename (side : Side) (a b : Expr) :
    factor side (a.rename f) (b.rename f) =
      Prod.map (rename f) (Prod.map (rename f) (List.map f)) (factor side a b) := by
  have hgetD : ∀ count (e : Expr), ((e.rename f).dropAt? side count).getD (e.rename f) =
      ((e.dropAt? side count).getD e).rename f := by
    intro count e
    rw [dropAt?_rename, Option.getD_map]
  rw [factor, factor, commonAt_rename]
  cases commonAt side a b with
  | nil => rfl
  | cons c text => simp [hgetD]

/-! ### Builders -/

theorem append_rename (a b : Expr) : (a.rename f).append (b.rename f) = (a.append b).rename f := by
  unfold append
  rw [isEmptyLiteral_rename, isEmptyLiteral_rename]
  split
  · rfl
  · split
    · rfl
    · cases a with
      | literal s =>
        cases b with
        | literal t => simp
        | concat first rest => cases first <;> simp
        | _ => simp
      | concat rest last =>
        cases b with
        | literal t => cases last <;> simp
        | _ => simp
      | _ => cases b <;> simp

theorem options_rename (e : Expr) : (e.rename f).options = e.options.map (rename f) := by
  cases e with
  | alternation options => rw [rename_alternation]; rfl
  | _ => rfl

theorem either_rename (a b : Expr) : either (a.rename f) (b.rename f) = (either a b).rename f := by
  have hoptions : ((a.rename f).options ++ (b.rename f).options).eraseDups =
      (a.options ++ b.options).eraseDups.map (rename f) := by
    rw [options_rename, options_rename, ← List.map_append]
    exact eraseDups_map_eq fun x _ y _ h => rename_injective f h
  have hsort : ∀ options : List Expr,
      (options.map (rename f)).mergeSort (fun x y => y.length ≤ x.length) =
        (options.mergeSort fun x y => y.length ≤ x.length).map (rename f) := by
    intro options
    refine (List.map_mergeSort ?_).symm
    intro x _ y _
    rw [length_rename, length_rename]
  rw [either, either, hoptions]
  match (a.options ++ b.options).eraseDups with
  | [] => simp
  | [only] => rfl
  | first :: second :: rest =>
    rw [rename_alternation, ← hsort]
    rfl

theorem classMembers?_rename (e : Expr) :
    (e.rename f).classMembers? = e.classMembers?.map (List.map f) := by
  cases e with
  | literal text =>
    match text with
    | [] => rfl
    | [c] => rfl
    | c :: d :: rest => rfl
  | alternation options => rw [rename_alternation]; rfl
  | _ => rfl

theorem classOf_map (s t : List Char) : classOf (s.map f) (t.map f) = (classOf s t).rename f := by
  rw [classOf, classOf, rename_charClass, ← List.map_append]
  exact congrArg charClass (eraseDups_map_eq fun x _ y _ h => f.injective h)

/-- An optional expression that comes first takes the other one in. -/
theorem choice_optional (hempty : b.isEmptyLiteral = false) :
    choice (repetition a .optional) b = repetition (either a b) .optional := by
  unfold choice
  rw [if_neg (by simp [isEmptyLiteral]), if_neg (by simp [hempty])]

/-- An optional expression that comes second takes one in that is not. -/
theorem choice_of_ne_optional (hempty : a.isEmptyLiteral = false)
    (ha : ∀ x, a ≠ repetition x .optional) :
    choice a (repetition b .optional) = repetition (either a b) .optional := by
  unfold choice
  rw [if_neg (by simp [hempty]), if_neg (by simp [isEmptyLiteral])]
  split
  · exact absurd rfl (ha _)
  · rename_i heq
    cases heq
    rfl
  · rename_i hb
    exact absurd rfl (hb b)

/-- Two expressions that are not optional become a class or an alternation. -/
theorem choice_of_ne_optional_of_ne_optional (hempty : a.isEmptyLiteral = false)
    (hempty' : b.isEmptyLiteral = false) (ha : ∀ x, a ≠ repetition x .optional)
    (hb : ∀ x, b ≠ repetition x .optional) :
    choice a b = match a.classMembers?, b.classMembers? with
      | some s, some t => classOf s t
      | _, _ => either a b := by
  unfold choice
  rw [if_neg (by simp [hempty]), if_neg (by simp [hempty'])]
  split
  · exact absurd rfl (ha _)
  · exact absurd rfl (hb _)
  · rfl

theorem rename_ne_optional (ha : ∀ x, a ≠ repetition x .optional) :
    ∀ x, a.rename f ≠ repetition x .optional := by
  cases a with
  | repetition body q =>
    cases q with
    | optional => exact absurd rfl (ha body)
    | star => simp
  | _ => simp

theorem choice_rename (a b : Expr) : choice (a.rename f) (b.rename f) = (choice a b).rename f := by
  cases hempty : a.isEmptyLiteral with
  | true => simp [choice, hempty]
  | false =>
    cases hempty' : b.isEmptyLiteral with
    | true => simp [choice, hempty, hempty']
    | false =>
      have hrenamed := (isEmptyLiteral_rename (f := f) a).trans hempty
      have hrenamed' := (isEmptyLiteral_rename (f := f) b).trans hempty'
      -- An optional first expression wins over an optional second one.
      by_cases ha : ∃ x, a = repetition x .optional
      · obtain ⟨x, rfl⟩ := ha
        rw [rename_repetition, choice_optional hrenamed', choice_optional hempty',
          rename_repetition, either_rename]
      · have ha := not_exists.mp ha
        by_cases hb : ∃ y, b = repetition y .optional
        · obtain ⟨y, rfl⟩ := hb
          rw [rename_repetition, choice_of_ne_optional hrenamed (rename_ne_optional ha),
            choice_of_ne_optional hempty ha, rename_repetition, either_rename]
        · have hb := not_exists.mp hb
          rw [choice_of_ne_optional_of_ne_optional hrenamed hrenamed' (rename_ne_optional ha)
              (rename_ne_optional hb),
            choice_of_ne_optional_of_ne_optional hempty hempty' ha hb, classMembers?_rename,
            classMembers?_rename]
          cases a.classMembers? with
          | none => exact either_rename a b
          | some s =>
            cases b.classMembers? with
            | none => exact either_rename a b
            | some t => exact classOf_map s t

theorem between_rename (before : Word) (e : Expr) (after : Word) :
    between (before.map f) (e.rename f) (after.map f) = (between before e after).rename f := by
  cases before <;> cases after <;> simp [between]

/-- The union of renamed expressions is the renamed union. -/
theorem union_rename (a b : Expr) : union (a.rename f) (b.rename f) = (union a b).rename f := by
  simp only [union, (rename_injective f).eq_iff]
  split
  · rfl
  · simp only [factor_rename, Prod.map_fst, Prod.map_snd, isEmptyLiteral_rename]
    split
    · simp
    · rw [choice_rename, between_rename]

theorem star_rename (e : Expr) : (e.rename f).star = e.star.rename f := rfl

theorem union?_rename (a b : Option Expr) :
    union? (a.map (rename f)) (b.map (rename f)) = (union? a b).map (rename f) := by
  cases a <;> cases b <;> simp [union?, union_rename]

end Expr

namespace Table

variable {κ α β : Type} {g : α → β}

theorem map_map {γ : Type} (h : β → γ) (table : Table κ α) :
    (table.map g).map h = table.map (h ∘ g) := eq_of_entries (by simp [map])

variable [DecidableEq κ]

theorem erase_map (table : Table κ α) (key : κ) :
    (table.map g).erase key = (table.erase key).map g :=
  eq_of_entries (by simp [map, erase, List.filter_map, Function.comp_def])

/-- A value that is merged in may be converted before or after. -/
theorem merge_map {u : α → α → α} {v : β → β → β} (h : ∀ x y, v (g x) (g y) = g (u x y))
    (table : Table κ α) (key : κ) (value : α) :
    (table.map g).merge v key (g value) = (table.merge u key value).map g := by
  apply eq_of_entries
  simp only [merge, alter, map]
  induction table.entries with
  | nil => rfl
  | cons entry rest ih =>
    obtain ⟨k, old⟩ := entry
    by_cases hk : k = key
    · simp [alterEntries, hk, h]
    · simp [alterEntries, hk, ih]

end Table

namespace Equation

variable {f : Char ↪ Char}

/-- An equation with renamed letters. -/
def rename (f : Char ↪ Char) (e : Equation) : Equation where
  unknown := e.unknown
  constant := e.constant.map (Expr.rename f)
  terms := e.terms.map (Expr.rename f)

theorem ofState_rename (id : StateId) (state : State) :
    ofState id (state.rename f) = (ofState id state).rename f := by
  have hconstant : (if state.accepting then some Expr.empty else none).map (Expr.rename f) =
      if state.accepting then some Expr.empty else none := by
    cases state.accepting <;> rfl
  have hterms : (state.rename f).edges.entries.foldl (fun terms edge =>
      terms.merge Expr.union edge.2 (.literal [edge.1])) (Table.map (Expr.rename f) .empty) =
      Table.map (Expr.rename f) (state.edges.entries.foldl (fun terms edge =>
        terms.merge Expr.union edge.2 (.literal [edge.1])) .empty) := by
    rw [State.rename, Table.mapKeys, List.foldl_map]
    refine List.foldl_hom (Table.map (Expr.rename f)) fun terms edge => ?_
    exact Table.merge_map Expr.union_rename terms edge.2 (.literal [edge.1])
  rw [ofState, ofState, rename, hconstant, ← hterms]
  rfl

theorem solveLoop_rename (e : Equation) : (e.rename f).solveLoop = e.solveLoop.rename f := by
  have happend : ∀ loop : Expr,
      (loop.rename f).append ∘ Expr.rename f = Expr.rename f ∘ loop.append := fun loop =>
    funext fun x => Expr.append_rename loop x
  rw [solveLoop, solveLoop]
  simp only [rename, Table.find?_map]
  cases e.terms.find? e.unknown with
  | none => rfl
  | some coefficient =>
    simp only [Option.map_some, Option.map_map, Table.erase_map, Table.map_map, Expr.star_rename,
      happend]

theorem substitute_rename (solved e : Equation) :
    (solved.rename f).substitute (e.rename f) = (solved.substitute e).rename f := by
  rw [substitute, substitute]
  simp only [rename, Table.find?_map]
  cases e.terms.find? solved.unknown with
  | none => rfl
  | some coefficient =>
    have hconstant : Expr.union? (e.constant.map (Expr.rename f))
        ((solved.constant.map (Expr.rename f)).map (coefficient.rename f).append) =
          (Expr.union? e.constant (solved.constant.map coefficient.append)).map
            (Expr.rename f) := by
      rw [← Expr.union?_rename, Option.map_map, Option.map_map]
      congr 2
      exact funext (Expr.append_rename coefficient)
    simp only [Option.map_some, hconstant, Table.erase_map]
    congr 1
    change (solved.terms.entries.map fun term => (term.1, term.2.rename f)).foldl _ _ = _
    rw [List.foldl_map]
    refine List.foldl_hom (Table.map (Expr.rename f)) fun terms term => ?_
    rw [Expr.append_rename]
    exact Table.merge_map Expr.union_rename terms term.1 _

/-- The solution of renamed equations is the renamed solution. -/
theorem solve_rename (equations : List Equation) :
    solve (equations.map (rename f)) = (solve equations).map (Expr.rename f) := by
  induction equations using solve.induct with
  | case1 => rw [List.map_nil, solve]; rfl
  | case2 e =>
    rw [List.map_singleton, solve, solve, solveLoop_rename]
    rfl
  | case3 e rest hrest ih =>
    rw [List.attach_map_val (f := e.solveLoop.substitute)] at ih
    have hrenamed : (rest.map (rename f)).map (e.rename f).solveLoop.substitute =
        (rest.map e.solveLoop.substitute).map (rename f) := by
      rw [List.map_map, List.map_map, solveLoop_rename]
      exact List.map_congr_left fun other _ => substitute_rename e.solveLoop other
    rw [List.map_cons, solve, solve, hrenamed, ih]
    · exact hrest
    · simpa using hrest

end Equation

/-- The expression of an automaton over renamed letters is its expression with
renamed letters. -/
theorem Automaton.expression_rename {f : Char ↪ Char} (a : Automaton) :
    (a.rename f).expression = a.expression.map (Option.map (Expr.rename f)) := by
  have hequation : ∀ order, (a.rename f).equation order =
      fun id => (a.equation order id).map (Equation.rename f) := by
    intro order
    funext id
    rw [equation, equation, state_rename]
    cases a.state id with
    | error e => rfl
    | ok state =>
      simp only [Except.map, bind, Except.bind, State.successors_rename]
      cases state.successors.mapM (Row.placeOf order) with
      | error e => rfl
      | ok places => exact congrArg Except.ok (Equation.ofState_rename id state)
  rw [expression, expression, preorder_rename, isAcyclic_rename]
  cases a.preorder with
  | error e => rfl
  | ok ids =>
    cases a.isAcyclic with
    | error e => rfl
    | ok acyclic =>
      simp only [bind, Except.bind, hequation, mapM_map]
      cases ids.reverse.mapM (a.equation ids) with
      | error e => rfl
      | ok equations => exact congrArg Except.ok (Equation.solve_rename equations)

end WordPattern
