import WordPattern.Proofs.Expr.Determinism

/-!
# Concatenations that keep longer matches ahead

Where words of a concatenation can be cut in several places, a longer first half
could be followed by so short a second half that the whole match is shorter. In
the expressions that are built this does not happen: the words of the first half
never begin one another, or the second half is a text, or the first half repeats
a loop that the second half never begins with. Taking exposed text off keeps
this, and solving equations does. In which order the options of an alternation
stand is not described here.
-/

namespace WordPattern

open Computability

variable {L M : Language Char}

/-- In a text, a longer word of the first language in front gives a longer word
of the product. -/
def KeepsAhead (L M : Language Char) : Prop :=
  ∀ ⦃u u' v v' text⦄, u ∈ L → u' ∈ L → v ∈ M → v' ∈ M → u ++ v <+: text → u' ++ v' <+: text →
    u'.length < u.length → (u' ++ v').length < (u ++ v).length

theorem PrefixFree.keepsAhead (h : PrefixFree L) (M : Language Char) : KeepsAhead L M := by
  intro u u' v v' text hu hu' _ _ hbegins hbegins' hlt
  have hsame := h.eq_of_prefix hu hu' ((List.prefix_append u v).trans hbegins)
    ((List.prefix_append u' v').trans hbegins')
  exact absurd hlt (hsame ▸ Nat.lt_irrefl _)

theorem keepsAhead_literal (L : Language Char) (text : Word) :
    KeepsAhead L (Expr.literal text).language := by
  intro u u' v v' _ _ _ hv hv' _ _ hlt
  rw [Expr.mem_literal.mp hv, Expr.mem_literal.mp hv', List.length_append, List.length_append]
  omega

/-- Of two rows of rounds that begin the same text, the longer one goes on with a
round where the shorter one ends. -/
theorem PrefixFree.exists_round (h : PrefixFree L) {u u' text : Word} (hu : u ∈ L∗)
    (hu' : u' ∈ L∗) (hbegins : u <+: text) (hbegins' : u' <+: text) (hlt : u'.length < u.length) :
    ∃ round ∈ L, u' ++ round <+: u := by
  obtain ⟨parts, rfl, hparts⟩ := Language.mem_kstar.mp hu
  obtain ⟨parts', rfl, hparts'⟩ := Language.mem_kstar.mp hu'
  clear hu hu'
  induction parts' generalizing parts text with
  | nil =>
    cases parts with
    | nil => exact absurd hlt (Nat.lt_irrefl _)
    | cons first rest => exact ⟨first, hparts first List.mem_cons_self, ⟨rest.flatten, rfl⟩⟩
  | cons first' rest' ih =>
    obtain ⟨hfirst', hrest'⟩ := List.forall_mem_cons.mp hparts'
    cases parts with
    | nil => exact absurd hlt (Nat.not_lt_zero _)
    | cons first rest =>
      obtain ⟨hfirst, hrest⟩ := List.forall_mem_cons.mp hparts
      -- Both rows begin the same text, so their first rounds are the same one.
      simp only [List.flatten_cons] at hbegins hbegins' hlt ⊢
      obtain rfl := h.eq_of_prefix hfirst hfirst' ((List.prefix_append _ _).trans hbegins)
        ((List.prefix_append _ _).trans hbegins')
      obtain ⟨after, rfl⟩ := (List.prefix_append first _).trans hbegins
      rw [List.prefix_append_right_inj] at hbegins hbegins'
      rw [List.length_append, List.length_append] at hlt
      obtain ⟨round, hround, hgoes⟩ := ih rest hrest hbegins hrest' hbegins' (by omega)
      refine ⟨round, hround, ?_⟩
      rw [List.append_assoc, List.prefix_append_right_inj]
      exact hgoes

/-- Rounds stay ahead if what follows them does not begin with a round. -/
theorem PrefixFree.kstar_keepsAhead (h : PrefixFree L) (hM : NeverBegins L M) :
    KeepsAhead L∗ M := by
  intro u u' v v' text hu hu' hv hv' hbegins hbegins' hlt
  have hleft : u <+: text := (List.prefix_append u v).trans hbegins
  obtain ⟨round, hround, hgoes⟩ := h.exists_round hu hu' hleft
    ((List.prefix_append u' v').trans hbegins') hlt
  -- The text goes on with a round where the shorter row ends, so what follows
  -- that row there cannot reach beyond this round.
  have hshort : v' <+: round := by
    obtain ⟨after, rfl⟩ := (List.prefix_append u' v').trans hbegins'
    rw [List.prefix_append_right_inj] at hbegins'
    have hround' := (List.prefix_append_right_inj u').mp (hgoes.trans hleft)
    exact (List.prefix_or_prefix_of_prefix hround' hbegins').resolve_left (hM round hround v' hv')
  have hne : v'.length ≠ round.length := by
    intro hlen
    exact hM round hround v' hv' (hshort.eq_of_length hlen ▸ List.prefix_refl v')
  have hle := hshort.length_le
  have hgo := hgoes.length_le
  rw [List.length_append] at hgo ⊢
  rw [List.length_append]
  omega

/-- Words stay prefix-free when a text is taken off their front. -/
theorem PrefixFree.of_put_start {text : Word} (h : PrefixFree (Side.put .start text L)) :
    PrefixFree L := by
  intro u hu v hv hbegins
  have hput := (List.prefix_append_right_inj text).mpr hbegins
  exact List.append_cancel_left (h _ (Side.mem_put_start hu) _ (Side.mem_put_start hv) hput)

/-- What does not begin a language does not begin what is left of it when a text
is taken off the end. -/
theorem NeverBegins.of_put_finish {text : Word} (h : NeverBegins L (Side.put .finish text M)) :
    NeverBegins L M := by
  intro u hu v hv hbegins
  exact h u hu _ (Side.mem_put_finish hv) (hbegins.trans (List.prefix_append v text))

namespace Expr

variable {a b : Expr} {text : Word}

/-- How the halves of a concatenation keep longer matches ahead. -/
inductive Cut (a b : Expr) : Prop where
  /-- The words of the first half do not begin one another. -/
  | prefixFree (h : PrefixFree a.language)
  /-- The second half is a text. -/
  | text (text : Word) (h : b = literal text)
  /-- The first half repeats a loop that the second half never begins with. -/
  | loop (body : Expr) (ha : a = body.star) (hfree : PrefixFree body.language)
    (h : NeverBegins body.language b.language)

theorem Cut.keepsAhead (h : Cut a b) : KeepsAhead a.language b.language := by
  cases h with
  | prefixFree h => exact h.keepsAhead _
  | text text h =>
    rw [h]
    exact keepsAhead_literal _ text
  | loop body ha hfree h =>
    rw [ha, language_star]
    exact hfree.kstar_keepsAhead h

/-- Every concatenation keeps longer matches ahead, and the rounds of a
repetition do not begin one another. -/
inductive Steady : Expr → Prop where
  /-- A text is matched in one length. -/
  | literal (text : Word) : Steady (literal text)
  /-- A character is matched in one length. -/
  | charClass (members : List Char) : Steady (charClass members)
  /-- The halves keep longer matches ahead. -/
  | concat {a b : Expr} (ha : Steady a) (hb : Steady b) (hcut : Cut a b) : Steady (concat a b)
  /-- All options are steady. -/
  | alternation {options : List Expr} (hall : ∀ e ∈ options, Steady e) :
    Steady (alternation options)
  /-- The body is steady. -/
  | optional {body : Expr} (h : Steady body) : Steady (repetition body .optional)
  /-- The body is steady, and rounds do not begin one another. -/
  | star {body : Expr} (h : Steady body) (hfree : PrefixFree body.language) :
    Steady (repetition body .star)

theorem Steady.append (ha : a.Steady) (hb : b.Steady) (hcut : Cut a b) : (a.append b).Steady := by
  unfold Expr.append
  split
  · exact hb
  · split
    · exact ha
    · split
      · exact .literal _
      · cases hb with
        | concat _ hrest _ => exact .concat (.literal _) hrest (.prefixFree (prefixFree_literal _))
      · cases ha with
        | concat hrest _ _ => exact .concat hrest (.literal _) (.text _ rfl)
      · exact .concat ha hb hcut

theorem Steady.halves (h : (Expr.concat a b).Steady) : a.Steady ∧ b.Steady := by
  cases h with
  | concat ha hb _ => exact ⟨ha, hb⟩

/-- Longer matches stay ahead when text is taken off the first half. A loop
exposes no text, so the first half is not one. -/
theorem Steady.replace_first {rest : Expr} (h : (Expr.concat a b).Steady)
    (hstripped : Stripped .start a rest) (hrest : rest.Steady) : (Expr.concat rest b).Steady := by
  obtain ⟨text, hlanguage⟩ := hstripped.language
  cases h with
  | concat _ hb hcut =>
    refine .concat hrest hb ?_
    cases hcut with
    | prefixFree h => exact .prefixFree (hlanguage ▸ h).of_put_start
    | text text h => exact .text text h
    | loop body ha =>
      obtain ⟨own, hown⟩ := hstripped.exposed
      rw [ha, Expr.star, literalAt?_repetition] at hown
      cases hown

/-- Longer matches stay ahead when text is taken off the second half. -/
theorem Steady.replace_second {rest : Expr} (h : (Expr.concat a b).Steady)
    (hstripped : Stripped .finish b rest) (hrest : rest.Steady) : (Expr.concat a rest).Steady := by
  obtain ⟨text, hlanguage⟩ := hstripped.language
  cases h with
  | concat ha _ hcut =>
    refine .concat ha hrest ?_
    cases hcut with
    | prefixFree h => exact .prefixFree h
    | text own h =>
      obtain ⟨count, hdrop⟩ := hstripped.dropped
      rw [h] at hdrop
      cases hdrop
      exact .text _ rfl
    | loop body ha hfree h => exact .loop body ha hfree (hlanguage ▸ h).of_put_finish

theorem Steady.factor (ha : a.Steady) (hb : b.Steady) (side : Side) :
    (factor side a b).1.Steady ∧ (factor side a b).2.1.Steady :=
  factor_keeps .literal Steady.halves Steady.replace_first Steady.replace_second ha hb

theorem Steady.options (h : a.Steady) : ∀ e ∈ a.options, e.Steady := by
  rcases options_cases a with ⟨options, rfl⟩ | hself
  · cases h with
    | alternation hall => exact hall
  · rw [hself]
    exact List.forall_mem_singleton.mpr h

theorem Steady.either (ha : a.Steady) (hb : b.Steady) : (either a b).Steady :=
  either_keeps ha.options hb.options fun _ _ hall => .alternation hall

theorem Steady.choice (ha : a.Steady) (hb : b.Steady) : (choice a b).Steady := by
  unfold Expr.choice
  split
  · exact .optional hb
  · split
    · exact .optional ha
    · split
      · cases ha with
        | optional hx => exact .optional (hx.either hb)
      · cases hb with
        | optional hy => exact .optional (ha.either hy)
      · split
        · exact .charClass _
        · exact ha.either hb

theorem Steady.between (h : a.Steady) (before after : Word) : (between before a after).Steady :=
  between_keeps (fun _ _ _ h => .concat (.literal _) h (.prefixFree (prefixFree_literal _)))
    (fun _ _ _ h => .concat h (.literal _) (.text _ rfl)) h before after

theorem Steady.union (ha : a.Steady) (hb : b.Steady) : (a.union b).Steady := by
  obtain ⟨ha', hb'⟩ := ha.factor hb .start
  obtain ⟨ha'', hb''⟩ := ha'.factor hb' .finish
  unfold Expr.union
  split
  · exact ha
  · dsimp only
    split
    · exact .literal _
    · exact (ha''.choice hb'').between _ _

end Expr

namespace Equation

/-- The constant and the coefficients are steady, and a word tells which unknown
it comes to. -/
structure Steady (e : Equation) : Prop where
  /-- Words are read in one way. -/
  deterministic : e.Deterministic
  /-- The constant is steady. -/
  constant : ∀ c, e.constant = some c → c.Steady
  /-- The coefficients are steady. -/
  terms : ∀ term ∈ e.terms.entries, term.2.Steady

/-- The equation of a state is steady. -/
theorem steady_ofState (id : StateId) (state : State) : (ofState id state).Steady where
  deterministic := deterministic_ofState id state
  constant := by
    intro c hc
    simp only [ofState, Option.ite_none_right_eq_some] at hc
    cases hc.2
    exact .literal []
  terms := forall_entries_foldl_merge (P := fun _ e => e.Steady) (fun he hf => he.union hf)
    state.edges.entries Prod.snd (fun edge => .literal [edge.1]) .empty
    (fun term hterm => by cases hterm) fun edge _ => .literal [edge.1]

/-- Solving an equation for its own unknown keeps it steady. -/
theorem Steady.solveLoop {e : Equation} (h : e.Steady) : e.solveLoop.Steady := by
  have hdeterministic := h.deterministic.solveLoop
  unfold Equation.solveLoop at hdeterministic ⊢
  cases hfind : e.terms.find? e.unknown with
  | none => exact h
  | some coefficient =>
    rw [hfind] at hdeterministic
    have hmem := Table.find?_eq_some_iff.mp hfind
    obtain ⟨hexit, hexclude, -⟩ := exclusive_cons.mp (h.deterministic.terms.cons_erase hfind)
    have hloop : coefficient.star.Steady := .star (h.terms _ hmem) hexit.prefixFree
    refine ⟨hdeterministic, ?_, ?_⟩
    · intro c hc
      obtain ⟨old, hold, rfl⟩ := Option.map_eq_some_iff.mp hc
      have hends := h.deterministic.ends _ hmem
      rw [hold] at hends
      exact hloop.append (h.constant old hold) (.loop _ rfl hexit.prefixFree hends)
    · intro term hterm
      obtain ⟨old, hold, rfl⟩ := List.mem_map.mp hterm
      have hother := hexclude old.2 (List.mem_map.mpr ⟨old, hold, rfl⟩)
      have hin := (mem_entries_erase.mp hold).1
      exact hloop.append (h.terms old hin) (.loop _ rfl hexit.prefixFree hother.1)

/-- Putting a steady equation into another one keeps that one steady. -/
theorem Steady.substitute {solved e : Equation} (hs : solved.Steady) (h : e.Steady) :
    (solved.substitute e).Steady := by
  have hdeterministic := hs.deterministic.substitute h.deterministic
  unfold Equation.substitute at hdeterministic ⊢
  cases hfind : e.terms.find? solved.unknown with
  | none => exact h
  | some coefficient =>
    rw [hfind] at hdeterministic
    have hmem := Table.find?_eq_some_iff.mp hfind
    obtain ⟨hexit, -, -⟩ := exclusive_cons.mp (h.deterministic.terms.cons_erase hfind)
    have happend : ∀ {x : Expr}, x.Steady → (coefficient.append x).Steady :=
      fun hx => (h.terms _ hmem).append hx (.prefixFree hexit.prefixFree)
    refine ⟨hdeterministic, ?_, ?_⟩
    · refine Expr.forall_union? h.constant (fun c hc => ?_) fun _ _ hx hy => hx.union hy
      obtain ⟨other, hother, rfl⟩ := Option.map_eq_some_iff.mp hc
      exact happend (hs.constant other hother)
    · refine forall_entries_foldl_merge (P := fun _ f => f.Steady) (fun hf hg => hf.union hg)
        solved.terms.entries Prod.fst (fun term => coefficient.append term.2) _ ?_ ?_
      · exact fun term hterm => h.terms term (mem_entries_erase.mp hterm).1
      · exact fun term hterm => happend (hs.terms term hterm)

end Equation

/-- The expression of a closed automaton is steady. -/
theorem Automaton.Closed.expression_steady {a : Automaton} (h : a.Closed) {e : Expr}
    (he : a.expression = .ok (some e)) : e.Steady := by
  obtain ⟨order, -, -, hsolve⟩ := h.expression_eq
  rw [he, Except.ok.injEq] at hsolve
  have hall : ∀ equation ∈ order.reverse.map fun id => Equation.ofState id (a.stateAt id),
      equation.Steady := by
    intro equation hequation
    obtain ⟨id, -, rfl⟩ := List.mem_map.mp hequation
    exact Equation.steady_ofState id (a.stateAt id)
  obtain ⟨equation, hequation, hconstant⟩ := Equation.exists_of_solve (fun _ h => h.solveLoop)
    (fun _ _ hs h => hs.substitute h) _ hall hsolve.symm
  exact hequation.constant e hconstant

end WordPattern
