import WordPattern.Proofs.Expr.Prefix
import WordPattern.Proofs.Expr.Solution

/-!
# Equations that read a word in one way

The terms of a state's equation begin with different letters. In general, while
equations are solved no word of a coefficient begins another word of it, a word
of another coefficient or a word of the constant, so a word tells which unknown
it comes to first and where. Solving for an unknown and substituting it keep
this, and all expressions stay unambiguous. Hence so is the expression of every
closed automaton, whatever its cycles. Words of a constant may begin words of
coefficients; nothing here excludes that a shorter word is found first.
-/

namespace WordPattern

open Computability

namespace Equation

variable {table : Table StateId Expr} {id : StateId} {e f loop : Expr} {es : List Expr}
  {C : Language Char}

/-- A coefficient leaves no choice open, none of its words begins another, and
it does not match the empty word. -/
structure Exit (e : Expr) : Prop where
  /-- Words are matched in one way. -/
  unambiguous : e.Unambiguous
  /-- Words do not begin one another. -/
  prefixFree : PrefixFree e.language
  /-- The empty word is not matched. -/
  nonempty : [] ∉ e.language

/-- No word of one expression begins a word of the other. -/
def Exclude (e f : Expr) : Prop := Incomparable e.language f.language

/-- Coefficients of which a word tells which one it comes from. -/
structure Exclusive (es : List Expr) : Prop where
  /-- Each of them is a way out. -/
  exit : ∀ e ∈ es, Exit e
  /-- Any two of them exclude one another. -/
  exclude : es.Pairwise Exclude

theorem Exclusive.perm {fs : List Expr} (h : Exclusive es) (hperm : es.Perm fs) :
    Exclusive fs where
  exit := fun e he => h.exit e (hperm.mem_iff.mpr he)
  exclude := hperm.pairwise h.exclude Incomparable.symm

theorem exclusive_cons :
    Exclusive (e :: es) ↔ Exit e ∧ (∀ f ∈ es, Exclude e f) ∧ Exclusive es := by
  constructor
  · intro h
    obtain ⟨he, hes⟩ := List.forall_mem_cons.mp h.exit
    obtain ⟨hhead, htail⟩ := List.pairwise_cons.mp h.exclude
    exact ⟨he, hhead, hes, htail⟩
  · intro h
    obtain ⟨he, hhead, hes⟩ := h
    exact ⟨List.forall_mem_cons.mpr ⟨he, hes.exit⟩, List.pairwise_cons.mpr ⟨hhead, hes.exclude⟩⟩

/-- A letter is a way out. -/
theorem exit_letter (letter : Char) : Exit (.literal [letter]) where
  unambiguous := .literal _
  prefixFree := prefixFree_literal [letter]
  nonempty := (coefficient_letter letter).nonempty

theorem Exit.union (he : Exit e) (hf : Exit f) (h : Exclude e f) : Exit (e.union f) where
  unambiguous := he.unambiguous.union hf.unambiguous h.1.apart
  prefixFree := by
    rw [Expr.language_union]
    exact he.prefixFree.add hf.prefixFree h
  nonempty := by
    rw [Expr.language_union, Language.mem_add]
    exact fun hnil => hnil.elim he.nonempty hf.nonempty

/-- Two coefficients may be joined. -/
theorem Exclusive.union (h : Exclusive (e :: f :: es)) : Exclusive (e.union f :: es) := by
  obtain ⟨he, hexclude, hrest⟩ := exclusive_cons.mp h
  obtain ⟨hf, hexclude', hes⟩ := exclusive_cons.mp hrest
  obtain ⟨hef, hexclude⟩ := List.forall_mem_cons.mp hexclude
  refine exclusive_cons.mpr ⟨he.union hf hef, fun g hg => ?_, hes⟩
  rw [Exclude, Expr.language_union]
  exact ((hexclude g hg).symm.add_right (hexclude' g hg).symm).symm

/-- Merging a term in keeps coefficients exclusive, if they are so together
with the new one. -/
theorem Exclusive.merge {id : StateId}
    (h : Exclusive (table.entries.map Prod.snd ++ e :: es)) :
    Exclusive ((table.merge Expr.union id e).entries.map Prod.snd ++ es) := by
  rcases table.merge_cases Expr.union id e with ⟨before, f, after, hentries, hmerge⟩ | hmerge
  · rw [hmerge]
    rw [hentries] at h
    simp only [List.map_append, List.map_cons, List.append_assoc, List.cons_append] at h ⊢
    have hold : (before.map Prod.snd ++ f :: (after.map Prod.snd ++ e :: es)).Perm
        (f :: e :: (before.map Prod.snd ++ (after.map Prod.snd ++ es))) := by
      refine List.perm_middle.trans (.cons f ?_)
      rw [← List.append_assoc, ← List.append_assoc]
      exact List.perm_middle
    exact (h.perm hold).union.perm List.perm_middle.symm
  · rw [hmerge, List.map_append, List.append_assoc]
    exact h

/-- Merging terms in keeps coefficients exclusive, if all together are so. -/
theorem Exclusive.foldl_merge {α : Type} (items : List α) (key : α → StateId) (g : α → Expr)
    (table : Table StateId Expr)
    (h : Exclusive (table.entries.map Prod.snd ++ items.map g)) :
    Exclusive ((items.foldl (fun terms item => terms.merge Expr.union (key item) (g item))
      table).entries.map Prod.snd) := by
  induction items generalizing table with
  | nil =>
    rw [List.map_nil, List.append_nil] at h
    exact h
  | cons item rest ih =>
    rw [List.map_cons] at h
    exact ih _ h.merge

/-- The coefficient of an unknown comes with the others. -/
theorem Exclusive.cons_erase (h : Exclusive (table.entries.map Prod.snd))
    (hfind : table.find? id = some e) :
    Exclusive (e :: (table.erase id).entries.map Prod.snd) :=
  h.perm ((Table.perm_cons_erase hfind).map Prod.snd)

/-- A loop in front of what its body excludes. -/
theorem Exit.append_loop (hloop : Exit loop) (he : Exit e) (h : Exclude loop e) :
    Exit (loop.star.append e) where
  unambiguous := by
    refine .append (.star hloop.unambiguous hloop.nonempty (hloop.prefixFree.splits _))
      he.unambiguous ?_
    rw [Expr.language_star]
    exact hloop.prefixFree.kstar_splits h.1
  prefixFree := by
    rw [Expr.language_append, Expr.language_star]
    exact hloop.prefixFree.kstar_mul h he.prefixFree
  nonempty := by
    rw [Expr.language_append, Language.mem_mul]
    intro hnil
    obtain ⟨u, -, v, hv, huv⟩ := hnil
    exact he.nonempty ((List.append_eq_nil_iff.mp huv).2 ▸ hv)

/-- A loop may be put in front of coefficients that its body excludes. -/
theorem Exclusive.map_loop (h : Exclusive (loop :: es)) :
    Exclusive (es.map loop.star.append) := by
  obtain ⟨hloop, hexclude, hes⟩ := exclusive_cons.mp h
  constructor
  · intro f hf
    obtain ⟨e, he, rfl⟩ := List.mem_map.mp hf
    exact hloop.append_loop (hes.exit e he) (hexclude e he)
  · refine List.pairwise_map.mpr (hes.exclude.imp_of_mem fun {e f} he hf hef => ?_)
    rw [Exclude, Expr.language_append, Expr.language_append, Expr.language_star]
    exact ⟨hloop.prefixFree.kstar_neverBegins (hexclude e he) (hexclude f hf).1 hef.1,
      hloop.prefixFree.kstar_neverBegins (hexclude f hf) (hexclude e he).1 hef.2⟩

/-- A coefficient may be put in front of another one. -/
theorem Exit.append (he : Exit e) (hf : Exit f) : Exit (e.append f) where
  unambiguous := he.unambiguous.append hf.unambiguous (he.prefixFree.splits _)
  prefixFree := by
    rw [Expr.language_append]
    exact he.prefixFree.mul hf.prefixFree
  nonempty := by
    rw [Expr.language_append, Language.mem_mul]
    intro hnil
    obtain ⟨u, hu, v, -, huv⟩ := hnil
    exact he.nonempty ((List.append_eq_nil_iff.mp huv).1 ▸ hu)

/-- A coefficient may be put in front of exclusive ones, which then go with
those that it excludes. -/
theorem Exclusive.append_map (h : Exclusive (e :: es)) {fs : List Expr} (hfs : Exclusive fs) :
    Exclusive (es ++ fs.map e.append) := by
  obtain ⟨he, hexclude, hes⟩ := exclusive_cons.mp h
  constructor
  · intro g hg
    rcases List.mem_append.mp hg with hold | hnew
    · exact hes.exit g hold
    · obtain ⟨f, hf, rfl⟩ := List.mem_map.mp hnew
      exact he.append (hfs.exit f hf)
  · refine List.pairwise_append.mpr ⟨hes.exclude, ?_, fun g hg k hk => ?_⟩
    · refine List.pairwise_map.mpr (hfs.exclude.imp fun {f g} hfg => ?_)
      rw [Exclude, Expr.language_append, Expr.language_append]
      exact he.prefixFree.incomparable_mul hfg
    · obtain ⟨f, -, rfl⟩ := List.mem_map.mp hk
      rw [Exclude, Expr.language_append]
      exact (hexclude g hg).symm.mul_right f.language

/-- A word tells which unknown of an equation it comes to first, and where. -/
structure Deterministic (e : Equation) : Prop where
  /-- The constant leaves no choice open. -/
  constant : ∀ c, e.constant = some c → c.Unambiguous
  /-- The coefficients exclude one another. -/
  terms : Exclusive (e.terms.entries.map Prod.snd)
  /-- No word of a coefficient begins a word of the constant. -/
  ends : ∀ term ∈ e.terms.entries, NeverBegins term.2.language (Expr.languageOf e.constant)

/-- Letters exclude one another. -/
theorem exclude_letter {c d : Char} (h : c ≠ d) : Exclude (.literal [c]) (.literal [d]) :=
  ⟨neverBegins_literal fun hbegins => h (List.cons_prefix_cons.mp hbegins).1,
    neverBegins_literal fun hbegins => h.symm (List.cons_prefix_cons.mp hbegins).1⟩

/-- The equation of a state is deterministic, because its edges have different
letters. -/
theorem deterministic_ofState (id : StateId) (state : State) :
    (ofState id state).Deterministic where
  constant := by
    intro c hc
    simp only [ofState, Option.ite_none_right_eq_some] at hc
    cases hc.2
    exact .literal []
  terms := by
    refine Exclusive.foldl_merge state.edges.entries Prod.snd (fun edge => .literal [edge.1])
      .empty ⟨?_, ?_⟩
    · intro e he
      obtain ⟨edge, -, rfl⟩ := List.mem_map.mp he
      exact exit_letter edge.1
    · refine List.pairwise_map.mpr ?_
      exact (List.pairwise_map.mp state.edges.distinct).imp exclude_letter
  ends := by
    have hempty : ∀ {e : Expr}, [] ∉ e.language →
        NeverBegins e.language (Expr.languageOf (ofState id state).constant) := by
      intro e he u hu v hv hbegins
      obtain ⟨-, rfl⟩ := mem_constant.mp hv
      exact he (List.prefix_nil.mp hbegins ▸ hu)
    refine forall_entries_foldl_merge (P := fun _ e =>
        NeverBegins e.language (Expr.languageOf (ofState id state).constant)) ?_
      state.edges.entries Prod.snd (fun edge => .literal [edge.1]) .empty
      (fun term hterm => by cases hterm) fun edge _ => hempty (exit_letter edge.1).nonempty
    intro _ e f he hf
    rw [Expr.language_union]
    exact neverBegins_add_left.mpr ⟨he, hf⟩

/-- Solving an equation for its own unknown keeps it deterministic. -/
theorem Deterministic.solveLoop {e : Equation} (h : e.Deterministic) :
    e.solveLoop.Deterministic := by
  unfold Equation.solveLoop
  cases hfind : e.terms.find? e.unknown with
  | none => exact h
  | some coefficient =>
    have hmem := Table.find?_eq_some_iff.mp hfind
    have hall := h.terms.cons_erase hfind
    obtain ⟨hloop, hexclude, -⟩ := exclusive_cons.mp hall
    refine ⟨?_, ?_, ?_⟩
    · intro c hc
      obtain ⟨old, hold, rfl⟩ := Option.map_eq_some_iff.mp hc
      refine .append (.star hloop.unambiguous hloop.nonempty (hloop.prefixFree.splits _))
        (h.constant old hold) ?_
      have hends : NeverBegins coefficient.language old.language := by
        have hends := h.ends _ hmem
        rwa [hold] at hends
      rw [Expr.language_star]
      exact hloop.prefixFree.kstar_splits hends
    · have hmap := hall.map_loop
      rw [List.map_map] at hmap
      simp only [Table.map, List.map_map]
      exact hmap
    · intro term hterm
      obtain ⟨old, hold, rfl⟩ := List.mem_map.mp hterm
      have hin := (mem_entries_erase.mp hold).1
      rw [languageOf_map_append, Expr.language_append, Expr.language_star]
      exact hloop.prefixFree.kstar_neverBegins
        (hexclude old.2 (List.mem_map.mpr ⟨old, hold, rfl⟩)) (h.ends _ hmem) (h.ends old hin)

/-- Putting a deterministic equation into another one keeps that one
deterministic. -/
theorem Deterministic.substitute {solved e : Equation} (hs : solved.Deterministic)
    (h : e.Deterministic) : (solved.substitute e).Deterministic := by
  unfold Equation.substitute
  cases hfind : e.terms.find? solved.unknown with
  | none => exact h
  | some coefficient =>
    have hmem := Table.find?_eq_some_iff.mp hfind
    have hall := h.terms.cons_erase hfind
    obtain ⟨hexit, hexclude, -⟩ := exclusive_cons.mp hall
    have hends := h.ends _ hmem
    have hconstant : Expr.languageOf (Expr.union? e.constant
        (solved.constant.map coefficient.append)) =
        Expr.languageOf e.constant + coefficient.language * Expr.languageOf solved.constant := by
      rw [Expr.languageOf_union?, languageOf_map_append]
    refine ⟨?_, ?_, ?_⟩
    · refine Expr.forall_union? h.constant (fun c hc => ?_) fun hown hc hx hy => hx.union hy ?_
      · obtain ⟨other, hother, rfl⟩ := Option.map_eq_some_iff.mp hc
        exact hexit.unambiguous.append (hs.constant other hother) (hexit.prefixFree.splits _)
      · obtain ⟨other, -, rfl⟩ := Option.map_eq_some_iff.mp hc
        rw [hown] at hends
        rw [Expr.language_append]
        exact (hends.mul_left other.language).apart.symm
    · refine Exclusive.foldl_merge solved.terms.entries Prod.fst
        (fun term => coefficient.append term.2) _ ?_
      have happend := hall.append_map hs.terms
      rw [List.map_map] at happend
      exact happend
    · rw [hconstant]
      refine forall_entries_foldl_merge (P := fun _ f => NeverBegins f.language
          (Expr.languageOf e.constant + coefficient.language * Expr.languageOf solved.constant)) ?_
        solved.terms.entries Prod.fst (fun term => coefficient.append term.2) _ ?_ ?_
      · intro _ f g hf hg
        rw [Expr.language_union]
        exact neverBegins_add_left.mpr ⟨hf, hg⟩
      · intro term hterm
        have hin := (mem_entries_erase.mp hterm).1
        have hother := hexclude term.2 (List.mem_map.mpr ⟨term, hterm, rfl⟩)
        exact neverBegins_add_right.mpr ⟨h.ends term hin, hother.symm.neverBegins_mul _⟩
      · intro term hterm
        rw [Expr.language_append]
        exact neverBegins_add_right.mpr ⟨hends.mul_left _,
          hexit.prefixFree.neverBegins_mul (hs.ends term hterm)⟩

/-- The solution of deterministic equations is unambiguous. -/
theorem solve_unambiguous (equations : List Equation) (h : ∀ e ∈ equations, e.Deterministic)
    {result : Expr} (hresult : solve equations = some result) : result.Unambiguous := by
  obtain ⟨e, he, hconstant⟩ := exists_of_solve (fun _ h => h.solveLoop)
    (fun _ _ hs h => hs.substitute h) equations h hresult
  exact he.constant result hconstant

end Equation

namespace Automaton

variable {a : Automaton}

/-- The expression of a closed automaton leaves no choice open. -/
theorem Closed.expression_unambiguous (h : a.Closed) {e : Expr}
    (he : a.expression = .ok (some e)) : e.Unambiguous := by
  obtain ⟨order, -, -, hsolve⟩ := h.expression_eq
  rw [he, Except.ok.injEq] at hsolve
  refine Equation.solve_unambiguous _ ?_ hsolve.symm
  intro equation hequation
  obtain ⟨id, -, rfl⟩ := List.mem_map.mp hequation
  exact Equation.deterministic_ofState id (a.stateAt id)

/-- A closed automaton that accepts a word has an expression with exactly one
derivation for each word that the automaton accepts and none for any other. No
two options of an alternation match the same word, no body of a repetition
matches the empty word, and so no repetition is made optional. -/
theorem expression_derives_unique (h : a.Closed) (hword : ∃ word, a.accepts word = .ok true) :
    ∃ e, a.expression = .ok (some e) ∧
      (∀ word, a.accepts word = .ok true ↔ ∃ d, Expr.Derives e d word) ∧
      (∀ word d d', Expr.Derives e d word → Expr.Derives e d' word → d = d') ∧
      (∀ options, Expr.Part (.alternation options) e →
        options.Pairwise fun x y => Apart x.language y.language) ∧
      (∀ body quantifier, Expr.Part (.repetition body quantifier) e → [] ∉ body.language) ∧
      ∀ body, Expr.Part (.repetition body .optional) e →
        ∀ inner quantifier, body ≠ .repetition inner quantifier := by
  obtain ⟨result, hok, hlanguage, -⟩ := h.expression_spec
  cases result with
  | none =>
    obtain ⟨word, haccepts⟩ := hword
    rw [← h.mem_wordsFrom_start, ← hlanguage] at haccepts
    exact absurd haccepts (Language.notMem_zero word)
  | some e =>
    have hunambiguous := h.expression_unambiguous hok
    have hnil : ∀ {body quantifier}, Expr.Part (.repetition body quantifier) e →
        [] ∉ body.language := by
      intro body quantifier hpart
      cases hunambiguous.part hpart with
      | optional _ hnil => exact hnil
      | star _ hnil _ => exact hnil
    refine ⟨e, hok, fun word => ?_, fun _ _ _ hd hd' => hunambiguous.derives_unique hd hd', ?_,
      fun _ _ hpart => hnil hpart, ?_⟩
    · rw [← h.mem_wordsFrom_start, ← hlanguage]
      exact Expr.mem_language_iff
    · intro options hpart
      cases hunambiguous.part hpart with
      | alternation _ hapart => exact hapart
    · intro body hpart inner quantifier hbody
      exact hnil hpart (hbody ▸ Expr.nil_mem_repetition inner quantifier)

theorem expression_derives_unique_twoWays :
    (twoWays.Closed ∧ ∃ word, twoWays.accepts word = .ok true) ∧
    ∃ e, twoWays.expression = .ok (some e) ∧
      (∀ word, twoWays.accepts word = .ok true ↔ ∃ d, Expr.Derives e d word) ∧
      (∀ word d d', Expr.Derives e d word → Expr.Derives e d' word → d = d') ∧
      (∀ options, Expr.Part (.alternation options) e →
        options.Pairwise fun x y => Apart x.language y.language) ∧
      (∀ body quantifier, Expr.Part (.repetition body quantifier) e → [] ∉ body.language) ∧
      ∀ body, Expr.Part (.repetition body .optional) e →
        ∀ inner quantifier, body ≠ .repetition inner quantifier := by
  have hword : ∃ word, twoWays.accepts word = .ok true := ⟨['b', 'a', 'a'], by decide⟩
  exact ⟨⟨closed_twoWays, hword⟩, expression_derives_unique closed_twoWays hword⟩

end Automaton

end WordPattern
