import Mathlib.Algebra.BigOperators.Group.List.Basic
import WordPattern.Expr.Equations
import WordPattern.Proofs.Automaton.Reachable
import WordPattern.Proofs.Expr.Proper

/-!
# Solving the equations of an automaton

The words accepted from the states satisfy the equations of the states, and go
on satisfying them while the equations are solved. Repeating a coefficient is
sound because no coefficient matches the empty word: then an equation has only
one solution. When one equation is left it has no other unknown, so its
constant is the language of the start. Cycles, states that accept nothing and
edges that share their target are all allowed. The shape of the solution
depends on the order of the states and is not described here.
-/

namespace WordPattern

open Computability

namespace Equation

variable {values : StateId → Language Char} {table : Table StateId Expr} {id : StateId} {e : Expr}

/-- What a list of terms stands for when the unknowns have the given values. -/
def sumOf (values : StateId → Language Char) (terms : List (StateId × Expr)) : Language Char :=
  (terms.map fun term => term.2.language * values term.1).sum

/-- A coefficient is proper and does not match the empty word. -/
structure Coefficient (e : Expr) : Prop where
  /-- The expression is proper. -/
  proper : e.Proper
  /-- The empty word is not matched. -/
  nonempty : [] ∉ e.language

theorem Coefficient.union {f : Expr} (he : Coefficient e) (hf : Coefficient f) :
    Coefficient (e.union f) where
  proper := he.proper.union hf.proper
  nonempty := by
    rw [Expr.language_union, Language.mem_add]
    exact fun h => h.elim he.nonempty hf.nonempty

/-- A coefficient behind any proper expression is one. -/
theorem Coefficient.append {f : Expr} (he : e.Proper) (hf : Coefficient f) :
    Coefficient (e.append f) where
  proper := he.append hf.proper
  nonempty := by
    rw [Expr.language_append, Language.mem_mul]
    intro h
    obtain ⟨u, -, v, hv, huv⟩ := h
    have hnil := (List.append_eq_nil_iff.mp huv).2
    exact hf.nonempty (hnil ▸ hv)

/-- Merging a term in adds it to the sum. -/
theorem sumOf_merge (table : Table StateId Expr) (id : StateId) (e : Expr) :
    sumOf values (table.merge Expr.union id e).entries =
      sumOf values table.entries + e.language * values id := by
  rcases table.merge_cases Expr.union id e with ⟨before, f, after, hentries, hmerge⟩ | hmerge
  · rw [hmerge, hentries]
    simp only [sumOf, List.map_append, List.map_cons, List.sum_append, List.sum_cons,
      Expr.language_union, add_mul, add_assoc]
    rw [add_comm (e.language * values id)]
  · rw [hmerge]
    simp only [sumOf, List.map_append, List.map_cons, List.map_nil, List.sum_append,
      List.sum_cons, List.sum_nil, add_zero]

/-- Merging terms in adds them to the sum. -/
theorem sumOf_foldl_merge {α : Type} (items : List α) (key : α → StateId) (f : α → Expr)
    (table : Table StateId Expr) :
    sumOf values (items.foldl (fun terms item => terms.merge Expr.union (key item) (f item))
        table).entries =
      sumOf values table.entries +
        (items.map fun item => (f item).language * values (key item)).sum := by
  induction items generalizing table with
  | nil => simp
  | cons item rest ih =>
    rw [List.foldl_cons, ih, sumOf_merge, List.map_cons, List.sum_cons, add_assoc]

/-- What holds of the terms of a table and of a term that is merged in holds of
all terms afterwards, if union keeps it. -/
theorem forall_entries_merge {P : StateId → Expr → Prop}
    (hunion : ∀ {id e f}, P id e → P id f → P id (e.union f))
    (htable : ∀ term ∈ table.entries, P term.1 term.2) (he : P id e) :
    ∀ term ∈ (table.merge Expr.union id e).entries, P term.1 term.2 := by
  rcases table.merge_cases Expr.union id e with ⟨before, f, after, hentries, hmerge⟩ | hmerge
  · rw [hentries] at htable
    obtain ⟨hbefore, hterms⟩ := List.forall_mem_append.mp htable
    obtain ⟨hf, hafter⟩ := List.forall_mem_cons.mp hterms
    rw [hmerge]
    exact List.forall_mem_append.mpr ⟨hbefore, List.forall_mem_cons.mpr ⟨hunion hf he, hafter⟩⟩
  · rw [hmerge]
    exact List.forall_mem_append.mpr ⟨htable, List.forall_mem_singleton.mpr he⟩

theorem forall_entries_foldl_merge {α : Type} {P : StateId → Expr → Prop}
    (hunion : ∀ {id e f}, P id e → P id f → P id (e.union f)) (items : List α)
    (key : α → StateId) (f : α → Expr) (table : Table StateId Expr)
    (htable : ∀ term ∈ table.entries, P term.1 term.2)
    (hitems : ∀ item ∈ items, P (key item) (f item)) :
    ∀ term ∈ (items.foldl (fun terms item => terms.merge Expr.union (key item) (f item))
      table).entries, P term.1 term.2 := by
  induction items generalizing table with
  | nil => exact htable
  | cons item rest ih =>
    obtain ⟨hitem, hrest⟩ := List.forall_mem_cons.mp hitems
    exact ih _ (forall_entries_merge hunion htable hitem) hrest

/-- A term can be taken out of the sum. -/
theorem sumOf_erase (h : table.find? id = some e) :
    sumOf values table.entries =
      e.language * values id + sumOf values (table.erase id).entries := by
  rw [sumOf, ((Table.perm_cons_erase h).map _).sum_eq, List.map_cons, List.sum_cons, sumOf]

/-- Putting an expression in front of every term puts it in front of the sum. -/
theorem sumOf_map_append (loop : Expr) (table : Table StateId Expr) :
    sumOf values (table.map loop.append).entries =
      loop.language * sumOf values table.entries := by
  simp only [Table.map, sumOf, List.map_map]
  induction table.entries with
  | nil => simp
  | cons term rest ih =>
    rw [List.map_cons, List.sum_cons, ih, List.map_cons, List.sum_cons, mul_add]
    simp only [Function.comp, Expr.language_append, mul_assoc]

/-- An equation holds of the values, its coefficients are coefficients and its
constant is proper, and its unknowns are listed. -/
structure Sound (values : StateId → Language Char) (unknowns : List StateId) (e : Equation) :
    Prop where
  /-- Both sides have the same value. -/
  holds : values e.unknown = Expr.languageOf e.constant + sumOf values e.terms.entries
  /-- The constant is proper. -/
  constant : ∀ {c}, e.constant = some c → c.Proper
  /-- Terms have coefficients and listed unknowns. -/
  terms : ∀ term ∈ e.terms.entries, term.1 ∈ unknowns ∧ Coefficient term.2

variable {unknowns rest : List StateId}

theorem languageOf_map_append (loop : Expr) (c : Option Expr) :
    Expr.languageOf (c.map loop.append) = loop.language * Expr.languageOf c := by
  cases c with
  | none => simp [Expr.languageOf]
  | some c => exact Expr.language_append loop c

theorem mem_entries_erase {term : StateId × Expr} :
    term ∈ (table.erase id).entries ↔ term ∈ table.entries ∧ term.1 ≠ id := by
  simp [Table.erase, List.mem_filter]

/-- Solving an equation for its own unknown keeps it sound and takes that
unknown out of its terms. -/
theorem Sound.solveLoop {e : Equation} (h : e.Sound values unknowns) :
    e.solveLoop.Sound values unknowns ∧ e.solveLoop.unknown = e.unknown ∧
      ∀ term ∈ e.solveLoop.terms.entries, term.1 ≠ e.unknown := by
  unfold Equation.solveLoop
  cases hfind : e.terms.find? e.unknown with
  | none => exact ⟨h, rfl, fun _ hterm => Table.ne_of_find?_eq_none hfind hterm⟩
  | some coefficient =>
    have hcoefficient : Coefficient coefficient :=
      (h.terms _ (Table.find?_eq_some_iff.mp hfind)).2
    have hloop : coefficient.star.Proper := .repetition hcoefficient.proper .star
    have hholds := h.holds
    rw [sumOf_erase hfind, add_left_comm,
      Language.self_eq_mul_add_iff hcoefficient.nonempty] at hholds
    have hentry : ∀ {term : StateId × Expr},
        term ∈ ((e.terms.erase e.unknown).map coefficient.star.append).entries →
        ∃ f, (term.1, f) ∈ e.terms.entries ∧ term.1 ≠ e.unknown ∧
          term.2 = coefficient.star.append f := by
      intro term hterm
      obtain ⟨old, hold, rfl⟩ := List.mem_map.mp hterm
      obtain ⟨hin, hne⟩ := mem_entries_erase.mp hold
      exact ⟨old.2, hin, hne, rfl⟩
    refine ⟨⟨?_, ?_, ?_⟩, rfl, ?_⟩
    · simp only [languageOf_map_append, sumOf_map_append, Expr.language_star, ← mul_add]
      exact hholds
    · intro c hc
      obtain ⟨old, hold, rfl⟩ := Option.map_eq_some_iff.mp hc
      exact hloop.append (h.constant hold)
    · intro term hterm
      obtain ⟨f, hin, -, he⟩ := hentry hterm
      rw [he]
      exact ⟨(h.terms _ hin).1, .append hloop (h.terms _ hin).2⟩
    · intro term hterm
      obtain ⟨-, -, hne, -⟩ := hentry hterm
      exact hne

/-- Putting a solved equation into another one keeps it sound and takes the
solved unknown out of its terms. -/
theorem Sound.substitute {solved e : Equation} (hs : solved.Sound values (id :: rest))
    (hid : solved.unknown = id) (hsolved : ∀ term ∈ solved.terms.entries, term.1 ≠ id)
    (h : e.Sound values (id :: rest)) :
    (solved.substitute e).Sound values rest ∧ (solved.substitute e).unknown = e.unknown := by
  have hlisted : ∀ {other : StateId}, other ∈ id :: rest → other ≠ id → other ∈ rest :=
    fun hmem hne => (List.mem_cons.mp hmem).resolve_left hne
  unfold Equation.substitute
  rw [hid]
  cases hfind : e.terms.find? id with
  | none =>
    refine ⟨⟨h.holds, h.constant, ?_⟩, rfl⟩
    intro term hterm
    obtain ⟨hmem, hcoefficient⟩ := h.terms term hterm
    exact ⟨hlisted hmem (Table.ne_of_find?_eq_none hfind hterm), hcoefficient⟩
  | some coefficient =>
    have hproper := (h.terms _ (Table.find?_eq_some_iff.mp hfind)).2.proper
    have hvalue := hs.holds
    rw [hid] at hvalue
    refine ⟨⟨?_, ?_, ?_⟩, rfl⟩
    · have hsum : (solved.terms.entries.map fun term =>
          (coefficient.append term.2).language * values term.1).sum =
          coefficient.language * sumOf values solved.terms.entries := by
        rw [← sumOf_map_append, sumOf, Table.map, List.map_map]
        rfl
      rw [h.holds, sumOf_erase hfind, hvalue, Expr.languageOf_union?, languageOf_map_append,
        sumOf_foldl_merge, hsum, mul_add]
      rw [add_comm (sumOf values (e.terms.erase id).entries), add_assoc, add_assoc]
    · refine fun {c} => Expr.proper_union? (fun c hc => h.constant hc) ?_ c
      intro c hc
      obtain ⟨other, hother, rfl⟩ := Option.map_eq_some_iff.mp hc
      exact hproper.append (hs.constant hother)
    · refine forall_entries_foldl_merge (P := fun other f => other ∈ rest ∧ Coefficient f)
        (fun hf hg => ⟨hf.1, hf.2.union hg.2⟩) solved.terms.entries Prod.fst
        (fun term => coefficient.append term.2) _ ?_ ?_
      · intro term hterm
        obtain ⟨hin, hne⟩ := mem_entries_erase.mp hterm
        exact ⟨hlisted (h.terms term hin).1 hne, (h.terms term hin).2⟩
      · intro term hterm
        have hmem := (hs.terms term hterm).1
        exact ⟨hlisted hmem (hsolved term hterm), .append hproper (hs.terms term hterm).2⟩

/-- An equation without unknowns but its own is solved by its constant. -/
theorem Sound.constant_eq {e : Equation} (h : e.Sound values [e.unknown]) :
    Expr.languageOf e.solveLoop.constant = values e.unknown ∧
      ∀ c, e.solveLoop.constant = some c → c.Proper := by
  obtain ⟨hsound, hunknown, hfree⟩ := h.solveLoop
  have hnil : e.solveLoop.terms.entries = [] := by
    rw [List.eq_nil_iff_forall_not_mem]
    intro term hterm
    exact hfree term hterm (List.mem_singleton.mp (hsound.terms term hterm).1)
  have hholds := hsound.holds
  rw [hnil, sumOf, List.map_nil, List.sum_nil, add_zero, hunknown] at hholds
  exact ⟨hholds.symm, fun _ hc => hsound.constant hc⟩

/-- Putting a solved equation into the equations behind it keeps these sound
without its unknown. -/
theorem Sound.eliminate {e : Equation} {later : List Equation}
    (h : ∀ g ∈ e :: later, g.Sound values ((e :: later).map unknown)) :
    (later.map e.solveLoop.substitute).map unknown = later.map unknown ∧
      ∀ g ∈ later.map e.solveLoop.substitute, g.Sound values (later.map unknown) := by
  obtain ⟨he, hlater⟩ := List.forall_mem_cons.mp h
  obtain ⟨hsound, hunknown, hfree⟩ := he.solveLoop
  have hkeep : ∀ g ∈ later, (e.solveLoop.substitute g).Sound values (later.map unknown) ∧
      (e.solveLoop.substitute g).unknown = g.unknown :=
    fun g hg => hsound.substitute hunknown hfree (hlater g hg)
  constructor
  · rw [List.map_map, List.map_inj_left]
    exact fun g hg => (hkeep g hg).2
  · intro g hg
    obtain ⟨old, hold, rfl⟩ := List.mem_map.mp hg
    exact (hkeep old hold).1

/-- The solution of sound equations is the value of the last unknown, and is
proper if it is not absent. -/
theorem solve_spec (equations : List Equation) (last : StateId)
    (hlast : (equations.map unknown).getLast? = some last)
    (h : ∀ e ∈ equations, e.Sound values (equations.map unknown)) :
    Expr.languageOf (solve equations) = values last ∧
      ∀ e, solve equations = some e → e.Proper := by
  induction hn : equations.length generalizing equations with
  | zero =>
    rw [List.length_eq_zero_iff.mp hn] at hlast
    cases hlast
  | succ n ih =>
    match equations, hn with
    | [e], _ =>
      rw [solve]
      cases hlast
      exact (h e List.mem_cons_self).constant_eq
    | e :: f :: later, hn =>
      obtain ⟨hunknowns, hsound⟩ := Sound.eliminate h
      rw [solve]
      · refine ih _ ?_ (hunknowns ▸ hsound) ?_
        · rw [hunknowns]
          rw [List.map_cons, List.map_cons, List.getLast?_cons_cons] at hlast
          exact hlast
        · rw [List.length_map]
          simpa using hn
      · exact fun he => by cases he

/-- Solving an equation for its own unknown keeps the unknown. -/
@[simp] theorem unknown_solveLoop (e : Equation) : e.solveLoop.unknown = e.unknown := by
  unfold solveLoop
  cases e.terms.find? e.unknown <;> rfl

/-- Putting a solved equation into another one keeps that one's unknown. -/
@[simp] theorem unknown_substitute (solved e : Equation) :
    (solved.substitute e).unknown = e.unknown := by
  unfold substitute
  cases e.terms.find? solved.unknown <;> rfl

/-- Equations are solved from the last of the listed unknowns to the first. What
holds of all equations, and goes on holding with each one that is solved and put
into those before it, holds of the first when all others are solved. -/
theorem solve_in_order {P : List StateId → Equation → Prop} {order : List StateId}
    (hstep : ∀ {front id back solved e}, order = front ++ id :: back → solved.unknown = id →
      e.unknown ∈ front → P back solved → P back e → P (id :: back) (solved.solveLoop.substitute e))
    (equations : List Equation) (front back : List StateId) (horder : order = front ++ back)
    (hunknowns : equations.map unknown = front.reverse) (h : ∀ e ∈ equations, P back e)
    {result : Expr} (hresult : solve equations = some result) :
    ∃ back e, order = e.unknown :: back ∧ P back e ∧ e.solveLoop.constant = some result := by
  induction hn : equations.length generalizing equations front back with
  | zero =>
    rw [List.length_eq_zero_iff.mp hn, solve] at hresult
    cases hresult
  | succ n ih =>
    cases equations with
    | nil => cases hn
    | cons solved later =>
      obtain ⟨hsolved, hlater⟩ := List.forall_mem_cons.mp h
      have hfront : front = (later.map unknown).reverse ++ [solved.unknown] := by
        rw [← List.reverse_cons, ← List.map_cons, hunknowns, List.reverse_reverse]
      rw [hfront, List.append_assoc, List.singleton_append] at horder
      cases later with
      | nil =>
        rw [solve] at hresult
        exact ⟨back, solved, horder, hsolved, hresult⟩
      | cons next rest =>
        rw [solve] at hresult
        · refine ih _ _ _ horder ?_ ?_ hresult ?_
          · rw [List.reverse_reverse, List.map_map]
            exact List.map_congr_left fun e _ => unknown_substitute _ e
          · intro g hg
            obtain ⟨old, hold, rfl⟩ := List.mem_map.mp hg
            exact hstep horder rfl
              (List.mem_reverse.mpr (List.mem_map.mpr ⟨old, hold, rfl⟩)) hsolved (hlater old hold)
          · rw [List.length_map]
            simpa using hn
        · exact fun he => by cases he

/-- What solving an equation for its unknown and substituting it keep holds of an
equation whose constant is the solution. -/
theorem exists_of_solve {P : Equation → Prop} (hloop : ∀ e, P e → P e.solveLoop)
    (hput : ∀ solved e, P solved → P e → P (solved.substitute e)) (equations : List Equation)
    (h : ∀ e ∈ equations, P e) {result : Expr} (hresult : solve equations = some result) :
    ∃ e, P e ∧ e.constant = some result := by
  obtain ⟨-, e, -, he, hconstant⟩ := solve_in_order (P := fun _ e => P e)
    (fun _ _ _ hsolved he => hput _ _ (hloop _ hsolved) he) equations
    (equations.map unknown).reverse [] (List.append_nil _).symm (List.reverse_reverse _).symm h
    hresult
  exact ⟨e.solveLoop, hloop e he, hconstant⟩

end Equation

end WordPattern
