import WordPattern.Proofs.Expr.Adjacent
import WordPattern.Proofs.Expr.Passage

/-!
# Where literals become adjacent

While equations are solved, text meets text at most where a coefficient that ends
with text is put in front of a way that begins with text. A coefficient that is a
literal is joined to what follows it: when an unknown is eliminated, no way of its
equation exposes text deeper than one level down. Text gets deeper only in a way
all of whose words begin with one letter, and then, because states are listed in
depth-first order, the way is still to be joined with one that begins with another
letter. A coefficient that is not a literal has several words, so its state is a
bottleneck. Hence no two literals are adjacent where a concatenation begins, and
elsewhere only behind a bottleneck. Not every bottleneck makes literals adjacent.
-/

namespace WordPattern

namespace Automaton

variable {order before after : List StateId} {id : StateId}

/-- The states that are listed behind a state. -/
def behind (order : List StateId) (id : StateId) : List StateId :=
  (order.dropWhile (· ≠ id)).tail

theorem behind_append (h : (before ++ id :: after).Nodup) :
    behind (before ++ id :: after) id = after := by
  have hbefore : ∀ other ∈ before, decide (other ≠ id) = true := by
    intro other hother
    exact decide_eq_true ((List.nodup_append.mp h).2.2 other hother id List.mem_cons_self)
  rw [behind, List.dropWhile_append_of_pos hbefore, List.dropWhile_cons_of_neg (by simp),
    List.tail_cons]

/-- Through the states listed behind `k` several words lead from `p` to `k`, all
of them end with one letter, and up to some goal all words go on from `k` with one
letter. -/
structure Bottleneck (a : Automaton) (order : List StateId) (p k : StateId) : Prop where
  /-- The state is listed behind the other one. -/
  listed : k ∈ behind order p
  /-- Several words lead there. -/
  several : ∃ u ∈ a.passages (behind order k) p (some k),
    ∃ v ∈ a.passages (behind order k) p (some k), u ≠ v
  /-- They end with one letter. -/
  ends : ∃ letter, EndsWith letter (a.passages (behind order k) p (some k))
  /-- Words go on with one letter. -/
  begins : ∃ goal letter, (∃ word, word ∈ a.passages (k :: behind order k) k goal) ∧
    BeginsWith letter (a.passages (k :: behind order k) k goal)

end Automaton

namespace Equation

open Automaton

variable {a : Automaton} {order front back : List StateId} {e solved : Equation}
  {goal : Option StateId} {x y c : Expr} {kind : Expr → Prop} {id : StateId}

/-- Solving an equation for its unknown puts no text behind an expression of the
kind, since a loop exposes none. -/
theorem parted_solveLoop (hkind : Expr.Textual kind)
    (h : ∀ goal x, e.upTo? goal = some x → Expr.Parted kind x) :
    ∀ goal x, e.solveLoop.upTo? goal = some x → Expr.Parted kind x := by
  refine forall_upTo?_solveLoop h fun {goal loop x} hloop hx _ => ?_
  refine ((h _ loop hloop).repetition .star).append hkind (h goal x hx) fun _ hends => ?_
  exact absurd (Expr.literalAt?_repetition .finish loop .star) (hkind.endsInText hends)

/-- Putting an equation into another one puts no text behind an expression of the
kind, unless a coefficient of the kind comes before text that cannot be joined to
it. -/
theorem parted_substitute (hkind : Expr.Textual kind) (hsolved : solved.Normal) (he : e.Normal)
    (hs : ∀ goal x, solved.upTo? goal = some x → Expr.Parted kind x)
    (h : ∀ goal x, e.upTo? goal = some x → Expr.Parted kind x)
    (hseam : ∀ {goal c y}, e.upTo? (some solved.unknown) = some c → solved.upTo? goal = some y →
      y.Solid → kind c → y.literalAt? .start = none ∨ c.IsLiteral ∧ y.Shallow) :
    ∀ goal x, (solved.substitute e).upTo? goal = some x → Expr.Parted kind x := by
  refine forall_upTo?_substitute h (fun {goal c y} hc hy => ?_)
    fun {goal c x y} hc hx hy hne hpx hpy => ?_
  · exact (h _ c hc).append hkind (hs goal y hy) fun hne hends =>
      hseam hc hy ((hsolved.normal goal y hy).1.solid hne) hends
  · exact hpx.union hkind (he.normal goal x hx).1
      ((he.solid hc).append (hsolved.normal goal y hy).1).normal
      (he.deterministic.apart_append hc hx hne y) hpy

/-- Text at the start of a way is one level down, or another passage to the goal
begins with a letter with which no word of the way begins. -/
def Opening (a : Automaton) (order : List StateId) (p : StateId) (goal : Option StateId)
    (x : Expr) : Prop :=
  x.Shallow ∨ ∃ letter rest, a.Passes (behind order p) p (letter :: rest) goal ∧
    ∀ word ∈ x.language, word.head? ≠ some letter

/-- What holds of an equation of the states in a depth-first order when the states
at the end of the order have been eliminated. -/
structure Laid (a : Automaton) (order back : List StateId) (e : Equation) : Prop where
  /-- The ways are in normal form. -/
  normal : e.Normal
  /-- The ways are the passages through the eliminated states. -/
  describes : e.Describes a back
  /-- Text at the start of a way is found, or the way is not complete. -/
  opening : ∀ goal x, e.upTo? goal = some x → Opening a order e.unknown goal x
  /-- No text follows a literal. -/
  headed : ∀ goal x, e.upTo? goal = some x → Expr.Parted Expr.IsLiteral x
  /-- Without a bottleneck, no text follows an expression that ends with text. -/
  flat : (∀ p k, ¬a.Bottleneck order p k) → ∀ goal x, e.upTo? goal = some x →
    Expr.Parted Expr.EndsInText x

/-- At the beginning, nothing has been put together. -/
theorem laid_ofState (a : Automaton) (order : List StateId) (p : StateId) :
    (ofState p (a.stateAt p)).Laid a order [] := by
  have hshape : ∀ goal x, (ofState p (a.stateAt p)).upTo? goal = some x →
      x.Shallow ∧ ∀ kind, Expr.Parted kind x := by
    intro goal x hx
    cases goal with
    | none =>
      rw [upTo?_none_ofState hx]
      exact ⟨Or.inr (Or.inl ⟨[], rfl⟩), fun kind => Expr.parted_literal kind []⟩
    | some goal => exact ⟨(letters_ofState hx).shallow, (letters_ofState hx).parted⟩
  exact ⟨normal_ofState p _, describes_ofState a p, fun goal x hx => Or.inl (hshape goal x hx).1,
    fun goal x hx => (hshape goal x hx).2 _, fun _ goal x hx => (hshape goal x hx).2 _⟩

/-- When all states behind a state have been eliminated, its equation has all
passages, and so text at the start of a way is one level down. -/
theorem Laid.shallow (h : e.Laid a order back) (hback : behind order e.unknown = back)
    (hx : e.upTo? goal = some x) : x.Shallow := by
  rcases h.opening goal x hx with hshallow | ⟨letter, rest, hpasses, hother⟩
  · exact hshallow
  · rw [hback, ← mem_passages, ← h.describes.language_eq hx] at hpasses
    exact absurd rfl (hother _ hpasses)

/-- Solving the equation keeps text at the start of its ways one level down. -/
theorem Laid.shallow_solveLoop (h : e.Laid a order back) (hback : behind order e.unknown = back) :
    ∀ goal x, e.solveLoop.upTo? goal = some x → x.Shallow := by
  refine forall_upTo?_solveLoop (fun goal x hx => h.shallow hback hx)
    fun {goal loop x} hloop _ _ => ?_
  exact Expr.shallow_append (.repetition (h.normal.solid hloop) .star)
    (Or.inr (Expr.literalAt?_repetition .start loop .star)) x

section Elimination

variable (hclosed : a.Closed) (hok : a.preorder = .ok (front ++ solved.unknown :: back))
  (hs : solved.Laid a (front ++ solved.unknown :: back) back)
  (he : e.Laid a (front ++ solved.unknown :: back) back) (hfront : e.unknown ∈ front)

include hclosed hok

theorem nodup_order : (front ++ solved.unknown :: back).Nodup := by
  obtain ⟨order, hok', hnodup, -⟩ := hclosed.preorder_spec
  exact Except.ok.inj (hok.symm.trans hok') ▸ hnodup

theorem notMem_back : solved.unknown ∉ back :=
  (List.nodup_cons.mp (List.nodup_append.mp (nodup_order hclosed hok)).2.1).1

include hs he hfront

/-- If a way to the solved unknown has a word of several letters, then for every way
on from there another passage begins with another letter. -/
theorem exists_passage (hc : e.upTo? (some solved.unknown) = some c)
    (hy : solved.solveLoop.upTo? goal = some y) {letter : Char} {rest : Word}
    (hword : letter :: rest ∈ c.language) (hrest : rest ≠ []) :
    ∃ other more, other ≠ letter ∧
      a.Passes (behind (front ++ solved.unknown :: back) e.unknown) e.unknown (other :: more)
        goal := by
  have hdescribes := hs.describes.solveLoop (notMem_back hclosed hok)
  obtain ⟨v, hv⟩ := (hs.normal.solveLoop.normal goal y hy).1.proper.exists_mem
  rw [hdescribes.language_eq hy, unknown_solveLoop, mem_passages] at hv
  rw [he.describes.language_eq hc, mem_passages] at hword
  have hnodup := nodup_order hclosed hok
  obtain ⟨before, between, hsplit⟩ := List.append_of_mem hfront
  rw [hsplit, List.append_assoc, List.cons_append] at hok hnodup ⊢
  obtain ⟨other, more, hne, hother⟩ := hclosed.passes_detour hok hword hrest
  rw [behind_append hnodup]
  exact ⟨other, more ++ v, hne, (hother.append (List.mem_append_right _ List.mem_cons_self)
    (hv.mono (List.subset_append_right _ _)))⟩

/-- A way all of whose words begin with the first letter of a longer word of the
coefficient leaves out another passage. -/
theorem opening_of_long (hc : e.upTo? (some solved.unknown) = some c)
    (hy : solved.solveLoop.upTo? goal = some y) {letter : Char} {rest : Word}
    (hword : letter :: rest ∈ c.language) (hrest : rest ≠ [])
    (hbegins : BeginsWith letter x.language) :
    Opening a (front ++ solved.unknown :: back) e.unknown goal x := by
  obtain ⟨other, more, hne, hpasses⟩ := exists_passage hclosed hok hs he hfront hc hy hword hrest
  refine Or.inr ⟨other, more, hpasses, fun word hmem hhead => ?_⟩
  exact hne (Option.some.inj (hhead.symm.trans (hbegins word hmem)))

/-- Text gets deeper behind a concatenation only, which has longer words. -/
theorem opening_append (hc : e.upTo? (some solved.unknown) = some c)
    (hy : solved.solveLoop.upTo? goal = some y) :
    Opening a (front ++ solved.unknown :: back) e.unknown goal (c.append y) := by
  have hsolid := he.normal.solid hc
  cases htext : c.literalAt? .start with
  | none => exact Or.inl (Expr.shallow_append hsolid (Or.inr htext) y)
  | some text =>
    obtain ⟨letter, hbegins⟩ := hsolid.begins htext
    cases c with
    | literal own => exact Or.inl (Expr.shallow_append hsolid (Or.inl ⟨own, rfl⟩) y)
    | concat p q =>
      obtain ⟨first, rest, hword, hrest⟩ := hsolid.exists_long
      obtain rfl := Option.some.inj (hbegins _ hword)
      refine opening_of_long hclosed hok hs he hfront hc hy hword hrest fun word hmem => ?_
      rw [Expr.language_append, Language.mem_mul] at hmem
      obtain ⟨u, hu, v, -, rfl⟩ := hmem
      rw [List.head?_append, hbegins u hu]
      rfl
    | charClass => simp at htext
    | alternation => simp at htext
    | repetition => simp at htext

/-- Text gets deeper in a union only if both sides begin with one letter, and then
the coefficient has a longer word. -/
theorem opening_union (hc : e.upTo? (some solved.unknown) = some c)
    (hx : e.upTo? goal = some x) (hy : solved.solveLoop.upTo? goal = some y)
    (hne : goal ≠ some solved.unknown) :
    Opening a (front ++ solved.unknown :: back) e.unknown goal (x.union (c.append y)) := by
  have hnx := (he.normal.normal goal x hx).1
  have hny := (hs.normal.solveLoop.normal goal y hy).1
  have hsolid := he.normal.solid hc
  rcases Expr.shallow_union hnx (hsolid.append hny).normal
    (he.normal.deterministic.apart_append hc hx hne y) with hshallow | ⟨letter, hbegins⟩
  · exact Or.inl hshallow
  · obtain ⟨u, hu⟩ := hsolid.proper.exists_mem
    obtain ⟨v, hv⟩ := hny.proper.exists_mem
    obtain ⟨w, hw⟩ := hnx.proper.exists_mem
    have hleft := hbegins w (Expr.language_union x _ ▸ Or.inl hw)
    have hright := hbegins (u ++ v) (Expr.language_union x _ ▸ Or.inr
      (Expr.language_append c y ▸ Language.append_mem_mul hu hv))
    cases u with
    | nil => exact absurd hu (he.normal.deterministic.exit hc).nonempty
    | cons first rest =>
      obtain rfl := Option.some.inj hright
      refine opening_of_long hclosed hok hs he hfront hc hy hu ?_ hbegins
      -- A single letter would begin a word up to another goal.
      rintro rfl
      obtain ⟨tail, rfl⟩ := List.head?_eq_some_iff.mp hleft
      exact he.normal.deterministic.neverBegins hc hx hne _ hu _ hw ⟨tail, rfl⟩

/-- Text that is put behind a literal is one level down, and text that is put
behind anything else that ends with text comes behind a bottleneck. -/
theorem seam_substitute (hc : e.upTo? (some solved.unknown) = some c)
    (hy : solved.solveLoop.upTo? goal = some y) (hsolid : y.Solid) (hends : c.EndsInText) :
    (y.literalAt? .start = none ∨ c.IsLiteral ∧ y.Shallow) ∨
      a.Bottleneck (front ++ solved.unknown :: back) e.unknown solved.unknown := by
  have hnodup := nodup_order hclosed hok
  have hbehind := behind_append hnodup
  by_cases hliteral : c.IsLiteral
  · exact Or.inl (Or.inr ⟨hliteral, hs.shallow_solveLoop hbehind goal y hy⟩)
  cases hstart : y.literalAt? .start with
  | none => exact Or.inl (Or.inl rfl)
  | some text =>
    obtain ⟨finish, hfinish⟩ := Option.ne_none_iff_exists'.mp hends
    have hto := he.describes.language_eq hc
    have hfrom := (hs.describes.solveLoop (notMem_back hclosed hok)).language_eq hy
    rw [unknown_solveLoop] at hfrom
    refine Or.inr ⟨?_, ?_, ?_, ?_⟩
    · obtain ⟨before, between, hsplit⟩ := List.append_of_mem hfront
      rw [hsplit, List.append_assoc, List.cons_append] at hnodup ⊢
      rw [behind_append hnodup]
      exact List.mem_append_right _ List.mem_cons_self
    · rw [hbehind, ← hto]
      exact (he.normal.solid hc).several (he.normal.deterministic.unambiguous hc)
        (he.headed _ c hc) hliteral
    · rw [hbehind, ← hto]
      exact (he.normal.solid hc).ends hfinish
    · rw [hbehind]
      obtain ⟨letter, hbegins⟩ := hsolid.begins hstart
      exact ⟨goal, letter, hfrom ▸ hsolid.proper.exists_mem, hfrom ▸ hbegins⟩

/-- Putting the solved equation into another one keeps what holds of it. -/
theorem Laid.step : (solved.solveLoop.substitute e).Laid a (front ++ solved.unknown :: back)
    (solved.unknown :: back) where
  normal := hs.normal.solveLoop.substitute he.normal
  describes := by
    have hfresh := notMem_back hclosed hok
    have hdescribes := hs.describes.solveLoop hfresh
    rw [← unknown_solveLoop] at hfresh hdescribes ⊢
    exact hdescribes.substitute he.describes hfresh
  opening := by
    rw [unknown_substitute]
    refine forall_upTo?_substitute he.opening (fun hc hy => ?_) fun hc hx hy hne _ _ => ?_
    · rw [unknown_solveLoop] at hc
      exact opening_append hclosed hok hs he hfront hc hy
    · rw [unknown_solveLoop] at hc hne
      exact opening_union hclosed hok hs he hfront hc hx hy hne
  headed := by
    refine parted_substitute Expr.textual_isLiteral hs.normal.solveLoop he.normal
      (parted_solveLoop Expr.textual_isLiteral hs.headed) he.headed
      fun {goal c y} _ hy _ hliteral => Or.inr ⟨hliteral, ?_⟩
    exact hs.shallow_solveLoop (behind_append (nodup_order hclosed hok)) goal y hy
  flat := by
    intro hnone
    refine parted_substitute Expr.textual_endsInText hs.normal.solveLoop he.normal
      (parted_solveLoop Expr.textual_endsInText (hs.flat hnone)) (he.flat hnone)
      fun {goal c y} hc hy hsolid hends => ?_
    rw [unknown_solveLoop] at hc
    exact (seam_substitute hclosed hok hs he hfront hc hy hsolid hends).resolve_right (hnone _ _)

end Elimination

end Equation

namespace Automaton

variable {a : Automaton}

/-- In the expression of a closed automaton, no text follows a literal, and if no
state is a bottleneck, none follows an expression that ends with text. -/
theorem Closed.expression_parted (h : a.Closed) {order : List StateId}
    (hok : a.preorder = .ok order) {e : Expr} (he : a.expression = .ok (some e)) :
    Expr.Parted Expr.IsLiteral e ∧
      ((∀ p k, ¬a.Bottleneck order p k) → Expr.Parted Expr.EndsInText e) := by
  obtain ⟨order', hok', -, hsolve⟩ := h.expression_eq
  obtain rfl := Except.ok.inj (hok.symm.trans hok')
  rw [he, Except.ok.injEq] at hsolve
  have hall : ∀ equation ∈ order.reverse.map fun id => Equation.ofState id (a.stateAt id),
      equation.Laid a order [] := by
    intro equation hequation
    obtain ⟨id, -, rfl⟩ := List.mem_map.mp hequation
    exact Equation.laid_ofState a order id
  have hunknowns : (order.reverse.map fun id => Equation.ofState id (a.stateAt id)).map
      Equation.unknown = order.reverse := by
    rw [List.map_map]
    exact List.map_id _
  obtain ⟨back, equation, -, hlaid, hconstant⟩ := Equation.solve_in_order
    (P := fun back e => e.Laid a order back)
    (fun {front id back solved e} hsplit hid hfront hsolved hlater => by
      subst hid
      subst hsplit
      exact hsolved.step h hok hlater hfront)
    _ order [] (List.append_nil order).symm hunknowns hall hsolve.symm
  have hparted : ∀ {kind}, Expr.Textual kind →
      (∀ goal x, equation.upTo? goal = some x → Expr.Parted kind x) → Expr.Parted kind e :=
    fun hkind h => Equation.parted_solveLoop hkind h none e hconstant
  exact ⟨hparted Expr.textual_isLiteral hlaid.headed,
    fun hnone => hparted Expr.textual_endsInText (hlaid.flat hnone)⟩

/-- Where two literals are adjacent among the factors of a part of the expression
of a closed automaton, another factor comes before them, and some state is a
bottleneck. -/
theorem Closed.bottleneck_of_adjacent (h : a.Closed) {order : List StateId}
    (hok : a.preorder = .ok order) {e x : Expr} (he : a.expression = .ok (some e))
    (hpart : Expr.Part x e) {before after : List Expr} {s t : Word}
    (hfactors : x.factors = before ++ .literal s :: .literal t :: after) :
    before ≠ [] ∧ ∃ p k, a.Bottleneck order p k := by
  obtain ⟨hheaded, hflat⟩ := h.expression_parted hok he
  constructor
  · rintro rfl
    exact (hheaded.part hpart).factors_ne s t after hfactors
  · by_contra hnone
    have hparted := (hflat fun p k hbottleneck => hnone ⟨p, k, hbottleneck⟩).part hpart
    have hchain := hparted.isChain_factors
    rw [hfactors] at hchain
    exact (List.isChain_cons_cons.mp hchain.right_of_append).1 ⟨⟨s, rfl⟩, t, rfl⟩

end Automaton

end WordPattern
