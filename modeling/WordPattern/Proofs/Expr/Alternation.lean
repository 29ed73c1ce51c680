import Mathlib.Data.List.Pairwise
import WordPattern.Proofs.Distinct
import WordPattern.Proofs.Expr.Language

/-!
# Alternations as they are built

The options of an alternation that is built from parts are those that were met in the
parts. They are arranged: longer ones come first, and options of one length stand in
the order in which they were first met; one option alone stands for itself. There is
only one such arrangement, and arranging some of the options beforehand does not
change it, as long as no option is an alternation. So it does not matter how a row of
parts is grouped, and building an alternation of two equal parts changes nothing.
Alternations that were not built, with repeats or in another order, are arranged when
they become a part, but they need not be equal to what is built from them.
-/

namespace WordPattern.Expr

variable {a b c e : Expr} {x y : Expr} {met options before after : List Expr}

/-- An option stands before another one: it is longer, or as long and first met
earlier. -/
def StandsBefore (met : List Expr) (x y : Expr) : Prop :=
  y.length < x.length ∨ y.length = x.length ∧ met.idxOf x < met.idxOf y

/-- The options that were met, each once, in the order in which they stand. -/
structure Ordered (met options : List Expr) : Prop where
  /-- The options are those that were met. -/
  mem_iff : ∀ x, x ∈ options ↔ x ∈ met
  /-- Each option stands before those that follow. -/
  standing : options.Pairwise (StandsBefore met)

/-- An expression that offers the options that were met. -/
inductive Arranged (met : List Expr) : Expr → Prop where
  /-- One option alone stands for itself. -/
  | only {e : Expr} (h : ∀ x, x ∈ met ↔ x = e) : Arranged met e
  /-- Several options, or none, make an alternation. -/
  | several {options : List Expr} (hlength : options.length ≠ 1) (h : Ordered met options) :
    Arranged met (alternation options)

/-- None of the expressions is an alternation. -/
def Unnested (xs : List Expr) : Prop := ∀ x ∈ xs, ∀ inner, x ≠ alternation inner

/-- No option is an alternation. What options are made of does not matter. -/
def Flat (e : Expr) : Prop := Unnested e.options

theorem StandsBefore.length_le (h : StandsBefore met x y) : y.length ≤ x.length :=
  h.elim Nat.le_of_lt fun hsame => Nat.le_of_eq hsame.1

theorem StandsBefore.asymm (h : StandsBefore met x y) : ¬StandsBefore met y x := by
  unfold StandsBefore at *
  omega

theorem Ordered.nodup (h : Ordered met options) : options.Nodup :=
  h.standing.imp fun hxy he => (he ▸ hxy).asymm (he ▸ hxy)

/-- There is only one order in which options stand. -/
theorem Ordered.unique {others : List Expr} (h : Ordered met options) (h' : Ordered met others) :
    options = others := by
  have hperm : options.Perm others := (List.perm_ext_iff_of_nodup h.nodup h'.nodup).mpr fun x =>
    (h.mem_iff x).trans (h'.mem_iff x).symm
  exact hperm.eq_of_pairwise (fun x y _ _ hxy hyx => absurd hyx hxy.asymm) h.standing h'.standing

/-- There is only one expression that offers the options that were met. -/
theorem Arranged.unique (h : Arranged met a) (h' : Arranged met b) : a = b := by
  -- options that are all the same one, each once, are one
  have hsingle : ∀ {e options}, (∀ x, x ∈ met ↔ x = e) → Ordered met options →
      options.length = 1 := by
    intro e options honly hordered
    have hmem : ∀ x, x ∈ options ↔ x ∈ [e] := fun x => by
      rw [hordered.mem_iff, honly, List.mem_singleton]
    have hperm := (List.perm_ext_iff_of_nodup hordered.nodup (List.nodup_singleton e)).mpr hmem
    exact hperm.length_eq
  cases h with
  | only hall =>
    cases h' with
    | only hall' => exact (hall' a).mp ((hall a).mpr rfl)
    | several hlength hordered => exact absurd (hsingle hall hordered) hlength
  | several hlength hordered =>
    cases h' with
    | only hall' => exact absurd (hsingle hall' hordered) hlength
    | several _ hordered' => exact congrArg alternation (hordered.unique hordered')

/-- Sorting keeps the order of elements that it need not put in order. -/
theorem filter_mergeSort {α : Type} {le : α → α → Bool} (kind : α → Bool) (xs : List α)
    (htrans : ∀ x y z, le x y = true → le y z = true → le x z = true)
    (htotal : ∀ x y, (le x y || le y x) = true)
    (hkind : ∀ x y, kind x = true → kind y = true → le x y = true) :
    (xs.mergeSort le).filter kind = xs.filter kind := by
  have hordered : (xs.filter kind).Pairwise fun x y => le x y = true :=
    List.pairwise_of_forall_mem_list fun x hx y hy =>
      hkind x y (List.mem_filter.mp hx).2 (List.mem_filter.mp hy).2
  have hsub := List.sublist_mergeSort htrans htotal hordered List.filter_sublist
  have hkept := hsub.filter kind
  simp only [List.filter_filter, Bool.and_self] at hkept
  have hlength := ((List.mergeSort_perm xs le).filter kind).length_eq
  exact (hkept.eq_of_length hlength.symm).symm

/-- The options that are met, without repeats and sorted by length, are in the order
in which they stand. -/
theorem ordered_mergeSort (met : List Expr) :
    Ordered met (met.eraseDups.mergeSort fun x y => y.length ≤ x.length) := by
  have htrans : ∀ x y z : Expr, decide (y.length ≤ x.length) = true →
      decide (z.length ≤ y.length) = true → decide (z.length ≤ x.length) = true := by
    intro x y z hxy hyz
    rw [decide_eq_true_eq] at *
    exact hyz.trans hxy
  have htotal : ∀ x y : Expr,
      (decide (y.length ≤ x.length) || decide (x.length ≤ y.length)) = true := by
    intro x y
    have hle := Nat.le_total y.length x.length
    simpa using hle
  refine ⟨fun x => by rw [List.mem_mergeSort, List.mem_eraseDups], ?_⟩
  rw [List.pairwise_iff_forall_sublist]
  intro x y hxy
  have hle := List.pairwise_iff_forall_sublist.mp
    (List.pairwise_mergeSort htrans htotal met.eraseDups) hxy
  rcases Nat.lt_or_eq_of_le (of_decide_eq_true hle) with hlt | heq
  · exact Or.inl hlt
  · -- options of one length have kept the order in which they were first met
    have hstable := filter_mergeSort (fun z => z.length = x.length) met.eraseDups htrans htotal
      fun y z hy hz => by
        rw [decide_eq_true_eq] at *
        exact (hz.trans hy.symm).le
    have hpair := hxy.filter fun z => z.length = x.length
    rw [hstable] at hpair
    have hmet : [x, y].Sublist met.eraseDups := by
      simpa [heq] using hpair.trans List.filter_sublist
    exact Or.inr ⟨heq, List.pairwise_iff_forall_sublist.mp (pairwise_idxOf_eraseDups met) hmet⟩

/-- What is built of two parts offers the options of both. -/
theorem arranged_either (a b : Expr) : Arranged (a.options ++ b.options) (either a b) := by
  unfold either
  split
  · rename_i only honly
    refine .only fun x => ?_
    rw [← List.mem_eraseDups, honly, List.mem_singleton]
  · rename_i hseveral
    refine .several ?_ (ordered_mergeSort _)
    rw [List.length_mergeSort]
    intro hone
    obtain ⟨only, honly⟩ := List.length_eq_one_iff.mp hone
    exact hseveral only honly

/-- Where options in order stand within a row of options, those that were met for them
may stand. -/
theorem Ordered.standsBefore (h : Ordered met options)
    (hxy : StandsBefore (before ++ options ++ after) x y) :
    StandsBefore (before ++ met ++ after) x y := by
  rcases hxy with hlonger | ⟨hlength, hfirst⟩
  · exact Or.inl hlonger
  · refine Or.inr ⟨hlength, ?_⟩
    have hmet : x ∈ options → y ∈ options → options.idxOf x < options.idxOf y →
        met.idxOf x < met.idxOf y := by
      intro hx hy hidx
      have hstands := List.pairwise_iff_getElem.mp h.standing _ _
        (List.idxOf_lt_length_of_mem hx) (List.idxOf_lt_length_of_mem hy) hidx
      rw [List.getElem_idxOf, List.getElem_idxOf] at hstands
      rcases hstands with hlonger | ⟨-, hearlier⟩
      · exact absurd hlength (Nat.ne_of_lt hlonger)
      · exact hearlier
    have hx := h.mem_iff x
    have hy := h.mem_iff y
    have hbound : ∀ (zs : List Expr), ∀ z ∈ zs, zs.idxOf z < zs.length := fun _ _ =>
      List.idxOf_lt_length_of_mem
    -- both rows begin and end alike, so only two options of the part need more than bounds
    simp only [List.idxOf_append, List.mem_append, List.length_append] at hfirst ⊢
    grind

/-- What offers some options offers those that have the same order. -/
theorem Arranged.congr {others : List Expr} (h : Arranged met e)
    (hmem : ∀ x, x ∈ met ↔ x ∈ others)
    (hstands : ∀ x ∈ met, ∀ y ∈ met, StandsBefore met x y → StandsBefore others x y) :
    Arranged others e := by
  cases h with
  | only hall => exact .only fun x => (hmem x).symm.trans (hall x)
  | several hlength hordered =>
    refine .several hlength ⟨fun x => (hordered.mem_iff x).trans (hmem x), ?_⟩
    refine hordered.standing.imp_of_mem fun {x y} hx hy => ?_
    exact hstands x ((hordered.mem_iff x).mp hx) y ((hordered.mem_iff y).mp hy)

/-- If no alternation was met, the options are those that were met, in order. -/
theorem Arranged.ordered_options (h : Arranged met e) (hmet : Unnested met) :
    Ordered met e.options := by
  cases h with
  | only hall =>
    rcases options_cases e with ⟨inner, he⟩ | hself
    · exact absurd he (hmet e ((hall e).mpr rfl) inner)
    · rw [hself]
      exact ⟨fun x => List.mem_singleton.trans (hall x).symm, List.pairwise_singleton _ e⟩
  | several _ hordered => exact hordered

/-- Among the options that are met, those of a part may be replaced by the ones that
were met for the part. -/
theorem Arranged.regroup (h : Arranged (before ++ a.options ++ after) e) (hpart : Arranged met a)
    (hmet : Unnested met) : Arranged (before ++ met ++ after) e := by
  have hordered := hpart.ordered_options hmet
  refine h.congr (fun x => ?_) fun x _ y _ => hordered.standsBefore
  simp only [List.mem_append, hordered.mem_iff]

/-- Options of flat expressions are no alternations. -/
theorem Flat.append (ha : a.Flat) (hb : b.Flat) : Unnested (a.options ++ b.options) :=
  List.forall_mem_append.mpr ⟨ha, hb⟩

/-- What is built of flat expressions is flat. -/
theorem Flat.either (ha : a.Flat) (hb : b.Flat) : (either a b).Flat := by
  intro x hx
  have hordered := (arranged_either a b).ordered_options (ha.append hb)
  exact ha.append hb x ((hordered.mem_iff x).mp hx)

/-- What offers options that are no alternations stays the same when it is built of
itself twice. -/
theorem Arranged.either_self (h : Arranged met e) (hmet : Unnested met) : either e e = e := by
  -- first the second copy is replaced by what was met for it, then the first one
  have hsecond : Arranged (e.options ++ met ++ []) (either e e) :=
    .regroup (by simpa using arranged_either e e) h hmet
  have hboth : Arranged ([] ++ met ++ met) (either e e) :=
    .regroup (by simpa using hsecond) h hmet
  have honce : Arranged met (either e e) := by
    refine hboth.congr (fun x => by simp) fun x hx y hy hxy => ?_
    rw [List.nil_append, List.mem_append, or_self] at hx hy
    rwa [StandsBefore, List.nil_append, List.idxOf_append_of_mem hx,
      List.idxOf_append_of_mem hy] at hxy
  exact honce.unique h

/-- How three parts are grouped does not matter to the alternation that is built of
them, if none of their options is an alternation: it offers the options of all three,
each once, longer ones first and those of one length in the order in which they were
first met. What is built of such parts is such a part, and building an alternation of
it twice changes nothing, nor does it change an expression that is no alternation. -/
theorem either_assoc (ha : a.Flat) (hb : b.Flat) (hc : c.Flat) :
    either (either a b) c = either a (either b c) ∧
      Arranged (a.options ++ b.options ++ c.options) (either a (either b c)) ∧
      (either a b).Flat ∧ either (either a b) (either a b) = either a b ∧
      ∀ e, (∀ options, e ≠ alternation options) → either e e = e := by
  have hleft : Arranged ([] ++ (a.options ++ b.options) ++ c.options) (either (either a b) c) :=
    (arranged_either (either a b) c).regroup (arranged_either a b) (ha.append hb)
  have hright : Arranged (a.options ++ (b.options ++ c.options) ++ []) (either a (either b c)) :=
    .regroup (by simpa using arranged_either a (either b c)) (arranged_either b c) (hb.append hc)
  rw [List.nil_append] at hleft
  rw [List.append_nil, ← List.append_assoc] at hright
  refine ⟨hleft.unique hright, hright, ha.either hb, ?_, ?_⟩
  · exact (arranged_either a b).either_self (ha.append hb)
  · intro e he
    have hsingle : Arranged [e] e := .only fun x => List.mem_singleton
    exact hsingle.either_self (List.forall_mem_singleton.mpr he)

/-- Options that are not in order, one of which comes twice. -/
def shortFirst : Expr := alternation [literal ['c'], literal ['a', 'b'], literal ['c']]

/-- An option that stands for itself. -/
def aloneLong : Expr := literal ['d', 'e', 'f']

/-- Options of one length, one of which is met elsewhere too. -/
def metBefore : Expr := alternation [literal ['z'], literal ['c']]

theorem either_assoc_metBefore :
    (shortFirst.Flat ∧ aloneLong.Flat ∧ metBefore.Flat) ∧
      either (either shortFirst aloneLong) metBefore =
        either shortFirst (either aloneLong metBefore) ∧
      Arranged (shortFirst.options ++ aloneLong.options ++ metBefore.options)
        (either shortFirst (either aloneLong metBefore)) ∧
      (either shortFirst aloneLong).Flat ∧
      either (either shortFirst aloneLong) (either shortFirst aloneLong) =
        either shortFirst aloneLong ∧
      ∀ e, (∀ options, e ≠ alternation options) → either e e = e := by
  have hfirst : shortFirst.Flat := by simp [Flat, Unnested, shortFirst, Expr.options]
  have hsecond : aloneLong.Flat := by simp [Flat, Unnested, aloneLong, Expr.options]
  have hthird : metBefore.Flat := by simp [Flat, Unnested, metBefore, Expr.options]
  exact ⟨⟨hfirst, hsecond, hthird⟩, either_assoc hfirst hsecond hthird⟩

end WordPattern.Expr
