import Mathlib.Data.List.Infix
import WordPattern.Proofs.Expr.Unambiguous

/-!
# Languages none of whose words begins another

If no word of a language begins another word of it, a text has at most one
beginning in the language, so what follows such a beginning can be cut off in
one way only. Sums, products and repetitions keep such languages, as far as the
words on both sides exclude one another. Nothing is claimed of languages that
match a word and a longer one, such as the words an automaton accepts.
-/

namespace WordPattern

open Computability

variable {L M N : Language Char}

/-- No word of the first language begins a word of the second. -/
def NeverBegins (L M : Language Char) : Prop := ∀ u ∈ L, ∀ v ∈ M, ¬u <+: v

/-- No word of either language begins a word of the other. -/
def Incomparable (L M : Language Char) : Prop := NeverBegins L M ∧ NeverBegins M L

/-- No word of a language begins another one. -/
def PrefixFree (L : Language Char) : Prop := ∀ u ∈ L, ∀ v ∈ L, u <+: v → u = v

theorem Incomparable.symm (h : Incomparable L M) : Incomparable M L := ⟨h.2, h.1⟩

theorem NeverBegins.apart (h : NeverBegins L M) : Apart L M :=
  fun word hL hM => h word hL word hM (List.prefix_refl word)

/-- A text that does not begin another one does not begin it as a language. -/
theorem neverBegins_literal {s t : Word} (h : ¬s <+: t) :
    NeverBegins (Expr.literal s).language (Expr.literal t).language := by
  intro u hu v hv
  rwa [Expr.mem_literal.mp hu, Expr.mem_literal.mp hv]

/-- A text is the only word of its language. -/
theorem prefixFree_literal (text : Word) : PrefixFree (Expr.literal text).language := by
  intro u hu v hv _
  rw [Expr.mem_literal.mp hu, Expr.mem_literal.mp hv]

theorem neverBegins_add_left : NeverBegins (L + M) N ↔ NeverBegins L N ∧ NeverBegins M N := by
  simp only [NeverBegins, Language.mem_add, or_imp, forall_and]

theorem neverBegins_add_right : NeverBegins N (L + M) ↔ NeverBegins N L ∧ NeverBegins N M := by
  simp only [NeverBegins, Language.mem_add, or_imp, forall_and]

theorem Incomparable.add_right (h : Incomparable N L) (h' : Incomparable N M) :
    Incomparable N (L + M) :=
  ⟨neverBegins_add_right.mpr ⟨h.1, h'.1⟩, neverBegins_add_left.mpr ⟨h.2, h'.2⟩⟩

theorem PrefixFree.add (hL : PrefixFree L) (hM : PrefixFree M) (h : Incomparable L M) :
    PrefixFree (L + M) := by
  intro u hu v hv hbegins
  rcases (Language.mem_add _ _ _).mp hu with hu | hu <;>
    rcases (Language.mem_add _ _ _).mp hv with hv | hv
  · exact hL u hu v hv hbegins
  · exact absurd hbegins (h.1 u hu v hv)
  · exact absurd hbegins (h.2 u hu v hv)
  · exact hM u hu v hv hbegins

/-- No two words of a prefix-free language begin the same text. -/
theorem PrefixFree.eq_of_prefix (h : PrefixFree L) {u u' text : Word} (hu : u ∈ L) (hu' : u' ∈ L)
    (hbegins : u <+: text) (hbegins' : u' <+: text) : u = u' := by
  rcases List.prefix_or_prefix_of_prefix hbegins hbegins' with hle | hle
  · exact h u hu u' hu' hle
  · exact (h u' hu' u hu hle).symm

theorem PrefixFree.eq_of_append_eq (h : PrefixFree L) {u u' v v' : Word} (hu : u ∈ L)
    (hu' : u' ∈ L) (hword : u ++ v = u' ++ v') : u = u' :=
  h.eq_of_prefix hu hu' ⟨v, hword⟩ (List.prefix_append u' v')

/-- What follows a word of a prefix-free language is cut off in one way only. -/
theorem PrefixFree.splits (h : PrefixFree L) (M : Language Char) : Splits L M :=
  fun _ _ _ _ hu hu' _ _ hword => h.eq_of_append_eq hu hu' hword

/-- A product begins with what its first factor begins with. -/
theorem NeverBegins.mul_left (h : NeverBegins L N) (M : Language Char) :
    NeverBegins (L * M) N := by
  intro word hword v hv hbegins
  obtain ⟨u, hu, w, -, rfl⟩ := Language.mem_mul.mp hword
  exact h u hu v hv ((List.prefix_append u w).trans hbegins)

/-- A word that neither begins nor goes on with one of a first factor does not
begin the product. -/
theorem Incomparable.neverBegins_mul (h : Incomparable N L) (M : Language Char) :
    NeverBegins N (L * M) := by
  intro v hv word hword hbegins
  obtain ⟨u, hu, w, -, rfl⟩ := Language.mem_mul.mp hword
  rcases List.prefix_or_prefix_of_prefix hbegins (List.prefix_append u w) with hle | hle
  · exact h.1 v hv u hu hle
  · exact h.2 u hu v hv hle

theorem Incomparable.mul_right (h : Incomparable N L) (M : Language Char) :
    Incomparable N (L * M) :=
  ⟨h.neverBegins_mul M, h.2.mul_left M⟩

/-- Behind words of a prefix-free language, it is the second factors that begin
one another. -/
theorem PrefixFree.prefix_of_append_prefix (h : PrefixFree L) {u u' v v' : Word} (hu : u ∈ L)
    (hu' : u' ∈ L) (hbegins : u ++ v <+: u' ++ v') : u = u' ∧ v <+: v' := by
  obtain ⟨w, hw⟩ := hbegins
  rw [List.append_assoc] at hw
  obtain rfl := h.eq_of_append_eq hu hu' hw
  exact ⟨rfl, w, List.append_cancel_left hw⟩

theorem PrefixFree.neverBegins_mul (h : PrefixFree L) (hMN : NeverBegins M N) :
    NeverBegins (L * M) (L * N) := by
  intro word hword word' hword' hbegins
  obtain ⟨u, hu, v, hv, rfl⟩ := Language.mem_mul.mp hword
  obtain ⟨u', hu', v', hv', rfl⟩ := Language.mem_mul.mp hword'
  exact hMN v hv v' hv' (h.prefix_of_append_prefix hu hu' hbegins).2

theorem PrefixFree.incomparable_mul (h : PrefixFree L) (hMN : Incomparable M N) :
    Incomparable (L * M) (L * N) :=
  ⟨h.neverBegins_mul hMN.1, h.neverBegins_mul hMN.2⟩

theorem PrefixFree.mul (hL : PrefixFree L) (hM : PrefixFree M) : PrefixFree (L * M) := by
  intro word hword word' hword' hbegins
  obtain ⟨u, hu, v, hv, rfl⟩ := Language.mem_mul.mp hword
  obtain ⟨u', hu', v', hv', rfl⟩ := Language.mem_mul.mp hword'
  obtain ⟨rfl, hle⟩ := hL.prefix_of_append_prefix hu hu' hbegins
  rw [hM v hv v' hv' hle]

/-- Rounds of a prefix-free language are cut off in one way only, if what
follows them does not begin with another round. -/
theorem PrefixFree.kstar_eq_of_append_eq (h : PrefixFree L) {u u' v v' : Word} (hu : u ∈ L∗)
    (hu' : u' ∈ L∗) (hv : ∀ w ∈ L, ¬w <+: v) (hv' : ∀ w ∈ L, ¬w <+: v')
    (hword : u ++ v = u' ++ v') : u = u' := by
  obtain ⟨parts, rfl, hparts⟩ := Language.mem_kstar.mp hu
  obtain ⟨parts', rfl, hparts'⟩ := Language.mem_kstar.mp hu'
  clear hu hu'
  induction parts generalizing parts' with
  | nil =>
    cases parts' with
    | nil => rfl
    | cons first rest =>
      have hbegins : first <+: v := by
        rw [List.flatten_cons, List.append_assoc] at hword
        exact ⟨_, hword.symm⟩
      exact absurd hbegins (hv first (hparts' first List.mem_cons_self))
  | cons first rest ih =>
    obtain ⟨hfirst, hrest⟩ := List.forall_mem_cons.mp hparts
    rw [List.flatten_cons, List.append_assoc] at hword
    cases parts' with
    | nil => exact absurd ⟨_, hword⟩ (hv' first hfirst)
    | cons first' rest' =>
      obtain ⟨hfirst', hrest'⟩ := List.forall_mem_cons.mp hparts'
      rw [List.flatten_cons, List.append_assoc] at hword
      obtain rfl := h.eq_of_append_eq hfirst hfirst' hword
      rw [List.flatten_cons, List.flatten_cons,
        ih hrest rest' hrest' (List.append_cancel_left hword)]

/-- What follows rounds is cut off in one way only, if no round begins it. -/
theorem PrefixFree.kstar_splits (h : PrefixFree L) (hM : NeverBegins L M) : Splits L∗ M :=
  fun _ _ _ _ hu hu' hv hv' hword => h.kstar_eq_of_append_eq hu hu' (fun w hw => hM w hw _ hv)
    (fun w hw => hM w hw _ hv') hword

/-- Behind rounds, it is what follows them that begins one another. -/
theorem PrefixFree.kstar_prefix_of_append_prefix (h : PrefixFree L) (hM : Incomparable L M)
    (hN : NeverBegins L N) {u u' v v' : Word} (hu : u ∈ L∗) (hu' : u' ∈ L∗) (hv : v ∈ M)
    (hv' : v' ∈ N) (hbegins : u ++ v <+: u' ++ v') : u = u' ∧ v <+: v' := by
  obtain ⟨w, hw⟩ := hbegins
  rw [List.append_assoc] at hw
  have hlonger : ∀ first ∈ L, ¬first <+: v ++ w := by
    intro first hfirst hle
    rcases List.prefix_or_prefix_of_prefix hle (List.prefix_append v w) with hle | hle
    · exact hM.1 first hfirst v hv hle
    · exact hM.2 v hv first hfirst hle
  obtain rfl := h.kstar_eq_of_append_eq hu hu' hlonger (fun first hfirst => hN first hfirst v' hv')
    hw
  exact ⟨rfl, w, List.append_cancel_left hw⟩

theorem PrefixFree.kstar_neverBegins (h : PrefixFree L) (hM : Incomparable L M)
    (hN : NeverBegins L N) (hMN : NeverBegins M N) : NeverBegins (L∗ * M) (L∗ * N) := by
  intro word hword word' hword' hbegins
  obtain ⟨u, hu, v, hv, rfl⟩ := Language.mem_mul.mp hword
  obtain ⟨u', hu', v', hv', rfl⟩ := Language.mem_mul.mp hword'
  exact hMN v hv v' hv' (h.kstar_prefix_of_append_prefix hM hN hu hu' hv hv' hbegins).2

theorem PrefixFree.kstar_mul (h : PrefixFree L) (hM : Incomparable L M) (hfree : PrefixFree M) :
    PrefixFree (L∗ * M) := by
  intro word hword word' hword' hbegins
  obtain ⟨u, hu, v, hv, rfl⟩ := Language.mem_mul.mp hword
  obtain ⟨u', hu', v', hv', rfl⟩ := Language.mem_mul.mp hword'
  obtain ⟨rfl, hle⟩ := h.kstar_prefix_of_append_prefix hM hM.1 hu hu' hv hv' hbegins
  rw [hfree v hv v' hv' hle]

end WordPattern
