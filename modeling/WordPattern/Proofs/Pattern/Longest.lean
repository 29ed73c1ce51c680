import WordPattern.Proofs.Expr.Steady
import WordPattern.Proofs.Pattern.Rendering

/-!
# Searches that find longer matches first

A search prefers the first match of its list, so it finds the longest one if the
list goes from longer to shorter matches. Steady expressions are searched for in
this way, provided that no option of an alternation begins a word of a later
option with one of its own. Whether the options of an expression stand in such
an order is not described here; they are sorted by an estimate of their length,
and the estimate does not ensure it.
-/

namespace WordPattern

namespace Expr

variable {a b : Expr} {options : List Expr}

/-- In no alternation does a word of an option begin a word of a later one. -/
def LongestFirst (e : Expr) : Prop :=
  ∀ ⦃options⦄, Part (.alternation options) e →
    options.Pairwise fun x y => NeverBegins x.language y.language

theorem longestFirst_literal (text : Word) : (literal text).LongestFirst :=
  fun _ h => by cases h

theorem longestFirst_concat :
    (concat a b).LongestFirst ↔ a.LongestFirst ∧ b.LongestFirst := by
  constructor
  · intro h
    exact ⟨fun _ hpart => h (.first hpart), fun _ hpart => h (.second hpart)⟩
  · intro h options hpart
    cases hpart with
    | first hpart => exact h.1 hpart
    | second hpart => exact h.2 hpart

theorem longestFirst_alternation :
    (alternation options).LongestFirst ↔
      (options.Pairwise fun x y => NeverBegins x.language y.language) ∧
        ∀ e ∈ options, e.LongestFirst := by
  constructor
  · intro h
    exact ⟨h .whole, fun e he _ hpart => h (.option he hpart)⟩
  · intro h options hpart
    cases hpart with
    | whole => exact h.1
    | option hmem hpart => exact h.2 _ hmem hpart

/-- Texts stand in order if none begins a later one. -/
theorem longestFirst_texts {texts : List Word} (h : texts.Pairwise fun s t => ¬s <+: t) :
    (alternation (texts.map literal)).LongestFirst := by
  refine longestFirst_alternation.mpr ⟨?_, fun e he => ?_⟩
  · exact List.pairwise_map.mpr (h.imp fun hst => neverBegins_literal hst)
  · obtain ⟨text, -, rfl⟩ := List.mem_map.mp he
    exact longestFirst_literal text

theorem longestFirst_repetition {quantifier : Quantifier} :
    (repetition a quantifier).LongestFirst ↔ a.LongestFirst := by
  constructor
  · exact fun h _ hpart => h (.body hpart)
  · intro h options hpart
    cases hpart with
    | body hpart => exact h hpart

end Expr

namespace Pattern

open Computability

variable {f g : Cursor → List Cursor} {L M : Language Char} {here : Cursor}

/-- A search finds longer matches before shorter ones, and none twice. -/
def Descending (f : Cursor → List Cursor) : Prop :=
  ∀ here, (f here).Pairwise fun stop later => stop.rest.length < later.rest.length

/-- Less text is left behind a longer word. -/
theorem Cursor.rest_skip_lt {u v : Word} (hu : u <+: here.rest) (hv : v <+: here.rest) :
    (here.skip u).rest.length < (here.skip v).rest.length ↔ v.length < u.length := by
  have hule := hu.length_le
  have hvle := hv.length_le
  rw [Cursor.rest_skip, Cursor.rest_skip, List.length_drop, List.length_drop]
  omega

theorem descending_nothing : Descending searches.nothing :=
  fun here => List.pairwise_singleton _ here

/-- A step over a character ends in one place at most. -/
theorem descending_letters (members : Set Char) : Descending (searches.letters members) := by
  intro here
  change (Cursor.advanceIf _ here).Pairwise _
  unfold Cursor.advanceIf
  split
  · exact .nil
  · split
    · exact List.pairwise_singleton _ _
    · exact .nil

/-- One search after the other finds longer matches first, if longer beginnings
lead to longer matches. -/
theorem Descending.append (hf : Descending f) (hg : Descending g) (hL : Denotes f L)
    (hM : Denotes g M) (h : KeepsAhead L M) : Descending (searches.append f g) := by
  intro here
  refine List.pairwise_flatMap.mpr ⟨fun next _ => hg next, (hf here).imp_of_mem ?_⟩
  intro next next' hnext hnext' hlt stop hstop stop' hstop'
  obtain ⟨u, hu, hbegins, rfl⟩ := (hL here next).mp hnext
  obtain ⟨u', hu', hbegins', rfl⟩ := (hL here next').mp hnext'
  obtain ⟨v, hv, hbehind, rfl⟩ := (hM _ stop).mp hstop
  obtain ⟨v', hv', hbehind', rfl⟩ := (hM _ stop').mp hstop'
  rw [Cursor.rest_skip] at hbehind hbehind'
  have hall := append_isPrefix_iff.mpr ⟨hbegins, hbehind⟩
  have hall' := append_isPrefix_iff.mpr ⟨hbegins', hbehind'⟩
  rw [Cursor.rest_skip_lt hbegins hbegins'] at hlt
  rw [← Cursor.skip_append, ← Cursor.skip_append, Cursor.rest_skip_lt hall hall']
  exact h hu hu' hv hv' hall hall' hlt

/-- Of two searches, the one whose words begin none of the other comes first. -/
theorem Descending.either (hf : Descending f) (hg : Descending g) (hL : Denotes f L)
    (hM : Denotes g M) (h : NeverBegins L M) : Descending (searches.either f g) := by
  intro here
  refine List.pairwise_append.mpr ⟨hf here, hg here, fun stop hstop stop' hstop' => ?_⟩
  obtain ⟨u, hu, hbegins, rfl⟩ := (hL here stop).mp hstop
  obtain ⟨v, hv, hbegins', rfl⟩ := (hM here stop').mp hstop'
  rw [Cursor.rest_skip_lt hbegins hbegins']
  have hle : v <+: u :=
    (List.prefix_or_prefix_of_prefix hbegins hbegins').resolve_left (h u hu v hv)
  refine Nat.lt_of_le_of_ne hle.length_le fun hlen => h u hu v hv ?_
  rw [hle.eq_of_length hlen]

/-- A body that is not empty is found before nothing is. -/
theorem Descending.optional (hf : Descending f) (hL : Denotes f L) (hnil : [] ∉ L) :
    Descending (searches.optional f) := by
  refine hf.either descending_nothing hL denotes_here fun u hu v hv hbegins => ?_
  rw [(Language.mem_one v).mp hv, List.prefix_nil] at hbegins
  exact hnil (hbegins ▸ hu)

/-- A repeated search does not go back. -/
theorem Denotes.length_le_of_mem_repeatEnds (hL : Denotes f L) {count : Nat} {stop : Cursor}
    (h : stop ∈ repeatEnds f count here) : stop.rest.length ≤ here.rest.length := by
  induction count generalizing here with
  | zero =>
    rw [repeatEnds, List.mem_singleton] at h
    rw [h]
  | succ count ih =>
    rcases hL.mem_repeatEnds_succ.mp h with rfl | ⟨first, -, -, -, hlater⟩
    · exact Nat.le_refl _
    · refine (ih hlater).trans ?_
      rw [Cursor.rest_skip, List.length_drop]
      exact Nat.sub_le _ _

/-- More rounds are found before fewer, if rounds do not begin one another. -/
theorem Descending.star (hf : Descending f) (hL : Denotes f L) (hfree : PrefixFree L) :
    Descending (searches.star f) := by
  have hcount : ∀ count here, (repeatEnds f count here).Pairwise
      fun stop later => stop.rest.length < later.rest.length := by
    intro count
    induction count with
    | zero => exact fun here => List.pairwise_singleton _ here
    | succ count ih =>
      intro here
      rw [repeatEnds]
      refine List.pairwise_append.mpr ⟨?_, List.pairwise_singleton _ _, ?_⟩
      · -- Only one place is found behind a round, so no two rows start differently.
        refine List.pairwise_flatMap.mpr ⟨fun next _ => ih next, ?_⟩
        refine ((hf here).filter _).imp_of_mem fun {next next'} hnext hnext' hlt => ?_
        obtain ⟨u, hu, hbegins, rfl⟩ := (hL here next).mp (List.mem_filter.mp hnext).1
        obtain ⟨u', hu', hbegins', rfl⟩ := (hL here next').mp (List.mem_filter.mp hnext').1
        rw [hfree.eq_of_prefix hu hu' hbegins hbegins'] at hlt
        exact absurd hlt (Nat.lt_irrefl _)
      · intro stop hstop last hlast
        obtain ⟨next, hnext, hstop⟩ := List.mem_flatMap.mp hstop
        have hshorter := of_decide_eq_true (List.mem_filter.mp hnext).2
        rw [List.mem_singleton.mp hlast]
        exact (hL.length_le_of_mem_repeatEnds hstop).trans_lt hshorter
  exact fun here => hcount here.rest.length here

variable {e : Expr}

/-- One character of a set begins no other one. -/
theorem prefixFree_letters (members : Set Char) : PrefixFree (languages.letters members) := by
  intro u hu v hv hbegins
  obtain ⟨c, -, rfl⟩ := hu
  obtain ⟨d, -, rfl⟩ := hv
  exact hbegins.eq_of_length rfl

theorem descending_text (text : Word) : Descending (meaningOfText searches text) := by
  induction text with
  | nil => exact descending_nothing
  | cons c text ih =>
    cases text with
    | nil => exact descending_letters {c}
    | cons d text =>
      have hlater := denotes_meaning (.literal (d :: text))
      rw [meaning] at hlater
      exact (descending_letters {c}).append ih (denotes_letters {c}) hlater
        ((prefixFree_letters {c}).keepsAhead _)

theorem descending_options {options : List Expr} (hproper : ∀ e ∈ options, e.Proper)
    (h : ∀ e ∈ options, Descending (meaning searches e))
    (horder : options.Pairwise fun x y => NeverBegins x.language y.language) :
    Descending (meaningOfOptions searches options) := by
  induction options with
  | nil => exact descending_nothing
  | cons e rest ih =>
    obtain ⟨he, hrest⟩ := List.forall_mem_cons.mp h
    obtain ⟨hpe, hprest⟩ := List.forall_mem_cons.mp hproper
    obtain ⟨hfirst, hlater⟩ := List.pairwise_cons.mp horder
    cases rest with
    | nil => exact he
    | cons f rest =>
      have hdenotes := denotes_meaning (.alternation (List.cons_ne_nil f rest) hprest)
      rw [meaning] at hdenotes
      refine he.either (ih hprest hrest hlater) (denotes_meaning hpe) hdenotes ?_
      intro u hu v hv
      obtain ⟨option, hoption, hv⟩ := Expr.mem_alternation.mp hv
      exact hfirst option hoption u hu v hv

/-- A steady expression whose options stand in order is searched for from longer
matches to shorter ones. -/
theorem descending_meaning (hproper : e.Proper) (hunambiguous : e.Unambiguous)
    (hsteady : e.Steady) (horder : e.LongestFirst) : Descending (meaning searches e) := by
  induction hproper with
  | literal text =>
    rw [meaning]
    exact descending_text text
  | charClass =>
    rw [meaning]
    exact descending_letters _
  | concat ha hb iha ihb =>
    obtain ⟨hoa, hob⟩ := Expr.longestFirst_concat.mp horder
    cases hunambiguous with
    | concat hua hub _ =>
      cases hsteady with
      | concat hsa hsb hcut =>
        rw [meaning]
        exact (iha hua hsa hoa).append (ihb hub hsb hob) (denotes_meaning ha) (denotes_meaning hb)
          hcut.keepsAhead
  | alternation _ hall ih =>
    obtain ⟨hsorted, hoall⟩ := Expr.longestFirst_alternation.mp horder
    cases hunambiguous with
    | alternation huall _ =>
      cases hsteady with
      | alternation hsall =>
        rw [meaning]
        exact descending_options hall
          (fun e he => ih e he (huall e he) (hsall e he) (hoall e he)) hsorted
  | repetition hbody _ ih =>
    have hobody := Expr.longestFirst_repetition.mp horder
    cases hunambiguous with
    | optional hu hnil =>
      cases hsteady with
      | optional hs =>
        rw [meaning]
        exact (ih hu hs hobody).optional (denotes_meaning hbody) hnil
    | star hu _ _ =>
      cases hsteady with
      | star hs hfree =>
        rw [meaning]
        exact (ih hu hs hobody).star (denotes_meaning hbody) hfree

/-- The number of bytes before a place counts those of the words passed. -/
theorem Cursor.offset_skip (here : Cursor) (word : Word) :
    (here.skip word).offset = here.offset + (String.ofList word).utf8ByteSize := by
  induction word generalizing here with
  | nil => simp
  | cons c word ih =>
    have hlater := ih ⟨here.offset + c.utf8Size, some c, here.rest.tail⟩
    rw [String.ofList_cons, String.utf8ByteSize_append, String.utf8ByteSize_singleton,
      ← Nat.add_assoc]
    exact hlater

variable {flags : Flags} {tree : Tree}

/-- A search that finds something where the text begins looks no further. -/
theorem findFrom_eq {offset : Nat} {previous : Option Char} {text : List Char} {stop : Cursor}
    {later : List Cursor} (h : ends flags tree ⟨offset, previous, text⟩ = stop :: later) :
    findFrom flags tree offset previous text = some (offset, stop.offset) := by
  cases text with
  | nil =>
    rw [findFrom, h]
    rfl
  | cons c rest => rw [findFrom, h]

/-- In a word of the language, a search finds a word of the language where the
text begins, and the longest one if it finds longer ones first. -/
theorem Denotes.find?_eq (h : Denotes (ends flags tree) L) (source : List Char) {text : Word}
    (htext : text ∈ L) :
    ∃ found ∈ L, found <+: text ∧ (Descending (ends flags tree) → found = text) ∧
      Matcher.find? ⟨source, flags, tree⟩ text =
        some (0, (String.ofList found).utf8ByteSize) := by
  let whole := (Cursor.ofText text).skip text
  have hwhole : whole ∈ ends flags tree (.ofText text) :=
    (h _ _).mpr ⟨text, htext, List.prefix_refl text, rfl⟩
  cases hends : ends flags tree (.ofText text) with
  | nil =>
    rw [hends] at hwhole
    cases hwhole
  | cons stop later =>
    obtain ⟨found, hfound, hbegins, rfl⟩ := (h _ stop).mp (hends ▸ List.mem_cons_self)
    refine ⟨found, hfound, hbegins, fun hdescending => ?_, ?_⟩
    · have hsorted := hdescending (.ofText text)
      rw [hends] at hsorted hwhole
      refine hbegins.eq_of_length_le ?_
      rcases List.mem_cons.mp hwhole with hsame | hlater
      · have hrest := congrArg Cursor.rest hsame
        rw [Cursor.rest_skip, Cursor.rest_skip, Cursor.ofText, List.drop_length, eq_comm,
          List.drop_eq_nil_iff] at hrest
        exact hrest
      · have hlt := (List.pairwise_cons.mp hsorted).1 _ hlater
        exact ((Cursor.rest_skip_lt hbegins (List.prefix_refl text)).mp hlt).le
    · rw [Matcher.find?, findFrom_eq hends, Cursor.offset_skip]
      simp [Cursor.ofText]

end Pattern

end WordPattern
