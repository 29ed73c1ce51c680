import WordPattern.Pattern.Search
import WordPattern.Proofs.Pattern.Grammar

/-!
# What patterns match

A search lists the places where matches end that begin at a place, preferred one
first. Parts of a pattern give searches: characters a step, parts side by side
one search after the other, options one list behind the other. The places found
are those behind the words of the language that the same parts give. A tree is
searched for as its parts are when letter case counts. Anchors have no language,
because what they match depends on the text around them.
-/

namespace WordPattern.Pattern

open Computability

variable {flags : Flags} {f g : Cursor → List Cursor} {L M : Language Char}

/-- The place behind a word that begins here. -/
def Cursor.skip (here : Cursor) (word : Word) : Cursor :=
  word.foldl (fun place c => ⟨place.offset + c.utf8Size, some c, place.rest.tail⟩) here

@[simp] theorem Cursor.skip_nil (here : Cursor) : here.skip [] = here := rfl

theorem Cursor.skip_append (here : Cursor) (first second : Word) :
    here.skip (first ++ second) = (here.skip first).skip second :=
  List.foldl_append

theorem Cursor.rest_skip (here : Cursor) (word : Word) :
    (here.skip word).rest = here.rest.drop word.length := by
  induction word generalizing here with
  | nil => rfl
  | cons c word ih =>
    have htail := ih ⟨here.offset + c.utf8Size, some c, here.rest.tail⟩
    rw [List.length_cons, ← List.drop_tail]
    exact htail

/-- The places that are found from a place are those behind the words of a
language with which the text goes on. -/
def Denotes (f : Cursor → List Cursor) (L : Language Char) : Prop :=
  ∀ here stop, stop ∈ f here ↔ ∃ word ∈ L, word <+: here.rest ∧ stop = here.skip word

/-- Staying where one is matches the empty word. -/
theorem denotes_here : Denotes (fun here => [here]) 1 := by
  intro here stop
  simp [Language.mem_one]

/-- A text begins with two words one after the other. -/
theorem append_isPrefix_iff {first second text : Word} :
    first ++ second <+: text ↔ first <+: text ∧ second <+: text.drop first.length := by
  constructor
  · intro h
    obtain ⟨after, rfl⟩ := h
    rw [List.append_assoc, List.drop_left]
    exact ⟨List.prefix_append first _, List.prefix_append second _⟩
  · intro h
    obtain ⟨⟨after, rfl⟩, hsecond⟩ := h
    rw [List.drop_left] at hsecond
    exact (List.prefix_append_right_inj first).mpr hsecond

/-- Searching on from every place found matches one word after the other. -/
theorem Denotes.andThen (hf : Denotes f L) (hg : Denotes g M) :
    Denotes (fun here => (f here).flatMap g) (L * M) := by
  intro here stop
  rw [List.mem_flatMap]
  constructor
  · intro h
    obtain ⟨between, hbetween, hstop⟩ := h
    obtain ⟨first, hfirst, hbegins, rfl⟩ := (hf here between).mp hbetween
    obtain ⟨second, hsecond, hbehind, rfl⟩ := (hg _ stop).mp hstop
    rw [Cursor.rest_skip] at hbehind
    refine ⟨first ++ second, Language.append_mem_mul hfirst hsecond, ?_, ?_⟩
    · exact append_isPrefix_iff.mpr ⟨hbegins, hbehind⟩
    · rw [Cursor.skip_append]
  · intro h
    obtain ⟨word, hword, hbegins, rfl⟩ := h
    obtain ⟨first, hfirst, second, hsecond, rfl⟩ := Language.mem_mul.mp hword
    obtain ⟨hbegins, hbehind⟩ := append_isPrefix_iff.mp hbegins
    refine ⟨here.skip first, (hf here _).mpr ⟨first, hfirst, hbegins, rfl⟩, ?_⟩
    exact (hg _ _).mpr ⟨second, hsecond, Cursor.rest_skip here first ▸ hbehind,
      Cursor.skip_append here first second⟩

/-- Listing the places of two searches matches the words of either. -/
theorem Denotes.orElse (hf : Denotes f L) (hg : Denotes g M) :
    Denotes (fun here => f here ++ g here) (L + M) := by
  intro here stop
  rw [List.mem_append, hf here stop, hg here stop]
  simp only [Language.mem_add, or_and_right, exists_or]

/-- A repeated word is empty or begins with a word that is not. -/
theorem mem_kstar_iff {word : Word} :
    word ∈ L∗ ↔ word = [] ∨ ∃ first ∈ L, first ≠ [] ∧ ∃ rest ∈ L∗, word = first ++ rest := by
  constructor
  · intro h
    obtain ⟨parts, rfl, hparts⟩ := Language.mem_kstar_iff_exists_nonempty.mp h
    cases parts with
    | nil => exact Or.inl rfl
    | cons first later =>
      obtain ⟨⟨hfirst, hne⟩, hlater⟩ := List.forall_mem_cons.mp hparts
      refine Or.inr ⟨first, hfirst, hne, later.flatten, ?_, List.flatten_cons⟩
      exact Language.join_mem_kstar fun part hpart => (hlater part hpart).1
  · intro h
    rcases h with rfl | h
    · exact Language.nil_mem_kstar L
    · obtain ⟨first, hfirst, -, rest, hrest, rfl⟩ := h
      rw [← Language.one_add_self_mul_kstar_eq_kstar, Language.mem_add]
      exact Or.inr (Language.append_mem_mul hfirst hrest)

/-- A search that may be repeated once more stays, or goes on behind a word that
is not empty. -/
theorem Denotes.mem_repeatEnds_succ (hf : Denotes f L) {count : Nat} {here stop : Cursor} :
    stop ∈ repeatEnds f (count + 1) here ↔ stop = here ∨ ∃ first ∈ L, first ≠ [] ∧
      first <+: here.rest ∧ stop ∈ repeatEnds f count (here.skip first) := by
  rw [repeatEnds, List.mem_append, List.mem_flatMap, List.mem_singleton, or_comm]
  refine or_congr_right ?_
  constructor
  · intro h
    obtain ⟨next, hnext, hstop⟩ := h
    obtain ⟨hfound, hshorter⟩ := List.mem_filter.mp hnext
    obtain ⟨first, hfirst, hbegins, rfl⟩ := (hf here next).mp hfound
    refine ⟨first, hfirst, ?_, hbegins, hstop⟩
    intro hnil
    rw [hnil, Cursor.skip_nil] at hshorter
    exact Nat.lt_irrefl _ (of_decide_eq_true hshorter)
  · intro h
    obtain ⟨first, hfirst, hne, hbegins, hstop⟩ := h
    have hpos : 0 < first.length := List.length_pos_of_ne_nil hne
    have hle : first.length ≤ here.rest.length := hbegins.length_le
    have hlt : (here.skip first).rest.length < here.rest.length := by
      rw [Cursor.rest_skip, List.length_drop]
      omega
    refine ⟨here.skip first, List.mem_filter.mpr ⟨?_, decide_eq_true hlt⟩, hstop⟩
    exact (hf here _).mpr ⟨first, hfirst, hbegins, rfl⟩

/-- A search that is repeated as often as there may be letters matches any
number of words one after the other. -/
theorem Denotes.mem_repeatEnds (hf : Denotes f L) {count : Nat} {here stop : Cursor}
    (hcount : here.rest.length ≤ count) :
    stop ∈ repeatEnds f count here ↔ ∃ word ∈ L∗, word <+: here.rest ∧ stop = here.skip word := by
  -- A round that is not empty leaves less text, so the count stays large enough.
  induction count generalizing here with
  | zero =>
    have hrest : here.rest = [] := List.length_eq_zero_iff.mp (Nat.le_zero.mp hcount)
    rw [repeatEnds, List.mem_singleton, hrest]
    constructor
    · intro h
      exact ⟨[], Language.nil_mem_kstar L, List.nil_prefix, h⟩
    · intro h
      obtain ⟨word, -, hbegins, hstop⟩ := h
      rwa [List.prefix_nil.mp hbegins] at hstop
  | succ count ih =>
    have hlater : ∀ {first : Word}, first ≠ [] → (here.skip first).rest.length ≤ count := by
      intro first hne
      have hpos : 0 < first.length := List.length_pos_of_ne_nil hne
      rw [Cursor.rest_skip, List.length_drop]
      omega
    rw [hf.mem_repeatEnds_succ]
    constructor
    · intro h
      rcases h with rfl | ⟨first, hfirst, hne, hbegins, hstop⟩
      · exact ⟨[], Language.nil_mem_kstar L, List.nil_prefix, rfl⟩
      · obtain ⟨rest, hrest, hbehind, rfl⟩ := (ih (hlater hne)).mp hstop
        have hword : first ++ rest ∈ L∗ :=
          mem_kstar_iff.mpr (Or.inr ⟨first, hfirst, hne, rest, hrest, rfl⟩)
        refine ⟨first ++ rest, hword, ?_, (Cursor.skip_append here first rest).symm⟩
        exact append_isPrefix_iff.mpr ⟨hbegins, Cursor.rest_skip here first ▸ hbehind⟩
    · intro h
      obtain ⟨word, hword, hbegins, rfl⟩ := h
      rcases mem_kstar_iff.mp hword with rfl | ⟨first, hfirst, hne, rest, hrest, rfl⟩
      · exact Or.inl rfl
      · obtain ⟨hbegins, hbehind⟩ := append_isPrefix_iff.mp hbegins
        refine Or.inr ⟨first, hfirst, hne, hbegins, (ih (hlater hne)).mpr ?_⟩
        exact ⟨rest, hrest, Cursor.rest_skip here first ▸ hbehind,
          Cursor.skip_append here first rest⟩

/-- Repeating a search matches any number of words one after the other. -/
theorem Denotes.repeated (hf : Denotes f L) :
    Denotes (fun here => repeatEnds f here.rest.length here) L∗ :=
  fun _ _ => hf.mem_repeatEnds (Nat.le_refl _)

/-- One step over a character that passes a test matches these characters. -/
theorem denotes_advanceIf {test : Char → Bool} {members : Set Char}
    (h : ∀ c, test c = true ↔ c ∈ members) :
    Denotes (Cursor.advanceIf test) {word | ∃ c ∈ members, word = [c]} := by
  intro here stop
  cases hrest : here.rest with
  | nil =>
    simp only [Cursor.advanceIf, hrest, List.not_mem_nil, false_iff]
    intro hstop
    obtain ⟨word, ⟨c, -, rfl⟩, hbegins, -⟩ := hstop
    exact List.cons_ne_nil _ _ (List.prefix_nil.mp hbegins)
  | cons c rest =>
    have hskip : here.skip [c] = ⟨here.offset + c.utf8Size, some c, rest⟩ := by
      simp [Cursor.skip, hrest]
    simp only [Cursor.advanceIf, hrest, ← hskip]
    constructor
    · intro hstop
      split at hstop
      · rename_i htest
        exact ⟨[c], ⟨c, (h c).mp htest, rfl⟩, ⟨rest, rfl⟩, List.mem_singleton.mp hstop⟩
      · cases hstop
    · intro hstop
      obtain ⟨word, ⟨d, hd, rfl⟩, hbegins, rfl⟩ := hstop
      obtain ⟨rfl, -⟩ := List.cons_prefix_cons.mp hbegins
      rw [if_pos ((h d).mpr hd)]
      exact List.mem_singleton_self _

open Classical in
/-- Parts of a pattern give searches. -/
noncomputable def searches : Interpretation (Cursor → List Cursor) where
  letters members := Cursor.advanceIf fun c => c ∈ members
  nothing := fun here => [here]
  optional f := fun here => f here ++ [here]
  star f := fun here => repeatEnds f here.rest.length here
  append f g := fun here => (f here).flatMap g
  either f g := fun here => f here ++ g here

open Classical in
theorem denotes_letters (members : Set Char) :
    Denotes (searches.letters members) (languages.letters members) :=
  denotes_advanceIf fun _ => decide_eq_true_iff

theorem Denotes.optional (hf : Denotes f L) :
    Denotes (searches.optional f) (languages.optional L) := by
  have hmaybe := hf.orElse denotes_here
  rw [add_comm] at hmaybe
  exact hmaybe

variable {text : List Char}

/-- A text that spells a language spells a search that finds its words. -/
theorem Spells.exists_search {level : Level} (h : Spells languages level text L) :
    ∃ f, Spells searches level text f ∧ Denotes f L := by
  induction h with
  | char h => exact ⟨_, .char h, denotes_letters _⟩
  | charClass h hne => exact ⟨_, .charClass h hne, denotes_letters _⟩
  | group _ ih =>
    obtain ⟨f, hf, hdenotes⟩ := ih
    exact ⟨f, .group hf, hdenotes⟩
  | empty => exact ⟨_, .empty, denotes_here⟩
  | part _ ih =>
    obtain ⟨f, hf, hdenotes⟩ := ih
    exact ⟨f, .part hf, hdenotes⟩
  | optional _ ih =>
    obtain ⟨f, hf, hdenotes⟩ := ih
    exact ⟨_, .optional hf, hdenotes.optional⟩
  | star _ ih =>
    obtain ⟨f, hf, hdenotes⟩ := ih
    exact ⟨_, .star hf, hdenotes.repeated⟩
  | append _ _ ih ihlater =>
    obtain ⟨f, hf, hdenotes⟩ := ih
    obtain ⟨g, hg, hdenotes'⟩ := ihlater
    exact ⟨_, .append hf hg, hdenotes.andThen hdenotes'⟩
  | option _ ih =>
    obtain ⟨f, hf, hdenotes⟩ := ih
    exact ⟨f, .option hf, hdenotes⟩
  | bar _ _ ih ihlater =>
    obtain ⟨f, hf, hdenotes⟩ := ih
    obtain ⟨g, hg, hdenotes'⟩ := ihlater
    exact ⟨_, .bar hf hg, hdenotes.orElse hdenotes'⟩

/-- A character lies in ranges when letter case counts. -/
theorem inRanges_iff (hcase : flags.caseInsensitive = false) {ranges : List (Char × Char)}
    {c : Char} : inRanges flags ranges c = true ↔ Covers ranges c := by
  simp [inRanges, hcase, Covers]

variable {tree : Tree} {items later options : List Tree}

open Classical in
/-- A class is searched for as the characters of its ranges are. -/
theorem ends_oneOf (hcase : flags.caseInsensitive = false) (ranges : List (Char × Char)) :
    ends flags (.oneOf ranges) = searches.letters {c | Covers ranges c} := by
  funext here
  rw [ends]
  refine congrArg (fun test => here.advanceIf test) (funext fun c => ?_)
  exact Bool.eq_iff_iff.mpr ((inRanges_iff hcase).trans decide_eq_true_iff.symm)

/-- A character is searched for as itself. -/
theorem ends_letter (hcase : flags.caseInsensitive = false) (c : Char) :
    ends flags (.letter c) = searches.letters {c} := by
  have hone : {d | Covers [(c, c)] d} = {c} := by
    ext d
    exact covers_single.trans (or_iff_left not_covers_nil)
  have hends := ends_oneOf hcase [(c, c)]
  rw [hone] at hends
  rw [← hends]
  funext here
  rw [ends, ends]

/-- A group is searched for as its body is. -/
theorem ends_group (tree : Tree) : ends flags (.group tree) = ends flags tree := by
  funext here
  rw [ends]

theorem ends_optional (tree : Tree) :
    ends flags (.repeated tree .optional) = searches.optional (ends flags tree) := by
  funext here
  rw [ends]
  rfl

theorem ends_star (tree : Tree) :
    ends flags (.repeated tree .star) = searches.star (ends flags tree) := by
  funext here
  rw [ends]
  rfl

theorem endsOfSequence_nil : endsOfSequence flags [] = searches.nothing := by
  funext here
  rw [endsOfSequence]
  rfl

theorem endsOfSequence_append (items later : List Tree) :
    endsOfSequence flags (items ++ later) =
      searches.append (endsOfSequence flags items) (endsOfSequence flags later) := by
  funext here
  change _ = (endsOfSequence flags items here).flatMap (endsOfSequence flags later)
  induction items generalizing here with
  | nil => simp [endsOfSequence]
  | cons item rest ih =>
    rw [List.cons_append, endsOfSequence, endsOfSequence, List.flatMap_assoc]
    exact List.flatMap_congr fun next _ => ih next

theorem endsOfSequence_singleton (tree : Tree) :
    endsOfSequence flags [tree] = ends flags tree := by
  funext here
  simp [endsOfSequence]

/-- The tree of items is searched for as the items are. -/
theorem ends_ofItems (items : List Tree) :
    ends flags (.ofItems items) = endsOfSequence flags items := by
  unfold Tree.ofItems
  split
  · rw [endsOfSequence_singleton]
  · funext here
    rw [ends]

theorem endsOfChoice_append (options later : List Tree) :
    endsOfChoice flags (options ++ later) =
      searches.either (endsOfChoice flags options) (endsOfChoice flags later) := by
  funext here
  change _ = endsOfChoice flags options here ++ endsOfChoice flags later here
  induction options with
  | nil => rfl
  | cons option rest ih =>
    rw [List.cons_append, endsOfChoice, endsOfChoice, ih, List.append_assoc]

theorem endsOfChoice_singleton (tree : Tree) : endsOfChoice flags [tree] = ends flags tree := by
  funext here
  simp [endsOfChoice]

/-- The tree of options is searched for as the options are. -/
theorem ends_ofOptions (options : List Tree) :
    ends flags (.ofOptions options) = endsOfChoice flags options := by
  unfold Tree.ofOptions
  split
  · rw [endsOfChoice_singleton]
  · funext here
    rw [ends]

/-- A match that begins where a text begins ends where it ends. -/
def Tree.MatchesWhole (flags : Flags) (tree : Tree) (text : Word) : Prop :=
  ∃ stop ∈ ends flags tree (.ofText text), stop.rest = []

/-- The whole texts that a tree matches are the words of its language. -/
theorem Denotes.matchesWhole_iff (h : Denotes (ends flags tree) L) {text : Word} :
    tree.MatchesWhole flags text ↔ text ∈ L := by
  constructor
  · intro hmatch
    obtain ⟨stop, hstop, hend⟩ := hmatch
    obtain ⟨word, hword, hbegins, rfl⟩ := (h _ stop).mp hstop
    rw [Cursor.rest_skip, List.drop_eq_nil_iff] at hend
    have htext : word = text := hbegins.eq_of_length_le hend
    exact htext ▸ hword
  · intro htext
    refine ⟨(Cursor.ofText text).skip text, ?_, ?_⟩
    · exact (h _ _).mpr ⟨text, htext, List.prefix_refl text, rfl⟩
    · rw [Cursor.rest_skip]
      exact List.drop_length

/-- A search finds the words of one language only. -/
theorem Denotes.unique (h : Denotes f L) (h' : Denotes f M) : L = M := by
  have hsub : ∀ {L M : Language Char}, Denotes f L → Denotes f M → ∀ word ∈ L, word ∈ M := by
    intro L M h h' word hword
    have hfound := (h (.ofText word) _).mpr ⟨word, hword, List.prefix_refl word, rfl⟩
    obtain ⟨other, hother, hbegins, hstop⟩ := (h' _ _).mp hfound
    have hrest := congrArg Cursor.rest hstop
    rw [Cursor.rest_skip, Cursor.rest_skip, Cursor.ofText, List.drop_length, eq_comm,
      List.drop_eq_nil_iff] at hrest
    have hsame : other = word := hbegins.eq_of_length_le hrest
    exact hsame ▸ hother
  exact Set.Subset.antisymm (hsub h h') (hsub h' h)

end WordPattern.Pattern
