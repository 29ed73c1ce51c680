import WordPattern.Pattern.Tree
import WordPattern.Proofs.Pattern.CharClass
import WordPattern.Proofs.Pattern.Meaning

/-!
# Reading patterns

A text that spells a search is read as a tree that is searched for so. An atom
is read as one item, a row as items one after the other, and options as what
stands in a group, and each of these is read alike wherever it stands. So a text
spells at most one language. Matching is that of readers for whom letter case
counts. Which texts are refused is not described here.
-/

namespace WordPattern.Pattern

open Computability

variable {flags mode : Flags} {text later : List Char} {L M : Language Char}

/-- Text that is read as a row of tokens, whatever follows it. -/
def Reads (text : List Char) (ts : List Token) : Prop :=
  ∃ gs, Yields text gs ∧ ∀ rest, tokens .outside (gs ++ rest) = (tokens .outside rest).map (ts ++ ·)

variable {ts ts' : List Token}

theorem reads_nil : Reads [] [] :=
  ⟨[], yields_nil, fun rest => by simp⟩

theorem Reads.append (h : Reads text ts) (hlater : Reads later ts') :
    Reads (text ++ later) (ts ++ ts') := by
  obtain ⟨gs, hyields, htokens⟩ := h
  obtain ⟨gs', hyields', htokens'⟩ := hlater
  refine ⟨gs ++ gs', hyields.append hyields', fun rest => ?_⟩
  rw [List.append_assoc, htokens, htokens', Option.map_map]
  simp [Function.comp_def]

/-- Text that is read as tokens when something follows is so when nothing
does. -/
theorem Reads.tokenize (h : Reads (shown flags text) ts) : tokenize flags text = some ts := by
  obtain ⟨gs, hyields, htokens⟩ := h
  have hglyphs := hyields []
  have hall := htokens []
  rw [List.append_nil, glyphs.eq_1, Option.map_some, List.append_nil] at hglyphs
  rw [List.append_nil, tokens.eq_1, Option.map_some, List.append_nil] at hall
  unfold shown at hglyphs
  simp [Pattern.tokenize, hglyphs, hall]

/-- A plain character that stands for a token is read as that token. -/
theorem reads_sign {sign : Char} {token : Token} (hback : sign ≠ '\\') (hgroup : sign ≠ '(')
    (hclass : sign ≠ '[') (htoken : tokenOf? sign = some token) : Reads [sign] [token] := by
  refine ⟨[.plain sign], yields_plain hback, fun rest => ?_⟩
  rw [List.singleton_append, tokens.eq_5 sign rest, htoken]
  · rfl
  · exact fun _ _ h => hgroup h
  · exact hgroup
  · exact hclass

theorem reads_bar : Reads ['|'] [.bar] :=
  reads_sign (by decide) (by decide) (by decide) rfl

theorem reads_groupEnd : Reads [')'] [.groupEnd] :=
  reads_sign (by decide) (by decide) (by decide) rfl

theorem reads_groupStart : Reads ['(', '?', ':'] [.groupStart] := by
  have hopen : Yields ['('] [.plain '('] := yields_plain (by decide)
  have hquestion : Yields ['?'] [.plain '?'] := yields_plain (by decide)
  have hcolon : Yields [':'] [.plain ':'] := yields_plain (by decide)
  exact ⟨[.plain '(', .plain '?', .plain ':'], hopen.append (hquestion.append hcolon),
    fun rest => tokens.eq_2 rest⟩

/-- A written character is read as a letter. -/
theorem Written.reads {c : Char} (h : Written text c) : Reads text [.letter c] := by
  obtain ⟨glyph, hyields, hglyph⟩ := h.yields
  refine ⟨[glyph], hyields, fun rest => ?_⟩
  rw [List.singleton_append]
  cases hglyph with
  | escaped => exact tokens.eq_6 c rest
  | plain hplain =>
    have hgroup : c ≠ '(' := fun h => hplain (h ▸ by decide)
    have hclass : c ≠ '[' := fun h => hplain (h ▸ by decide)
    have htoken : tokenOf? c = some (.letter c) := by
      unfold tokenOf?
      split <;> first | rfl | exact absurd (by decide) hplain
    rw [tokens.eq_5 c rest, htoken]
    · rfl
    · exact fun _ _ h => hgroup h
    · exact hgroup
    · exact hclass

variable {f g : Cursor → List Cursor}

/-- A text is read as one item, which a mark can repeat, and what the item finds
is found by a search. -/
def ReadsAsItem (mode : Flags) (text : List Char) (f : Cursor → List Cursor) : Prop :=
  ∃ ts tree, Reads text ts ∧ ends mode tree = f ∧
    (∀ body quantifier, tree ≠ .repeated body quantifier) ∧
    ∀ frame outer rest, readTokens (ts ++ rest) frame outer =
      readTokens rest (frame.push tree) outer

/-- A text is read as a row of items, and what they find one after the other is
found by a search. -/
def ReadsAsRow (mode : Flags) (text : List Char) (f : Cursor → List Cursor) : Prop :=
  ∃ ts items, Reads text ts ∧ endsOfSequence mode items = f ∧
    ∀ frame outer rest, readTokens (ts ++ rest) frame outer =
      readTokens rest { frame with items := items.reverse ++ frame.items } outer

/-- A text is read as options where an option begins, and what they find is
found by a search. -/
def ReadsAsBody (mode : Flags) (text : List Char) (f : Cursor → List Cursor) : Prop :=
  ∃ ts options items, Reads text ts ∧ endsOfChoice mode (options ++ [.ofItems items]) = f ∧
    ∀ before outer rest, readTokens (ts ++ rest) ⟨before, []⟩ outer =
      readTokens rest ⟨options.reverse ++ before, items.reverse⟩ outer

/-- A written character is an item. -/
theorem readsAsItem_char (hcase : mode.caseInsensitive = false) {c : Char}
    (h : Written text c) : ReadsAsItem mode text (searches.letters {c}) :=
  ⟨[.letter c], .letter c, h.reads, ends_letter hcase c, fun _ _ h => (by cases h),
    fun _ _ _ => rfl⟩

/-- A class with members is an item. -/
theorem readsAsItem_charClass (hcase : mode.caseInsensitive = false)
    {ranges : List (Char × Char)} (h : Listed text ranges) (hne : ranges ≠ []) :
    ReadsAsItem mode ('[' :: text ++ [']']) (searches.letters {c | Covers ranges c}) :=
  ⟨[.oneOf ranges], .oneOf ranges, h.yields_class hne, ends_oneOf hcase ranges,
    fun _ _ h => (by cases h), fun _ _ _ => rfl⟩

/-- An item is a row. -/
theorem ReadsAsItem.row (h : ReadsAsItem mode text f) : ReadsAsRow mode text f := by
  obtain ⟨ts, tree, hreads, hends, -, hread⟩ := h
  exact ⟨ts, [tree], hreads, (endsOfSequence_singleton tree).trans hends, hread⟩

/-- A row is a body with one option. -/
theorem ReadsAsRow.body (h : ReadsAsRow mode text f) : ReadsAsBody mode text f := by
  obtain ⟨ts, items, hreads, hends, hread⟩ := h
  refine ⟨ts, [], items, hreads, ?_, fun before outer rest => ?_⟩
  · rw [List.nil_append, endsOfChoice_singleton, ends_ofItems, hends]
  · rw [hread]
    simp

/-- Nothing written is a row of no items. -/
theorem readsAsRow_nil : ReadsAsRow mode [] searches.nothing :=
  ⟨[], [], reads_nil, endsOfSequence_nil, fun _ _ _ => rfl⟩

/-- Two rows one after the other are a row. -/
theorem ReadsAsRow.append (h : ReadsAsRow mode text f) (hlater : ReadsAsRow mode later g) :
    ReadsAsRow mode (text ++ later) (searches.append f g) := by
  obtain ⟨ts, items, hreads, rfl, hread⟩ := h
  obtain ⟨ts', items', hreads', rfl, hread'⟩ := hlater
  refine ⟨ts ++ ts', items ++ items', hreads.append hreads', endsOfSequence_append _ _, ?_⟩
  intro frame outer rest
  rw [List.append_assoc, hread, hread', List.reverse_append, List.append_assoc]

/-- An item with a mark behind it is a row. -/
theorem ReadsAsItem.marked (h : ReadsAsItem mode text f) {sign : Char} {quantifier : Quantifier}
    (htoken : Reads [sign] [.mark quantifier])
    (hmark : ∀ tree, ends mode tree = f → ends mode (.repeated tree quantifier) = g) :
    ReadsAsRow mode (text ++ [sign]) g := by
  obtain ⟨ts, tree, hreads, hends, hsingle, hread⟩ := h
  refine ⟨ts ++ [.mark quantifier], [.repeated tree quantifier], hreads.append htoken,
    (endsOfSequence_singleton _).trans (hmark tree hends), ?_⟩
  intro frame outer rest
  have hrepeat : (frame.push tree).repeatLast? quantifier =
      some (frame.push (.repeated tree quantifier)) := by
    unfold Frame.repeatLast? Frame.push
    split
    · rename_i hnone
      cases hnone
    · rename_i body other _ hrepeated
      cases hrepeated
      exact absurd rfl (hsingle body other)
    · rename_i hsome
      cases hsome
      rfl
  rw [List.append_assoc, hread, List.singleton_append, readTokens, hrepeat]
  rfl

/-- A body, a bar and a body are a body. -/
theorem ReadsAsBody.bar (h : ReadsAsBody mode text f) (hlater : ReadsAsBody mode later g) :
    ReadsAsBody mode (text ++ '|' :: later) (searches.either f g) := by
  obtain ⟨ts, options, items, hreads, rfl, hread⟩ := h
  obtain ⟨ts', options', items', hreads', rfl, hread'⟩ := hlater
  have hbar : Reads ('|' :: later) ([.bar] ++ ts') := reads_bar.append hreads'
  refine ⟨ts ++ ([.bar] ++ ts'), options ++ [.ofItems items] ++ options', items',
    hreads.append hbar, ?_, ?_⟩
  · rw [List.append_assoc, endsOfChoice_append]
  · intro before outer rest
    rw [List.append_assoc, hread, List.append_assoc, List.singleton_append, readTokens,
      Frame.nextOption, hread']
    simp

/-- A body in a group is an item. -/
theorem ReadsAsBody.group (h : ReadsAsBody mode text f) :
    ReadsAsItem mode (['(', '?', ':'] ++ text ++ [')']) f := by
  obtain ⟨ts, options, items, hreads, hends, hread⟩ := h
  refine ⟨[.groupStart] ++ ts ++ [.groupEnd],
    .group (Tree.ofOptions (options ++ [.ofItems items])),
    (reads_groupStart.append hreads).append reads_groupEnd,
    (ends_group _).trans ((ends_ofOptions _).trans hends), fun _ _ h => (by cases h), ?_⟩
  intro frame outer rest
  rw [List.append_assoc, List.append_assoc, List.singleton_append, readTokens, hread,
    List.singleton_append, readTokens, Frame.close, Frame.nextOption]
  simp

/-- A body that is a whole pattern is read as a tree. -/
theorem ReadsAsBody.read? (h : ReadsAsBody mode (shown flags text) f) :
    ∃ tree, Pattern.read? flags text = some tree ∧ ends mode tree = f := by
  obtain ⟨ts, options, items, hreads, hends, hread⟩ := h
  refine ⟨Tree.ofOptions (options ++ [.ofItems items]), ?_, (ends_ofOptions _).trans hends⟩
  have hall := hread [] [] []
  rw [List.append_nil] at hall
  rw [Pattern.read?, hreads.tokenize]
  simp [hall, readTokens, Frame.close, Frame.nextOption]

/-- What is read of a text depends on how much the text may hold. -/
def ReadsAs (mode : Flags) : Level → List Char → (Cursor → List Cursor) → Prop
  | .atom => ReadsAsItem mode
  | .row => ReadsAsRow mode
  | .body => ReadsAsBody mode

/-- A text is read as the search that it spells. -/
theorem Spells.reads (hcase : mode.caseInsensitive = false) {level : Level}
    (h : Spells searches level text f) : ReadsAs mode level text f := by
  induction h with
  | char h => exact readsAsItem_char hcase h
  | charClass h hne => exact readsAsItem_charClass hcase h hne
  | group _ ih => exact ih.group
  | empty => exact readsAsRow_nil
  | part _ ih => exact ih.row
  | optional _ ih =>
    have hmark : Reads ['?'] [.mark .optional] :=
      reads_sign (by decide) (by decide) (by decide) rfl
    exact ih.marked hmark fun tree h => h ▸ ends_optional tree
  | star _ ih =>
    have hmark : Reads ['*'] [.mark .star] :=
      reads_sign (by decide) (by decide) (by decide) rfl
    exact ih.marked hmark fun tree h => h ▸ ends_star tree
  | append _ _ ih ihlater => exact ih.append ihlater
  | option _ ih => exact ih.body
  | bar _ _ ih ihlater => exact ih.bar ihlater

/-- A text that spells a search is read as a tree that is searched for so. -/
theorem Spells.read? (h : Spells searches .body (shown flags text) f)
    (hcase : mode.caseInsensitive = false) :
    ∃ tree, Pattern.read? flags text = some tree ∧ ends mode tree = f :=
  ReadsAsBody.read? (h.reads hcase)

/-- A pattern is read as a tree that finds the words of its language. -/
theorem Spelled.read? (h : Spelled flags text L) (hcase : mode.caseInsensitive = false) :
    ∃ tree, Pattern.read? flags text = some tree ∧ Denotes (ends mode tree) L := by
  obtain ⟨f, hf, hdenotes⟩ := h.exists_search
  obtain ⟨tree, hread, rfl⟩ := hf.read? hcase
  exact ⟨tree, hread, hdenotes⟩

/-- A text is a pattern for one language at most. -/
theorem Spelled.unique (h : Spelled flags text L) (h' : Spelled flags text M) : L = M := by
  have hcase : ({} : Flags).caseInsensitive = false := rfl
  obtain ⟨tree, hread, hdenotes⟩ := h.read? hcase
  obtain ⟨tree', hread', hdenotes'⟩ := h'.read? hcase
  obtain rfl : tree = tree' := Option.some.inj (hread.symm.trans hread')
  exact hdenotes.unique hdenotes'

end WordPattern.Pattern
