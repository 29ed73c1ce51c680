import WordPattern.CommandLine
import WordPattern.Proofs.Outcome

/-!
# What a run of the command line comes to

The words are written one per line, each line ended by a line feed or by a
carriage return and a line feed, where the end of the last line may be missing
unless the line is empty. A run on these bytes says what generating a pattern
for the words says. Bytes that are not valid UTF-8 in some line and flag letters
without meaning are failures, the letters before the bytes. How long a run
takes and how much of its input it reads are not described here.
-/

namespace WordPattern.CommandLine

/-- The bytes of a text. -/
def utf8 (text : String) : List UInt8 := text.toUTF8.data.toList

/-- Words are written as a sequence of bytes, one word after the other with its
terminator, which may be missing after a last word that is not empty. -/
inductive Writes : List String → List UInt8 → Prop where
  /-- No word. -/
  | nil : Writes [] []
  /-- A last word without a terminator. -/
  | last {word : String} (ne : word ≠ "") : Writes [word] (utf8 word)
  /-- A word that is ended by a line feed. -/
  | lineFeed {word : String} {rest : List String} {bytes : List UInt8} (later : Writes rest bytes) :
      Writes (word :: rest) (utf8 word ++ 10 :: bytes)
  /-- A word that is ended by a carriage return and a line feed. -/
  | carriageReturn {word : String} {rest : List String} {bytes : List UInt8}
      (later : Writes rest bytes) : Writes (word :: rest) (utf8 word ++ 13 :: 10 :: bytes)

/-- A text that fits on a line: it has no line feed and does not end in a
carriage return, which would be taken for a part of the terminator. -/
def FitsOnLine (text : String) : Prop :=
  '\n' ∉ text.toList ∧ text.toList.getLast? ≠ some '\r'

instance (text : String) : Decidable (FitsOnLine text) :=
  inferInstanceAs (Decidable (_ ∧ _))

/-- Bytes between two line feeds, or between a line feed and an end of the input,
or between its ends. -/
def IsLine (line input : List UInt8) : Prop :=
  ∃ before after, input = before ++ line ++ after ∧ 10 ∉ line ∧
    (before = [] ∨ before.getLast? = some 10) ∧ (after = [] ∨ after.head? = some 10)

variable {word : String} {line chunk rest input before after : List UInt8}

/-! ### Bytes of a text -/

/-- A byte below 128 is the number of its character. -/
theorem toNat_eq_of_mem_utf8EncodeChar {c : Char} {byte : UInt8}
    (h : byte ∈ String.utf8EncodeChar c) (hlt : byte.toNat < 128) : c.toNat = byte.toNat := by
  -- Every byte of a character that has several is 128 at least.
  have hhigh : ∀ n, 128 ≤ n % 2 ^ 8 → byte ≠ UInt8.ofNat n := by
    intro n hn heq
    rw [heq, UInt8.toNat_ofNat'] at hlt
    omega
  unfold String.utf8EncodeChar at h
  dsimp only at h
  split at h
  · rw [List.mem_singleton] at h
    rw [h, UInt8.toNat_ofNat', Nat.mod_eq_of_lt (by omega)]
    rfl
  · split at h
    · simp only [List.mem_cons, List.not_mem_nil, or_false] at h
      rcases h with h | h <;> exact absurd h (hhigh _ (by omega))
    · split at h
      · simp only [List.mem_cons, List.not_mem_nil, or_false] at h
        rcases h with h | h | h <;> exact absurd h (hhigh _ (by omega))
      · simp only [List.mem_cons, List.not_mem_nil, or_false] at h
        rcases h with h | h | h | h <;> exact absurd h (hhigh _ (by omega))

/-- The bytes of a text are those of its characters. -/
theorem utf8_eq_flatMap (text : String) :
    utf8 text = text.toList.flatMap String.utf8EncodeChar := by
  rw [utf8, String.toUTF8_eq_toByteArray, ← String.utf8Encode_toList, List.utf8Encode,
    List.toList_data_toByteArray]

theorem FitsOnLine.notMem (h : FitsOnLine word) : (10 : UInt8) ∉ utf8 word := by
  intro hmem
  rw [utf8_eq_flatMap, List.mem_flatMap] at hmem
  obtain ⟨c, hc, hbyte⟩ := hmem
  have hnat := toNat_eq_of_mem_utf8EncodeChar hbyte (by decide)
  have heq : c = '\n' := Char.toNat_inj.mp hnat
  exact h.1 (heq ▸ hc)

theorem FitsOnLine.getLast?_ne (h : FitsOnLine word) : (utf8 word).getLast? ≠ some 13 := by
  rw [utf8_eq_flatMap]
  rcases List.eq_nil_or_concat word.toList with hnil | ⟨init, c, hconcat⟩
  · simp [hnil]
  · have hne : String.utf8EncodeChar c ≠ [] := by
      rw [← List.length_pos_iff, String.length_utf8EncodeChar]
      exact c.utf8Size_pos
    rw [List.concat_eq_append] at hconcat
    rw [hconcat, List.flatMap_append, List.flatMap_singleton, List.getLast?_append_of_ne_nil _ hne]
    intro hlast
    have hnat := toNat_eq_of_mem_utf8EncodeChar (List.mem_of_getLast? hlast) (by decide)
    have heq : c = '\r' := Char.toNat_inj.mp hnat
    exact h.2 (by rw [hconcat, List.getLast?_concat, heq])

theorem utf8_ne_nil (h : word ≠ "") : utf8 word ≠ [] := by
  obtain ⟨c, rest, hword⟩ := List.exists_cons_of_ne_nil (String.toList_eq_nil_iff.not.mpr h)
  have hpos : 0 < (String.utf8EncodeChar c).length := by
    rw [String.length_utf8EncodeChar]
    exact c.utf8Size_pos
  rw [utf8_eq_flatMap, hword, List.flatMap_cons, List.ne_nil_iff_length_pos, List.length_append]
  omega

/-- A text is read from its bytes. -/
theorem decode?_utf8 (text : String) : decode? (utf8 text) = some text := by
  have hbytes : (⟨(utf8 text).toArray⟩ : ByteArray) = text.toByteArray := by
    rw [utf8, String.toUTF8_eq_toByteArray, Array.toArray_toList]
  rw [decode?, hbytes, String.fromUTF8?, dif_pos text.isValidUTF8]
  rfl

/-- Bytes are a text exactly when they are valid. -/
theorem decode?_eq_none_iff :
    decode? chunk = none ↔ ¬ (⟨chunk.toArray⟩ : ByteArray).IsValidUTF8 := by
  rw [decode?, String.fromUTF8?]
  split <;> simp_all

/-- A carriage return does not make a line valid or invalid. -/
theorem decode?_eq_none_of_append (h : decode? (chunk ++ [13]) = none) : decode? chunk = none := by
  rw [decode?_eq_none_iff] at h ⊢
  intro hvalid
  have hreturn : (⟨[(13 : UInt8)].toArray⟩ : ByteArray).IsValidUTF8 := ⟨['\r'], rfl⟩
  have hbytes : (⟨chunk.toArray⟩ : ByteArray) ++ ⟨[(13 : UInt8)].toArray⟩ =
      ⟨(chunk ++ [13]).toArray⟩ := ByteArray.ext (by simp [ByteArray.data_append])
  exact h (hbytes ▸ hvalid.append hreturn)

/-! ### Lines -/

/-- A byte other than a line feed is put into the current line. -/
theorem linesFrom_cons {byte : UInt8} (h : byte ≠ 10) (line rest : List UInt8) :
    linesFrom line (byte :: rest) = linesFrom (byte :: line) rest := by
  conv => lhs; unfold linesFrom
  exact if_neg h

/-- A line feed ends the current line, and a carriage return before it is left
out. -/
theorem linesFrom_lineFeed (line rest : List UInt8) :
    linesFrom line (10 :: rest) =
      (match line with
        | 13 :: before => before
        | line => line).reverse :: lines rest := by
  rw [lines]
  conv => lhs; unfold linesFrom
  exact if_pos rfl

/-- Bytes other than a line feed are put into the current line. -/
theorem linesFrom_append (line : List UInt8) (h : 10 ∉ chunk) (rest : List UInt8) :
    linesFrom line (chunk ++ rest) = linesFrom (chunk.reverse ++ line) rest := by
  induction chunk generalizing line with
  | nil => rfl
  | cons byte chunk ih =>
    rw [List.mem_cons, not_or] at h
    rw [List.cons_append, linesFrom_cons (Ne.symm h.1), ih _ h.2, List.reverse_cons,
      List.append_assoc]
    rfl

theorem lines_append_lineFeed (h : 10 ∉ chunk) (hlast : chunk.getLast? ≠ some 13)
    (rest : List UInt8) : lines (chunk ++ 10 :: rest) = chunk :: lines rest := by
  rw [lines, linesFrom_append [] h, List.append_nil, linesFrom_lineFeed]
  split
  · rename_i before hreverse
    rw [List.getLast?_eq_head?_reverse, hreverse] at hlast
    exact absurd rfl hlast
  · rw [List.reverse_reverse]

theorem lines_append_carriageReturn (h : 10 ∉ chunk) (rest : List UInt8) :
    lines (chunk ++ 13 :: 10 :: rest) = chunk :: lines rest := by
  rw [lines, linesFrom_append [] h, List.append_nil, linesFrom_cons (by decide),
    linesFrom_lineFeed]
  exact congrArg (· :: lines rest) chunk.reverse_reverse

theorem lines_of_notMem (h : 10 ∉ chunk) (hne : chunk ≠ []) : lines chunk = [chunk] := by
  have hrun := linesFrom_append [] h []
  rw [List.append_nil, List.append_nil] at hrun
  rw [lines, hrun, linesFrom]
  simp [hne]

/-- What comes before a line feed does not change the lines that follow. -/
theorem linesFrom_append_lineFeed (line before rest : List UInt8) :
    linesFrom line (before ++ 10 :: rest) = linesFrom line (before ++ [10]) ++ lines rest := by
  induction before generalizing line with
  | nil =>
    rw [List.nil_append, List.nil_append, linesFrom_lineFeed, linesFrom_lineFeed]
    rfl
  | cons byte before ih =>
    rw [List.cons_append, List.cons_append]
    by_cases hbyte : byte = 10
    · subst hbyte
      rw [linesFrom_lineFeed, linesFrom_lineFeed, List.cons_append, lines, lines, ih]
    · rw [linesFrom_cons hbyte, linesFrom_cons hbyte, ih]

/-- The lines of written words are the bytes of the words. -/
theorem Writes.lines_eq {words : List String} (h : Writes words input)
    (hfits : ∀ word ∈ words, FitsOnLine word) : lines input = words.map utf8 := by
  induction h with
  | nil => rfl
  | last hne => exact lines_of_notMem (hfits _ List.mem_cons_self).notMem (utf8_ne_nil hne)
  | lineFeed later ih =>
    obtain ⟨hword, hrest⟩ := List.forall_mem_cons.mp hfits
    rw [lines_append_lineFeed hword.notMem hword.getLast?_ne, ih hrest, List.map_cons]
  | carriageReturn later ih =>
    obtain ⟨hword, hrest⟩ := List.forall_mem_cons.mp hfits
    rw [lines_append_carriageReturn hword.notMem, ih hrest, List.map_cons]

/-- Among the lines of an input is every line of it, maybe without a carriage
return at its end; lines that are empty at the end of the input do not count. -/
theorem exists_mem_lines (h : IsLine chunk input) (hne : chunk ≠ []) :
    ∃ line ∈ lines input, chunk = line ∨ chunk = line ++ [13] := by
  obtain ⟨before, after, rfl, hchunk, hbefore, hafter⟩ := h
  have hhere : ∃ line ∈ lines (chunk ++ after), chunk = line ∨ chunk = line ++ [13] := by
    rcases hafter with rfl | hafter
    · rw [List.append_nil, lines_of_notMem hchunk hne]
      exact ⟨chunk, List.mem_cons_self, Or.inl rfl⟩
    · obtain ⟨rest, rfl⟩ := List.head?_eq_some_iff.mp hafter
      by_cases hlast : chunk.getLast? = some 13
      · obtain ⟨line, rfl⟩ := List.getLast?_eq_some_iff.mp hlast
        have hline : 10 ∉ line := fun hmem => hchunk (List.mem_append_left _ hmem)
        refine ⟨line, ?_, Or.inr rfl⟩
        rw [List.append_assoc, List.singleton_append, lines_append_carriageReturn hline]
        exact List.mem_cons_self
      · rw [lines_append_lineFeed hchunk hlast]
        exact ⟨chunk, List.mem_cons_self, Or.inl rfl⟩
  rcases hbefore with rfl | hbefore
  · exact hhere
  · obtain ⟨line, hline, hsame⟩ := hhere
    obtain ⟨earlier, rfl⟩ := List.getLast?_eq_some_iff.mp hbefore
    refine ⟨line, ?_, hsame⟩
    have hlines := linesFrom_append_lineFeed [] earlier (chunk ++ after)
    rw [List.append_assoc, List.append_assoc, List.singleton_append, lines, hlines]
    exact List.mem_append_right _ hline

/-! ### Runs -/

/-- Nothing is read if one line is not. -/
theorem mapM_eq_none {α β : Type} {f : α → Option β} {xs : List α} {x : α} (hx : x ∈ xs)
    (hnone : f x = none) : xs.mapM f = none := by
  induction xs with
  | nil => cases hx
  | cons y xs ih =>
    rw [List.mapM_cons]
    rcases List.mem_cons.mp hx with rfl | hx
    · rw [hnone]
      rfl
    · rw [ih hx]
      cases f y <;> rfl

theorem mapM_decode? (words : List String) : (words.map utf8).mapM decode? = some words := by
  induction words with
  | nil => rfl
  | cons word words ih =>
    rw [List.map_cons, List.mapM_cons, decode?_utf8, ih]
    rfl

/-- How a result is reported: a pattern as a line of output, an error as a message
and a failure. -/
def Outcome.ofResult : Except Error String → Outcome
  | .ok text => ⟨0, text ++ "\n", ""⟩
  | .error error => ⟨1, "", "error: " ++ error.message ++ "\n"⟩

/-- A run on readable lines reports what generating a pattern for them gives. -/
theorem run_of_lines {args words : List String} (h : lines input = words.map utf8) :
    run args input = .ofResult (generate words (args.headD "")) := by
  rw [run, readFlags, generate]
  cases hflags : Flags.ofLetters (args.headD "").toList with
  | error e => rfl
  | ok flags =>
    obtain ⟨trie, htrie, -⟩ := Trie.ofWords_spec (words.map String.toList)
    simp only [answer, h, mapM_decode?, htrie, bind, Except.bind]
    cases trie.pattern flags <;> rfl

/-- With good flags, a run on an input with an unreadable line fails. -/
theorem run_of_unreadable {args : List String} {flags : Flags} (hflags : readFlags args = .ok flags)
    (hline : IsLine chunk input) (hinvalid : decode? chunk = none) :
    run args input = .failure "stream did not contain valid UTF-8" := by
  have hne : chunk ≠ [] := by
    intro hnil
    rw [hnil] at hinvalid
    cases hinvalid
  obtain ⟨line, hmem, hsame⟩ := exists_mem_lines hline hne
  have hnone : decode? line = none := by
    rcases hsame with rfl | rfl
    · exact hinvalid
    · exact decode?_eq_none_of_append hinvalid
  rw [run, hflags]
  simp only [answer, mapM_eq_none hmem hnone]

/-- A run takes its flag letters from the first argument, none if there is none,
and does not look at others. On written words that fit on lines it reports what
generating a pattern for them gives. With good letters, it fails on any input
with a line that is not valid UTF-8, and writes nothing to its output. The first
letter that stands for no flag is reported whatever the input is. -/
theorem run_agrees (args : List String) :
    (∀ words input, (∀ word ∈ words, FitsOnLine word) → Writes words input →
      run args input = .ofResult (generate words (args.headD ""))) ∧
    ((∀ c ∈ (args.headD "").toList, c ∈ ['i', 'm', 'x', 'u']) → ∀ line input, IsLine line input →
      ¬ (ByteArray.mk line.toArray).IsValidUTF8 →
        run args input = ⟨1, "", "error: stream did not contain valid UTF-8\n"⟩) ∧
    ∀ c, ((args.headD "").toList.find? fun c => c ∉ ['i', 'm', 'x', 'u']) = some c → ∀ input,
      run args input = ⟨1, "", "error: " ++ (Error.unknownFlag c).message ++ "\n"⟩ := by
  have hflags := Flags.foldlM_set_cases (args.headD "").toList {}
  refine ⟨fun words input hfits hwrites => run_of_lines (hwrites.lines_eq hfits), ?_, ?_⟩
  · intro hgood line input hline hinvalid
    rcases hflags with ⟨c, hfind, -⟩ | ⟨-, flags, hok⟩
    · have hbad := List.find?_some hfind
      have hin := hgood c (List.mem_of_find?_eq_some hfind)
      exact absurd hin (by simpa using hbad)
    · exact run_of_unreadable hok hline (decode?_eq_none_iff.mpr hinvalid)
  · intro c hfind input
    rcases hflags with ⟨d, hfind', herror⟩ | ⟨hnone, -⟩
    · rw [hfind, Option.some.injEq] at hfind'
      subst hfind'
      rw [run, readFlags, Flags.ofLetters, herror]
      rfl
    · rw [hnone] at hfind
      cases hfind

/-- Two words, the first with a long terminator and the second with none; a line
that is one byte of no character; a letter without meaning. -/
theorem run_agrees_sample :
    run ["u", "q"] [97, 98, 13, 10, 99] = .ofResult (generate ["ab", "c"] "u") ∧
      run [] [97, 10, 255, 13, 10] = ⟨1, "", "error: stream did not contain valid UTF-8\n"⟩ ∧
      run ["iq"] [255] = ⟨1, "", "error: " ++ (Error.unknownFlag 'q').message ++ "\n"⟩ := by
  have hwrites : Writes ["ab", "c"] [97, 98, 13, 10, 99] :=
    .carriageReturn (.last (by decide))
  have hline : IsLine [255, 13] [97, 10, 255, 13, 10] :=
    ⟨[97, 10], [10], rfl, by decide, Or.inr rfl, Or.inr rfl⟩
  exact ⟨(run_agrees ["u", "q"]).1 ["ab", "c"] _ (by decide) hwrites,
    (run_agrees []).2.1 (by simp) [255, 13] _ hline (by decide),
    (run_agrees ["iq"]).2.2 'q' (by decide) [255]⟩

end WordPattern.CommandLine
