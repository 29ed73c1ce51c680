import WordPattern.Generate
import WordPattern.Proofs.Expr.Renaming
import WordPattern.Proofs.Generate

/-!
# Words over other letters

Renaming the letters of all words, different letters to different ones, renames
the letters of the trie, of its minimal automaton and of the expression, and
changes nothing else: states keep their numbers and edges and options their
order. The written pattern is not described here, because how a letter is
written depends on the letter.
-/

namespace WordPattern

variable {f : Char ↪ Char}

namespace Alphabet

/-- Ascending characters are determined by which ones they are. -/
theorem eq_of_mem_iff {first second : Alphabet}
    (h : ∀ c, c ∈ first.letters ↔ c ∈ second.letters) : first = second := by
  have hnodup : ∀ alphabet : Alphabet, alphabet.letters.Nodup := by
    intro alphabet
    refine List.Pairwise.imp ?_ alphabet.ascending
    rintro c _ hlt rfl
    exact Char.lt_irrefl c hlt
  have hperm := (List.perm_ext_iff_of_nodup (hnodup first) (hnodup second)).mpr h
  have hletters : first.letters = second.letters :=
    hperm.eq_of_pairwise (fun c d _ _ hcd hdc => absurd (Char.lt_trans hcd hdc) (Char.lt_irrefl c))
      first.ascending second.ascending
  cases first
  cases second
  cases hletters
  rfl

theorem mem_foldl_insert {letters : List Char} {alphabet : Alphabet} {c : Char} :
    c ∈ (letters.foldl insert alphabet).letters ↔ c ∈ letters ∨ c ∈ alphabet.letters := by
  induction letters generalizing alphabet with
  | nil => simp
  | cons letter rest ih =>
    rw [List.foldl_cons, ih, mem_insert, List.mem_cons, or_left_comm, or_assoc]

/-- An alphabet with renamed letters. -/
def rename (f : Char ↪ Char) (alphabet : Alphabet) : Alphabet :=
  (alphabet.letters.map f).foldl insert empty

theorem mem_rename {alphabet : Alphabet} {c : Char} :
    c ∈ (alphabet.rename f).letters ↔ ∃ d ∈ alphabet.letters, f d = c := by
  rw [rename, mem_foldl_insert, List.mem_map, or_iff_left (notMem_empty c)]

theorem insert_rename (alphabet : Alphabet) (letter : Char) :
    (alphabet.rename f).insert (f letter) = (alphabet.insert letter).rename f := by
  apply eq_of_mem_iff
  intro c
  simp only [mem_insert, mem_rename, or_and_right, exists_or, exists_eq_left]
  rw [eq_comm]

end Alphabet

namespace Automaton

variable (a : Automaton)

theorem follow_rename (source : StateId) (letter : Char) :
    (a.rename f).follow source (f letter) = a.follow source letter := by
  rw [follow, follow, state_rename]
  cases a.state source with
  | error e => rfl
  | ok state => exact congrArg Except.ok (Table.find?_mapKeys state.edges letter)

theorem edit?_eq_change (id : StateId) (g : State → State) :
    a.edit? id g = (Row.change a.states id g).map mk := by
  rw [edit?, Row.change, numStates]
  split <;> rfl

/-- A state is changed alike before and after its letters are renamed. -/
theorem edit?_rename {g h : State → State} (hgh : ∀ state, h (state.rename f) = (g state).rename f)
    (id : StateId) : (a.rename f).edit? id h = (a.edit? id g).map (rename f) := by
  have hchange := Row.change_map hgh a.states id
  rw [edit?_eq_change, edit?_eq_change, rename, hchange]
  cases Row.change a.states id g <;> rfl

theorem setAccepting_rename (id : StateId) (accepting : Bool) :
    (a.rename f).setAccepting id accepting = (a.setAccepting id accepting).map (rename f) := by
  let mark : State → State := fun state => { state with accepting }
  have hmark : ∀ state, mark (state.rename f) = (mark state).rename f := fun _ => rfl
  exact a.edit?_rename hmark id

theorem setEdge_rename (source : StateId) (letter : Char) (target : StateId) :
    (a.rename f).setEdge source (f letter) target =
      (a.setEdge source letter target).map (rename f) :=
  a.edit?_rename
    (fun state => congrArg (State.mk state.accepting) (Table.insert_mapKeys _ letter target)) source

theorem addState_rename : (a.rename f).addState = Prod.map (rename f) id a.addState := by
  rw [addState, addState, numStates_rename]
  simp only [rename, Array.map_push, Prod.map_apply]
  rfl

/-- A renamed edge is followed, or added, where the edge is. -/
theorem extend_rename (source : StateId) (letter : Char) :
    (a.rename f).extend source (f letter) =
      (a.extend source letter).map (Prod.map (rename f) id) := by
  rw [extend, extend, follow_rename, addState_rename]
  cases a.follow source letter with
  | error e => rfl
  | ok found =>
    cases found with
    | some target => rfl
    | none =>
      change ((a.addState.1.rename f).setEdge source (f letter) a.addState.2 >>= _) =
        (a.addState.1.setEdge source letter a.addState.2 >>= _).map _
      rw [setEdge_rename]
      cases a.addState.1.setEdge source letter a.addState.2 <;> rfl

end Automaton

namespace Trie

/-- A trie with renamed letters. -/
def rename (f : Char ↪ Char) (trie : Trie) : Trie :=
  ⟨trie.automaton.rename f, trie.alphabet.rename f⟩

theorem addFrom_rename (trie : Trie) (id : StateId) (word : Word) :
    (trie.rename f).addFrom id (word.map f) = (trie.addFrom id word).map (rename f) := by
  induction word generalizing trie id with
  | nil =>
    rw [List.map_nil, addFrom, addFrom, rename, Automaton.setAccepting_rename]
    cases trie.automaton.setAccepting id true <;> rfl
  | cons letter rest ih =>
    rw [List.map_cons, addFrom, addFrom, rename, Automaton.extend_rename, Alphabet.insert_rename]
    cases trie.automaton.extend id letter with
    | error e => rfl
    | ok grown => exact ih ⟨grown.1, trie.alphabet.insert letter⟩ grown.2

theorem ofWords_rename (words : List Word) :
    ofWords (words.map (List.map f)) = (ofWords words).map (rename f) := by
  have hempty : empty.rename f = empty := by
    simp only [rename, empty, Automaton.rename, Automaton.initial, List.map_toArray,
      List.map_cons, List.map_nil]
    rfl
  rw [ofWords, ofWords, addAll, addAll, List.foldlM_map]
  nth_rewrite 1 [← hempty]
  refine foldlM_hom (rename f) ?_ words empty
  intro trie word
  exact addFrom_rename trie Automaton.start word

/-- The minimal automaton and the expression of renamed words are those of the
words with renamed letters. -/
theorem renamed_words (f : Char ↪ Char) (words : List Word) :
    ∃ trie renamed m result, ofWords words = .ok trie ∧
      ofWords (words.map (List.map f)) = .ok renamed ∧
      trie.minimal = .ok m ∧ renamed.minimal = .ok (m.rename f) ∧
      trie.expression = .ok result ∧ renamed.expression = .ok (result.map (Expr.rename f)) := by
  obtain ⟨trie, htrie, h⟩ := ofWords_spec words
  obtain ⟨m, hminimal, hm, hexpression, -⟩ := expression_eq h.branching.closed
  obtain ⟨result, hresult, -⟩ := expression_spec h.branching.closed
  have hrenamed : (trie.rename f).minimal = .ok (m.rename f) := by
    rw [minimal, rename, Automaton.minimal_rename]
    exact congrArg (Except.map _) hminimal
  refine ⟨trie, trie.rename f, m, result, htrie, ?_, hminimal, hrenamed, hresult, ?_⟩
  · rw [ofWords_rename, htrie]
    rfl
  · rw [expression, hrenamed]
    change (m.rename f).expression = _
    rw [Automaton.expression_rename, ← hexpression, hresult]
    rfl

end Trie

end WordPattern
