import WordPattern.Generate
import WordPattern.Proofs.Distinct
import WordPattern.Proofs.Trie.Filling

/-!
# Words that are added again

The run of a word that a trie accepts finds all of its edges and ends in an
accepting state, so adding the word again makes no state, no edge and no letter,
and changes no number and no order. What is built from the trie is therefore the
same for a list of words as for the list without its repeats, wherever they
stand. Adding the words in another order may change numbers and order, which is
not described here.
-/

namespace WordPattern

namespace Automaton

variable {a : Automaton} {p q : StateId}

/-- A state that accepts need not be made to accept. -/
theorem accept_eq_self (h : a.isAccepting p = true) : a.accept p = a := by
  have hstates : a.states.modify p (fun state => { state with accepting := true }) = a.states := by
    apply Array.ext_getElem?
    intro id
    rw [Array.getElem?_modify]
    split
    · rename_i hid
      subst hid
      rw [isAccepting, stateAt] at h
      cases hstate : a.states[p]? with
      | none => rfl
      | some state =>
        rw [hstate, Option.getD_some] at h
        rw [Option.map_some, ← h]
    · rfl
  exact congrArg Automaton.mk hstates

end Automaton

namespace Trie

open Automaton

variable {trie : Trie} {words : List Word}

/-- Where a word has a run to an accepting state and its letters are known, adding
it changes nothing. -/
theorem addFrom_eq_self (h : trie.automaton.Branching) {p q : StateId} {word : Word}
    (hp : p < trie.automaton.numStates) (hrun : trie.automaton.runFrom p word = some q)
    (haccepting : trie.automaton.isAccepting q = true)
    (hletters : ∀ c ∈ word, c ∈ trie.alphabet.letters) : trie.addFrom p word = .ok trie := by
  induction word generalizing p with
  | nil =>
    cases hrun
    have haccept : trie.automaton.setAccepting q true = .ok (trie.automaton.accept q) :=
      edit?_eq_ok hp _
    rw [addFrom, haccept, accept_eq_self haccepting]
    rfl
  | cons letter rest ih =>
    obtain ⟨next, hedge, hrest⟩ := Option.bind_eq_some_iff.mp hrun
    obtain ⟨hletter, hlater⟩ := List.forall_mem_cons.mp hletters
    obtain ⟨b, target, hextend, hstep⟩ := extend_spec hp letter
    cases hstep with
    | grown hmissing =>
      rw [hedge] at hmissing
      cases hmissing
    | kept hkept =>
      obtain rfl : target = next := Option.some.inj (hkept.symm.trans hedge)
      rw [addFrom, hextend, Alphabet.insert_of_mem hletter]
      exact ih (h.later hedge).2 hrest hlater

/-- Adding a word that the trie has changes nothing. -/
theorem Lists.add_eq_self (h : trie.Lists words) {word : Word} (hword : word ∈ words) :
    trie.add word = .ok trie := by
  obtain ⟨last, hrun, haccepting⟩ := verdict_eq_true_iff.mp ((h.mem word).mpr hword)
  exact addFrom_eq_self h.branching h.branching.nonempty hrun haccepting fun c hc =>
    (h.letters c).mpr ⟨word, hword, hc⟩

/-- A word that the trie has may be left out wherever it comes later. -/
theorem Lists.addAll_filter_ne (h : trie.Lists words) {word : Word} (hword : word ∈ words)
    (later : List Word) :
    trie.addAll (later.filter fun other => !other == word) = trie.addAll later := by
  induction later generalizing trie words with
  | nil => rfl
  | cons next rest ih =>
    by_cases he : next = word
    · subst he
      rw [List.filter_cons_of_neg (by simp), ih h hword, Trie.addAll, Trie.addAll,
        List.foldlM_cons, h.add_eq_self hword]
      rfl
    · obtain ⟨grown, hadd, hgrown⟩ := h.add next
      rw [List.filter_cons_of_pos (by simpa using he), Trie.addAll, Trie.addAll,
        List.foldlM_cons, List.foldlM_cons, hadd]
      exact ih hgrown (List.mem_append_left _ hword)

/-- Listed words may be added without their repeats. -/
theorem Lists.addAll_eraseDups (h : trie.Lists words) (more : List Word) :
    trie.addAll more.eraseDups = trie.addAll more := by
  induction hn : more.length using Nat.strongRecOn generalizing trie words more with
  | ind n ih =>
    cases more with
    | nil => simp
    | cons first rest =>
      obtain ⟨next, hadd, hnext⟩ := h.add first
      have hfirst : first ∈ words ++ [first] := List.mem_append_right _ (List.mem_singleton_self _)
      have hlen := List.length_filter_le (fun other => !other == first) rest
      rw [List.length_cons] at hn
      have hrest := ih _ (by omega) hnext (rest.filter fun other => !other == first) rfl
      rw [hnext.addAll_filter_ne hfirst] at hrest
      rw [List.eraseDups_cons, Trie.addAll, Trie.addAll, List.foldlM_cons, List.foldlM_cons, hadd]
      exact hrest

/-- The trie of listed words is that of the list without its repeats. -/
theorem ofWords_eraseDups (words : List Word) : ofWords words.eraseDups = ofWords words :=
  lists_empty.addAll_eraseDups words

end Trie

/-- However a trie was filled, it accepts a word exactly if adding the word
leaves its automaton and its alphabet as they are. For any list of words and any
flag letters, the same pattern or error is generated from the list and from the
list in which each word is kept only where it first comes. -/
theorem generate_eraseDups :
    (∀ calls word, ∃ trie next, Trie.filled calls = .ok trie ∧ trie.add word = .ok next ∧
      (trie.accepts word = .ok true ↔
        next.automaton = trie.automaton ∧ next.alphabet = trie.alphabet)) ∧
    ∀ words letters, generate words.eraseDups letters = generate words letters := by
  constructor
  · intro calls word
    obtain ⟨trie, hfilled, h⟩ := Trie.filled_spec calls
    obtain ⟨next, hadd, hnext⟩ := h.add word
    refine ⟨trie, next, hfilled, hadd, ?_⟩
    rw [h.accepts, Except.ok.injEq, decide_eq_true_eq]
    constructor
    · intro hword
      obtain rfl : trie = next := Except.ok.inj ((h.add_eq_self hword).symm.trans hadd)
      exact ⟨rfl, rfl⟩
    · rintro ⟨hsame, -⟩
      have hin := (hnext.mem word).mpr (List.mem_append_right _ (List.mem_singleton_self word))
      rw [hsame] at hin
      exact (h.mem word).mp hin
  · intro words letters
    have hmap : words.eraseDups.map String.toList = (words.map String.toList).eraseDups :=
      (eraseDups_map_eq fun _ _ _ _ => String.toList_inj.mp).symm
    rw [generate, generate, hmap, Trie.ofWords_eraseDups]

end WordPattern
