/-!
# Sets of characters

An alphabet is the ascending list of its characters, so equal alphabets are
equal lists. Characters are added one at a time and never taken away.
-/

namespace WordPattern

/-- A finite set of characters. -/
structure Alphabet where
  /-- The characters, ascending and each listed once. -/
  letters : List Char
  /-- The list ascends strictly. -/
  ascending : letters.Pairwise (· < ·)
deriving DecidableEq

namespace Alphabet

/-- The alphabet without characters. -/
def empty : Alphabet := ⟨[], .nil⟩

theorem notMem_empty (c : Char) : c ∉ empty.letters := List.not_mem_nil

/-- Puts a character in its place among ascending ones, unless it is there. -/
def insertLetter (letter : Char) : List Char → List Char
  | [] => [letter]
  | first :: rest =>
    if letter < first then letter :: first :: rest
    else if letter = first then first :: rest
    else first :: insertLetter letter rest

/-- The letters of the list are those from before and the new one. -/
theorem mem_insertLetter (letter c : Char) (letters : List Char) :
    c ∈ insertLetter letter letters ↔ c = letter ∨ c ∈ letters := by
  induction letters with
  | nil => simp [insertLetter]
  | cons first rest ih => grind [insertLetter]

/-- Ascending characters still ascend with the new one in its place. -/
theorem ascending_insertLetter (letter : Char) {letters : List Char}
    (h : letters.Pairwise (· < ·)) : (insertLetter letter letters).Pairwise (· < ·) := by
  induction letters with
  | nil => simp [insertLetter]
  | cons first rest ih =>
    obtain ⟨hfirst, hrest⟩ := List.pairwise_cons.mp h
    rw [insertLetter]
    split
    · rename_i hlt
      refine List.pairwise_cons.mpr ⟨?_, h⟩
      intro c hc
      rcases List.mem_cons.mp hc with rfl | hc
      · exact hlt
      · exact Char.lt_trans hlt (hfirst c hc)
    · rename_i hge
      split
      · exact h
      · rename_i hne
        have hlt : first < letter := by grind
        refine List.pairwise_cons.mpr ⟨?_, ih hrest⟩
        intro c hc
        rcases (mem_insertLetter letter c rest).mp hc with rfl | hc
        · exact hlt
        · exact hfirst c hc

/-- A character that has a place among ascending ones is not put in again. -/
theorem insertLetter_of_mem {letter : Char} {letters : List Char}
    (h : letters.Pairwise (· < ·)) (hmem : letter ∈ letters) :
    insertLetter letter letters = letters := by
  induction letters with
  | nil => cases hmem
  | cons first rest ih =>
    obtain ⟨hfirst, hrest⟩ := List.pairwise_cons.mp h
    rcases List.mem_cons.mp hmem with rfl | hlater
    · rw [insertLetter, if_neg (Char.lt_irrefl _), if_pos rfl]
    · have hlt := hfirst letter hlater
      have hne : letter ≠ first := fun he => Char.lt_irrefl first (he ▸ hlt)
      have hge : ¬letter < first := fun hback => Char.lt_irrefl first (Char.lt_trans hlt hback)
      rw [insertLetter, if_neg hge, if_neg hne, ih hrest hlater]

/-- Adds a character. -/
def insert (alphabet : Alphabet) (letter : Char) : Alphabet :=
  ⟨insertLetter letter alphabet.letters, ascending_insertLetter letter alphabet.ascending⟩

/-- The letters are those from before and the new one. -/
theorem mem_insert {alphabet : Alphabet} {letter c : Char} :
    c ∈ (alphabet.insert letter).letters ↔ c = letter ∨ c ∈ alphabet.letters :=
  mem_insertLetter letter c alphabet.letters

/-- A character that is there already changes nothing. -/
theorem insert_of_mem {alphabet : Alphabet} {letter : Char} (h : letter ∈ alphabet.letters) :
    alphabet.insert letter = alphabet := by
  obtain ⟨letters, hascending⟩ := alphabet
  simp only [insert, insertLetter_of_mem hascending h]

end Alphabet

end WordPattern
