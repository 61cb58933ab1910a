import Mathlib.Data.List.TakeWhile

/-!
# Words between separators

Taking words off the front of a text one at a time, as a formatted input
stream does, gives the words of the text in order.
-/
namespace Words

variable {α : Type} (space : α → Bool)

/-- The next word and the rest of the text; at the end of the text the word is empty. -/
def extract (s : List α) : List α × List α :=
  let t := s.dropWhile space
  (t.takeWhile (!space ·), t.dropWhile (!space ·))

def words (s : List α) : List (List α) := (s.splitOnP space).filter (!·.isEmpty)

variable {space}

@[simp] theorem words_nil : words space [] = [] := rfl

theorem words_cons_space {b : α} (hb : space b) (s : List α) :
    words space (b :: s) = words space s := by
  simp [words, List.splitOnP_cons_eq_if_modifyHead, hb]

theorem words_dropWhile (s : List α) : words space (s.dropWhile space) = words space s := by
  induction s with
  | nil => rfl
  | cons b s ih =>
    by_cases hb : space b
    · rw [List.dropWhile_cons_of_pos hb, ih, words_cons_space hb]
    · rw [List.dropWhile_cons_of_neg hb]

/-- A word reaches to the next separator. -/
theorem words_word {w : List α} (hne : w ≠ []) (hw : ∀ b ∈ w, space b = false) {rest : List α}
    (hrest : ∀ b ∈ rest.head?, space b) : words space (w ++ rest) = w :: words space rest := by
  cases rest with
  | nil => simp [words, List.splitOnP_eq_singleton hw, hne]
  | cons b rest =>
    have hb : space b := hrest b rfl
    rw [words_cons_space hb, words, List.splitOnP_append_cons_of_forall_mem hw b hb]
    simp [words, hne]

theorem head?_dropWhile {p : α → Bool} {s : List α} {b : α} (h : b ∈ (s.dropWhile p).head?) :
    p b = false := by
  have hhead := List.head?_dropWhile_not p s
  rw [h] at hhead
  exact hhead

/-- One extraction: the text is used up, or its first word is taken off. -/
theorem extract_cases (space : α → Bool) (s : List α) :
    words space s = [] ∧ extract space s = ([], []) ∨
      words space s = (extract space s).1 :: words space (extract space s).2 := by
  cases ht : s.dropWhile space with
  | nil =>
    left
    rw [← words_dropWhile, ht]
    simp [extract, ht]
  | cons b t =>
    right
    have hb : space b = false := head?_dropWhile (s := s) (by rw [ht]; rfl)
    have hne : (extract space s).1 ≠ [] := by simp [extract, ht, hb]
    have hw : ∀ c ∈ (extract space s).1, space c = false := by
      intro c hc
      simpa using List.mem_takeWhile_imp hc
    have hrest : ∀ c ∈ (extract space s).2.head?, space c := by
      intro c hc
      simpa using head?_dropWhile hc
    rw [← words_word hne hw hrest, extract, List.takeWhile_append_dropWhile, words_dropWhile]

/-- The word taken is the first one. -/
theorem extract_fst (s : List α) : (extract space s).1 = (words space s).headD [] := by
  rcases extract_cases space s with ⟨hw, he⟩ | hw
  · rw [hw, he]
    rfl
  · rw [hw]
    rfl

/-- The others are left. -/
theorem words_extract_snd (s : List α) :
    words space (extract space s).2 = (words space s).tail := by
  rcases extract_cases space s with ⟨hw, he⟩ | hw
  · rw [hw, he]
    rfl
  · rw [hw]
    rfl

end Words
