import Mathlib.Data.List.TakeWhile

/-! Text files that are read line by line, also while somebody writes to their end. -/
namespace TextFile

/-- Whole lines, and what there is of one more. -/
def content (lines : List (List Char)) (rest : List Char) : List Char := (lines.map (· ++ ['\n'])).flatten ++ rest

/-- The lines that a loop of `getline` with a buffer of `size` reads: it ends at the first that does not fit. -/
def getlines (size : Nat) (file : List Char) : List (List Char) :=
  let pieces := file.splitOn '\n'
  (if pieces.getLast? = some [] then pieces.dropLast else pieces).takeWhile fun line => line.length < size

/-- The words between blanks. -/
def words (line : List Char) : List (List Char) := (line.splitOn ' ').filter (· ≠ [])

variable {lines : List (List Char)} {line rest : List Char} {size : Nat}

@[simp] theorem content_nil : content [] rest = rest := rfl

theorem content_concat : content (lines ++ [line]) rest = content lines (line ++ '\n' :: rest) := by
  simp [content]

theorem splitOn_content (h : ∀ l ∈ lines, '\n' ∉ l) (hrest : '\n' ∉ rest) :
    (content lines rest).splitOn '\n' = lines ++ [rest] := by
  induction lines with
  | nil =>
    rw [content_nil, List.splitOn_eq_splitOnP, List.splitOnP_eq_singleton]
    · rfl
    · intro c hc
      have hne : c ≠ '\n' := fun he => hrest (he ▸ hc)
      simpa using hne
  | cons l lines ih =>
    obtain ⟨hl, hlines⟩ := List.forall_mem_cons.mp h
    have hcons : content (l :: lines) rest = l ++ '\n' :: content lines rest := by simp [content]
    rw [hcons, List.splitOn_eq_splitOnP, List.splitOnP_append_cons_of_forall_mem, ← List.splitOn_eq_splitOnP, ih hlines]
    · rfl
    · intro c hc
      have hne : c ≠ '\n' := fun he => hl (he ▸ hc)
      simpa using hne
    · rfl

theorem getlines_content (h : ∀ l ∈ lines, '\n' ∉ l) (hrest : '\n' ∉ rest) : getlines size (content lines rest) =
    (lines ++ if rest = [] then [] else [rest]).takeWhile fun line => line.length < size := by
  unfold getlines
  rw [splitOn_content h hrest]
  by_cases hnil : rest = [] <;> simp [hnil]

/-- All lines are read where each fits. -/
theorem getlines_all (h : ∀ l ∈ lines, '\n' ∉ l) (hsize : ∀ l ∈ lines, l.length < size) :
    getlines size (content lines []) = lines := by
  rw [getlines_content h (by simp)]
  simp only [if_true, List.append_nil]
  exact List.takeWhile_eq_self_iff.mpr (by simpa using hsize)

section Words

variable {word : List Char}

theorem words_single (h : ' ' ∉ word) : words word = if word = [] then [] else [word] := by
  have hsplit : word.splitOn ' ' = [word] := by
    rw [List.splitOn_eq_splitOnP, List.splitOnP_eq_singleton]
    intro c hc
    have hne : c ≠ ' ' := fun he => h (he ▸ hc)
    simpa using hne
  by_cases hnil : word = [] <;> simp [words, hsplit, hnil]

theorem words_cons (h : ' ' ∉ word) (hne : word ≠ []) : words (word ++ ' ' :: rest) = word :: words rest := by
  have hsplit : (word ++ ' ' :: rest).splitOn ' ' = word :: rest.splitOn ' ' := by
    rw [List.splitOn_eq_splitOnP, List.splitOnP_append_cons_of_forall_mem]
    · rfl
    · intro c hc
      have hne : c ≠ ' ' := fun he => h (he ▸ hc)
      simpa using hne
    · rfl
  simp [words, hsplit, hne]

end Words

end TextFile
