-- The laws of the cleaning. Each of its two loops comes to an end: the first
-- leaves the text with no space or quote at an end, and the second leaves one
-- space for each run of them.
import XellissimeBook.Text
import XellissimeBook.Trimming

/-! ## The loop `repeat body while again`

The body runs once before the first test. -/

namespace repeat_loop

variable {σ γ : Type*} {body : σ → σ} {again : σ → Bool} {s s' : σ}

/-- The loop that starts in the first state comes to its end in the second. -/
inductive Ends (body : σ → σ) (again : σ → Bool) : σ → σ → Prop
  | stop {s : σ} (h : again (body s) = false) : Ends body again s (body s)
  | turn {s s' : σ} (h : again (body s) = true) (rest : Ends body again (body s) s') :
      Ends body again s s'

/-- The test fails where the loop ends. -/
theorem Ends.again_eq_false (h : Ends body again s s') : again s' = false := by
  induction h with
  | stop h => exact h
  | turn _ _ ih => exact ih

/-- What each turn keeps, the loop keeps. -/
theorem Ends.keeps (h : Ends body again s s') {f : σ → γ} (hf : ∀ s, f (body s) = f s) :
    f s' = f s := by
  induction h with
  | stop _ => exact hf _
  | turn _ _ ih => rw [ih, hf]

end repeat_loop

open repeat_loop trimming

namespace xellissime_book.text

/-! ## The first loop -/

/-- The Characters that the cleaning drops at the ends. -/
def isSpaceOrQuote (c : Char) : Bool := c == ' ' || c == '"'

theorem spaceOrQuote_some (c : Char) : spaceOrQuote (some c) = isSpaceOrQuote c := rfl

theorem cleanEnds_of_not_trimsAgain {s : List Char} (h : trimsAgain s = false) :
    CleanEnds isSpaceOrQuote s := by
  simp only [trimsAgain, Bool.or_eq_false_iff] at h
  refine ⟨fun c hc => ?_, fun c hc => ?_⟩
  · rw [← spaceOrQuote_some, ← Option.mem_def.mp hc]
    exact h.1
  · rw [← spaceOrQuote_some, ← Option.mem_def.mp hc]
    exact h.2

theorem trim_dropLast {s : List Char} (h : spaceOrQuote s.getLast? = true) :
    trim isSpaceOrQuote s.dropLast = trim isSpaceOrQuote s := by
  cases hlast : s.getLast? with
  | none =>
    rw [hlast] at h
    cases h
  | some c =>
    rw [hlast, spaceOrQuote_some] at h
    rw [← trim_concat_of_pos h, List.dropLast_append_getLast? c hlast]

theorem trim_tail {s : List Char} (h : spaceOrQuote s.head? = true) :
    trim isSpaceOrQuote s.tail = trim isSpaceOrQuote s := by
  cases s with
  | nil => cases h
  | cons c rest =>
    rw [List.head?_cons, spaceOrQuote_some] at h
    rw [trim_cons_of_pos h]
    rfl

/-- A turn drops nothing that the trimmed text keeps. -/
theorem trim_trimTurn (s : List Char) :
    trim isSpaceOrQuote (trimTurn s) = trim isSpaceOrQuote s := by
  have hlast : trim isSpaceOrQuote (if spaceOrQuote s.getLast? then s.dropLast else s) =
      trim isSpaceOrQuote s := by
    split
    · rename_i h
      exact trim_dropLast h
    · rfl
  have hfirst (t : List Char) : trim isSpaceOrQuote (if spaceOrQuote t.head? then t.tail else t) =
      trim isSpaceOrQuote t := by
    split
    · rename_i h
      exact trim_tail h
    · rfl
  unfold trimTurn
  exact (hfirst _).trans hlast

/-- The first loop comes to its end. -/
theorem ends_trimLoop (s : List Char) : Ends trimTurn trimsAgain s (trimLoop s) := by
  induction s using trimLoop.induct with
  | case1 s h ih =>
    rw [trimLoop, if_pos h]
    exact .turn h ih
  | case2 s h =>
    rw [trimLoop, if_neg h]
    exact .stop (by simpa using h)

theorem trimLoop_eq_trim (s : List Char) : trimLoop s = trim isSpaceOrQuote s := by
  have hends := ends_trimLoop s
  have hclean := cleanEnds_of_not_trimsAgain hends.again_eq_false
  rw [← trim_of_cleanEnds hclean]
  exact hends.keeps trim_trimTurn

/-! ## The second loop -/

theorem noPair_of_not_containsPair {s : List Char} (h : containsPair s = false) :
    NoPair ' ' s := by
  unfold NoPair
  induction s using containsPair.induct with
  | case1 rest => simp [containsPair] at h
  | case2 c rest hne ih =>
    rw [containsPair] at h
    · refine List.IsChain.cons (ih h) ?_
      rintro d hd ⟨rfl, rfl⟩
      obtain ⟨more, rfl⟩ := List.head?_eq_some_iff.mp hd
      exact hne more rfl rfl
    · exact hne
  | case3 => exact List.isChain_nil

/-- A pass takes no run out and splits none. -/
theorem collapse_replacePairs (s : List Char) :
    collapse ' ' (replacePairs s) = collapse ' ' s := by
  induction s using replacePairs.induct with
  | case1 rest ih =>
    rw [replacePairs, collapse_cons_cons_self]
    exact collapse_cons_congr ih ' '
  | case2 c rest hne ih =>
    rw [replacePairs]
    · exact collapse_cons_congr ih c
    · exact hne
  | case3 => rfl

/-- The second loop comes to its end. -/
theorem ends_replaceLoop (s : List Char) : Ends replacePairs containsPair s (replaceLoop s) := by
  induction s using replaceLoop.induct with
  | case1 s h ih =>
    rw [replaceLoop, if_pos h]
    exact .turn h ih
  | case2 s h =>
    rw [replaceLoop, if_neg h]
    exact .stop (by simpa using h)

theorem replaceLoop_eq_collapse (s : List Char) : replaceLoop s = collapse ' ' s := by
  have hends := ends_replaceLoop s
  have hpair := noPair_of_not_containsPair hends.again_eq_false
  rw [← collapse_of_noPair hpair]
  exact hends.keeps collapse_replacePairs

/-! ## The law -/

/-- What the cleaning is for: no space or quote at an end, and one space for
each run of spaces in between. -/
def cleaned (s : List Char) : List Char := collapse ' ' (trim isSpaceOrQuote s)

theorem toList_cleaning (s : String) :
    (removeFirstAndLastAndDoubleWhitespace s).toList = cleaned s.toList := by
  unfold removeFirstAndLastAndDoubleWhitespace cleaned
  rw [String.toList_ofList, replaceLoop_eq_collapse, trimLoop_eq_trim]

theorem cleanEnds_cleaned (s : List Char) : CleanEnds isSpaceOrQuote (cleaned s) :=
  cleanEnds_collapse (cleanEnds_trim isSpaceOrQuote s)

theorem noPair_cleaned (s : List Char) : NoPair ' ' (cleaned s) :=
  noPair_collapse (trim isSpaceOrQuote s)

theorem cleaned_cleaned (s : List Char) : cleaned (cleaned s) = cleaned s := by
  have htrim := trim_of_cleanEnds (cleanEnds_cleaned s)
  have hcollapse := collapse_of_noPair (noPair_cleaned s)
  rw [cleaned, htrim, hcollapse]

/-- A text cleans to nothing exactly when it has only spaces and quotes. -/
theorem cleaning_eq_empty_iff (s : String) :
    removeFirstAndLastAndDoubleWhitespace s = "" ↔ ∀ c ∈ s.toList, isSpaceOrQuote c = true := by
  rw [← trim_eq_nil_iff, ← String.toList_inj, toList_cleaning, String.toList_empty]
  unfold cleaned
  rw [← List.head?_eq_none_iff, head?_collapse, List.head?_eq_none_iff]

/-- The cleaning comes to an end for every text and leaves the trimmed text
with its runs of spaces collapsed. So no space or quote is left at an end and
no two spaces are neighbours, and a second cleaning changes nothing. -/
theorem the_cleaning_trims_and_collapses (s : String) :
    (∃ trimmed, Ends trimTurn trimsAgain s.toList trimmed ∧
      Ends replacePairs containsPair trimmed
        (removeFirstAndLastAndDoubleWhitespace s).toList) ∧
    (removeFirstAndLastAndDoubleWhitespace s).toList =
      collapse ' ' (trim isSpaceOrQuote s.toList) ∧
    CleanEnds isSpaceOrQuote (removeFirstAndLastAndDoubleWhitespace s).toList ∧
    NoPair ' ' (removeFirstAndLastAndDoubleWhitespace s).toList ∧
    removeFirstAndLastAndDoubleWhitespace (removeFirstAndLastAndDoubleWhitespace s) =
      removeFirstAndLastAndDoubleWhitespace s := by
  refine ⟨⟨trimLoop s.toList, ends_trimLoop _, ?_⟩, toList_cleaning s, ?_, ?_, ?_⟩
  · unfold removeFirstAndLastAndDoubleWhitespace
    rw [String.toList_ofList]
    exact ends_replaceLoop _
  · rw [toList_cleaning]
    exact cleanEnds_cleaned _
  · rw [toList_cleaning]
    exact noPair_cleaned _
  · rw [← String.toList_inj, toList_cleaning, toList_cleaning, cleaned_cleaned]

end xellissime_book.text
