-- The cleaning of a typed text (Model/TextAndString.swift). A Swift string is
-- a sequence of Characters, here one `Char` for each Character. The database reads
-- the same `String` by its UTF-8 and UTF-16 units, one Unicode scalar a `Char`: the
-- two readings agree on the texts whose Characters are single scalars.
import Mathlib.Data.List.Basic

namespace xellissime_book.text

/-- The Characters that the first loop drops at both ends. -/
def spaceOrQuote (c : Option Char) : Bool := c == some ' ' || c == some '"'

/-- One turn of the first loop: at most one Character at each end. -/
def trimTurn (s : List Char) : List Char :=
  let s := if spaceOrQuote s.getLast? then s.dropLast else s
  if spaceOrQuote s.head? then s.tail else s

/-- The test of the first loop. -/
def trimsAgain (s : List Char) : Bool := spaceOrQuote s.head? || spaceOrQuote s.getLast?

theorem trimTurn_of_not_trimsAgain (s : List Char) (h : trimsAgain s = false) :
    trimTurn s = s := by
  simp only [trimsAgain, Bool.or_eq_false_iff] at h
  simp [trimTurn, h.1, h.2]

/-- A turn that drops nothing is the last. -/
theorem trimTurn_length_lt (s : List Char) (h : trimsAgain (trimTurn s) = true) :
    (trimTurn s).length < s.length := by
  have hs : trimsAgain s = true := by
    by_contra hs
    rw [trimTurn_of_not_trimsAgain s (by simpa using hs)] at h
    exact hs h
  cases s with
  | nil => simp [trimsAgain, spaceOrQuote] at hs
  | cons c rest =>
    unfold trimTurn
    dsimp only
    by_cases hl : spaceOrQuote (c :: rest).getLast?
    · rw [if_pos hl]
      split_ifs
      · rw [List.length_tail, List.length_dropLast, List.length_cons]; omega
      · rw [List.length_dropLast, List.length_cons]; omega
    · have hh : spaceOrQuote (c :: rest).head? = true := by
        simp only [trimsAgain, Bool.or_eq_true] at hs
        exact hs.resolve_right hl
      rw [if_neg hl, if_pos hh]
      simp

/-- The first `repeat`: drop spaces and quotes at both ends. -/
def trimLoop (s : List Char) : List Char :=
  if trimsAgain (trimTurn s) then trimLoop (trimTurn s) else trimTurn s
termination_by s.length
decreasing_by exact trimTurn_length_lt s ‹_›

/-- `replacingOccurrences(of: "  ", with: " ")`: one pass from the left over
pairs that do not overlap. -/
def replacePairs : List Char → List Char
  | ' ' :: ' ' :: rest => ' ' :: replacePairs rest
  | c :: rest => c :: replacePairs rest
  | [] => []

/-- `contains("  ")`. -/
def containsPair : List Char → Bool
  | ' ' :: ' ' :: _ => true
  | _ :: rest => containsPair rest
  | [] => false

theorem replacePairs_of_not_containsPair (s : List Char) (h : containsPair s = false) :
    replacePairs s = s := by
  induction s using replacePairs.induct with
  | case1 rest _ => simp [containsPair] at h
  | case2 c rest hne ih =>
    have hrest : containsPair rest = false := by
      rw [containsPair] at h
      · exact h
      · exact hne
    rw [replacePairs, ih hrest]
    exact hne
  | case3 => rfl

theorem replacePairs_length_le (s : List Char) : (replacePairs s).length ≤ s.length := by
  induction s using replacePairs.induct with
  | case1 rest ih => simp only [replacePairs, List.length_cons]; omega
  | case2 c rest hne ih =>
    rw [replacePairs]
    · simp only [List.length_cons]; omega
    · exact hne
  | case3 => simp [replacePairs]

/-- A pass with a pair to replace makes the text shorter. -/
theorem replacePairs_length_lt (s : List Char) (h : containsPair (replacePairs s) = true) :
    (replacePairs s).length < s.length := by
  have hs : containsPair s = true := by
    by_contra hs
    rw [replacePairs_of_not_containsPair s (by simpa using hs)] at h
    exact hs h
  clear h
  induction s using replacePairs.induct with
  | case1 rest _ =>
    have := replacePairs_length_le rest
    simp only [replacePairs, List.length_cons]
    omega
  | case2 c rest hne ih =>
    rw [containsPair] at hs
    · have := ih hs
      rw [replacePairs]
      · simp only [List.length_cons]; omega
      · exact hne
    · exact hne
  | case3 => simp [containsPair] at hs

/-- The second `repeat`: replace pairs of spaces until none is left. -/
def replaceLoop (s : List Char) : List Char :=
  if containsPair (replacePairs s) then replaceLoop (replacePairs s) else replacePairs s
termination_by s.length
decreasing_by exact replacePairs_length_lt s ‹_›

/-- `String.removeFirstAndLastAndDoubleWhitespace`, as the string it leaves. -/
def removeFirstAndLastAndDoubleWhitespace (s : String) : String :=
  String.ofList (replaceLoop (trimLoop s.toList))

example : removeFirstAndLastAndDoubleWhitespace " \"the  red   fox\" " = "the red fox" := by
  decide +kernel

end xellissime_book.text
