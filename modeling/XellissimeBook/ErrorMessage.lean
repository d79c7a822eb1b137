-- The message between the quotes of a Firebase error
-- (`getErrorMessageFromFireBase`, Model/Utilities.swift), and the law of where
-- its loop finds the two quotes.
import Mathlib.Data.List.Count

namespace xellissime_book.error_message

/-! ## The function -/

/-- What ends the app at run time. -/
inductive Trap where
  | indexOutOfBounds
  | upperBoundBelowLowerBound
  deriving DecidableEq

/-- `error.index(error.startIndex, offsetBy:)`, as the offset. -/
def index (error : List Char) (offset : Nat) : Except Trap Nat :=
  if offset ≤ error.length then .ok offset else .error .indexOutOfBounds

/-- `error[(lower..<upper)]`. -/
def slice (error : List Char) (lower upper : Nat) : Except Trap (List Char) :=
  if lower ≤ upper then .ok ((error.take upper).drop lower)
  else .error .upperBoundBelowLowerBound

/-- The variables of the loop. -/
structure Quotes where
  counter : Nat := 0
  start : Nat := 0
  /-- `end` of the source. -/
  stop : Nat := 0

/-- One turn of the loop. A `start` or `stop` of 0 says that no quote was found
so far. -/
def turn (q : Quotes) (char : Char) : Quotes :=
  let q :=
    if char = '"' then
      let q := if q.start = 0 then { q with start := q.counter } else q
      if q.stop = 0 ∨ q.stop = q.start then { q with stop := q.counter } else q
    else q
  { q with counter := q.counter + 1 }

/-- `getErrorMessageFromFireBase(error:)`. -/
def getErrorMessageFromFireBase (error : String) : Except Trap (Option String) :=
  let error := error.toList
  let counterQuote := error.count '"'
  if counterQuote ≠ 2 then .ok none
  else do
    let q := error.foldl turn {}
    let sentenceStartIndex ← index error (q.start + 1)
    let sentenceEndIndex ← index error q.stop
    let myWarning ← slice error sentenceStartIndex sentenceEndIndex
    return some (String.ofList myWarning)

/-! ## The loop -/

/-- Between the quotes, the loop only counts. -/
theorem foldl_turn_of_no_quote {l : List Char} (h : '"' ∉ l) (q : Quotes) :
    l.foldl turn q = { q with counter := q.counter + l.length } := by
  induction l generalizing q with
  | nil => rfl
  | cons c rest ih =>
    have hc : c ≠ '"' := fun hc => h (hc ▸ List.mem_cons_self)
    have hturn : turn q c = { q with counter := q.counter + 1 } := by
      unfold turn
      rw [if_neg hc]
    rw [List.foldl_cons, hturn, ih fun hr => h (List.mem_cons_of_mem c hr), List.length_cons]
    simp only [Quotes.mk.injEq, and_true]
    omega

/-- The text has two quotes, at the ends of the message. -/
structure Quoted (error before message after : List Char) : Prop where
  text : error = before ++ '"' :: (message ++ '"' :: after)
  before : '"' ∉ before
  message : '"' ∉ message
  after : '"' ∉ after

variable {error before message after : List Char}

theorem Quoted.count (h : Quoted error before message after) : error.count '"' = 2 := by
  rw [h.text, List.count_append, List.count_cons_self, List.count_append, List.count_cons_self,
    List.count_eq_zero_of_not_mem h.before, List.count_eq_zero_of_not_mem h.message,
    List.count_eq_zero_of_not_mem h.after]

/-- Two quotes split the text in three. -/
theorem exists_quoted (h : error.count '"' = 2) :
    ∃ before message after, Quoted error before message after := by
  have hfirst : '"' ∈ error := List.count_pos_iff.mp (by omega)
  obtain ⟨before, rest, rfl, hbefore⟩ := List.eq_append_cons_of_mem hfirst
  rw [List.count_append, List.count_cons_self, List.count_eq_zero_of_not_mem hbefore] at h
  have hsecond : '"' ∈ rest := List.count_pos_iff.mp (by omega)
  obtain ⟨message, after, rfl, hmessage⟩ := List.eq_append_cons_of_mem hsecond
  rw [List.count_append, List.count_cons_self, List.count_eq_zero_of_not_mem hmessage] at h
  have hafter : after.count '"' = 0 := by omega
  exact ⟨before, message, after, rfl, hbefore, hmessage, List.count_eq_zero.mp hafter⟩

/-- The first quote is not marked as found where it is the first Character. Then
the second one takes both marks. -/
theorem Quoted.foldl_turn (h : Quoted error before message after) :
    error.foldl turn {} =
      { counter := error.length
        start := if before = [] then message.length + 1 else before.length
        stop := before.length + (message.length + 1) } := by
  rw [h.text, List.foldl_append, foldl_turn_of_no_quote h.before, List.foldl_cons,
    List.foldl_append]
  by_cases hb : before = []
  · have hturn : turn { counter := 0 + before.length } '"' = { counter := 1 } := by
      rw [hb]
      rfl
    rw [hturn, foldl_turn_of_no_quote h.message, List.foldl_cons]
    have hturn : turn { counter := 1 + message.length } '"' =
        { counter := message.length + 2
          start := message.length + 1
          stop := message.length + 1 } := by
      simp [turn]
      omega
    rw [hturn, foldl_turn_of_no_quote h.after, hb]
    simp
    omega
  · have hpos : before.length ≠ 0 := fun h0 => hb (List.eq_nil_of_length_eq_zero h0)
    have hturn : turn { counter := 0 + before.length } '"' =
        { counter := before.length + 1
          start := before.length
          stop := before.length } := by
      simp [turn]
    rw [hturn, foldl_turn_of_no_quote h.message, List.foldl_cons]
    have hturn : turn
        { counter := before.length + 1 + message.length
          start := before.length
          stop := before.length } '"' =
        { counter := before.length + message.length + 2
          start := before.length
          stop := before.length + (message.length + 1) } := by
      simp [turn, hpos]
      omega
    rw [hturn, foldl_turn_of_no_quote h.after]
    simp [hb]
    omega

/-! ## The law -/

theorem getErrorMessage_of_no_pair {error : String} (h : error.toList.count '"' ≠ 2) :
    getErrorMessageFromFireBase error = .ok none := by
  unfold getErrorMessageFromFireBase
  exact if_pos h

/-- With both marks on the second quote, the bounds of the slice cross. -/
theorem getErrorMessage_of_first {error : String}
    (h : Quoted error.toList [] message after) :
    getErrorMessageFromFireBase error = .error .upperBoundBelowLowerBound := by
  unfold getErrorMessageFromFireBase
  dsimp only
  rw [if_neg (not_not.mpr h.count), h.foldl_turn]
  have hlen : error.toList.length = message.length + 1 + (after.length + 1) := by
    rw [h.text]
    simp
    omega
  have hstart : index error.toList (message.length + 1 + 1) = .ok (message.length + 1 + 1) :=
    if_pos (by omega)
  have hstop : index error.toList (0 + (message.length + 1)) = .ok (message.length + 1) := by
    rw [Nat.zero_add]
    exact if_pos (by omega)
  have hslice : slice error.toList (message.length + 1 + 1) (message.length + 1) =
      .error .upperBoundBelowLowerBound := if_neg (by omega)
  rw [if_pos rfl, List.length_nil, hstart, hstop]
  change (slice _ _ _ >>= _) = _
  rw [hslice]
  rfl

theorem getErrorMessage_of_later {error : String}
    (h : Quoted error.toList before message after) (hb : before ≠ []) :
    getErrorMessageFromFireBase error = .ok (some (String.ofList message)) := by
  unfold getErrorMessageFromFireBase
  dsimp only
  rw [if_neg (not_not.mpr h.count), h.foldl_turn, if_neg hb]
  have hlen : error.toList.length =
      before.length + (message.length + 1) + (after.length + 1) := by
    rw [h.text]
    simp
    omega
  have hstart : index error.toList (before.length + 1) = .ok (before.length + 1) :=
    if_pos (by omega)
  have hstop : index error.toList (before.length + (message.length + 1)) =
      .ok (before.length + (message.length + 1)) := if_pos (by omega)
  have hslice : slice error.toList (before.length + 1) (before.length + (message.length + 1)) =
      .ok message := by
    unfold slice
    rw [if_pos (by omega), h.text, List.take_length_add_append, List.take_succ_cons,
      List.take_left, List.drop_length_add_append]
    rfl
  rw [hstart, hstop]
  change (slice _ _ _ >>= _) = _
  rw [hslice]
  rfl

/-- What the function is for: it returns, with no message exactly when the text
has not two quotes, and else with the message between them. -/
def Extracts (error : String) : Prop :=
  ∃ result, getErrorMessageFromFireBase error = .ok result ∧
    (result = none ↔ error.toList.count '"' ≠ 2) ∧
    ∀ before message after, Quoted error.toList before message after →
      result = some (String.ofList message)

/-- The message is extracted exactly when the text does not begin with the
first of two quotes. -/
theorem the_message_is_extracted_iff (error : String) :
    Extracts error ↔ ¬ (error.toList.count '"' = 2 ∧ error.toList.head? = some '"') := by
  by_cases hcount : error.toList.count '"' = 2
  · obtain ⟨before, message, after, h⟩ := exists_quoted hcount
    cases before with
    | nil =>
      have hhead : error.toList.head? = some '"' := by
        rw [h.text]
        rfl
      refine ⟨fun hex => ?_, fun hn => absurd ⟨hcount, hhead⟩ hn⟩
      obtain ⟨result, hok, _⟩ := hex
      rw [getErrorMessage_of_first h] at hok
      cases hok
    | cons c rest =>
      have hc : c ≠ '"' := fun hc => h.before (hc ▸ List.mem_cons_self)
      have hhead : error.toList.head? = some c := by
        rw [h.text]
        rfl
      refine ⟨fun _ hn => ?_, fun _ => ?_⟩
      · rw [hhead] at hn
        exact hc (Option.some.inj hn.2)
      · refine ⟨_, getErrorMessage_of_later h (List.cons_ne_nil c rest), ?_, ?_⟩
        · simp [hcount]
        · intro before' message' after' h'
          have hsame : (Except.ok (some (String.ofList message)) : Except Trap _) =
              .ok (some (String.ofList message')) := by
            rw [← getErrorMessage_of_later h (List.cons_ne_nil c rest)]
            apply getErrorMessage_of_later h'
            rintro rfl
            rw [h'.text] at hhead
            exact hc (Option.some.inj hhead).symm
          exact Except.ok.inj hsame
  · refine ⟨fun _ hn => hcount hn.1, fun _ => ?_⟩
    refine ⟨none, getErrorMessage_of_no_pair hcount, ?_, ?_⟩
    · simp [hcount]
    · intro _ _ _ h
      exact absurd h.count hcount

example : getErrorMessageFromFireBase "This is an \"Expression to extract\" thank you" =
    .ok (some "Expression to extract") := by
  decide +kernel

/-- A text that begins with its message ends the app. -/
theorem a_leading_quote_traps : ¬ Extracts "\"Expression to extract\" thank you" := by
  rintro ⟨result, hok, _⟩
  have htrap : getErrorMessageFromFireBase "\"Expression to extract\" thank you" =
      .error .upperBoundBelowLowerBound := by
    decide +kernel
  rw [htrap] at hok
  cases hok

end xellissime_book.error_message
