-- How the client cuts its messages for the web socket and puts the ones that
-- come in together (Pods/FirebaseDatabase, FUtilities.m, FWebSocketConnection.m).
-- A text is the list of its UTF-16 units.
import Mathlib.Data.List.TakeWhile
import XellissimeBook.KeyOrder

open xellissime_book.key_order

namespace xellissime_book.message_segments

/-! ## Cutting -/

/-- `substringWithRange:`. -/
def substring (str : List Nat) (start length : Nat) : List Nat := (str.drop start).take length

/-- The loop of `splitString:intoMaxSize:`. `c` is an int, negative after 2147483647
and then no smaller than the length. It ends for a size that is not 0. -/
def splitLoop (str : List Nat) (size c : Nat) : List (List Nat) :=
  if c < str.length ∧ c < 2147483648 ∧ 0 < size then
    (if str.length < c + size then substring str c (size - (c + size - str.length))
      else substring str c size) :: splitLoop str size (c + size)
  else []
termination_by str.length - c

/-- `splitString:intoMaxSize:`. -/
def splitString (str : List Nat) (size : Nat) : List (List Nat) :=
  if str.length ≤ size then [str] else splitLoop str size 0

def kWebsocketMaxFrameSize : Nat := 16384

/-- The texts that `send:` hands to the web socket for a message. -/
def send (data : List Nat) : List (List Nat) :=
  let dataSegs := splitString data kWebsocketMaxFrameSize
  if 1 < dataSegs.length then units dataSegs.length.repr :: dataSegs else dataSegs

section
variable {str : List Nat} {size c : Nat}

theorem splitLoop_of_lt (hsize : 0 < size) (hc : c < str.length) (hint : c < 2147483648) :
    splitLoop str size c = (str.drop c).take size :: splitLoop str size (c + size) := by
  rw [splitLoop, if_pos ⟨hc, hint, hsize⟩]
  congr 1
  split
  · rw [substring, List.take_of_length_le, List.take_of_length_le]
    · rw [List.length_drop]
      omega
    · rw [List.length_drop]
      omega
  · rfl

theorem splitLoop_of_le (hc : str.length ≤ c ∨ 2147483648 ≤ c) : splitLoop str size c = [] := by
  rw [splitLoop, if_neg (by omega)]

theorem flatten_splitLoop (hsize : 0 < size) (hlength : str.length ≤ 2147483648) (c : Nat) :
    (splitLoop str size c).flatten = str.drop c := by
  by_cases hc : c < str.length
  · rw [splitLoop_of_lt hsize hc (by omega), List.flatten_cons,
      flatten_splitLoop hsize hlength (c + size), ← List.drop_drop, List.take_append_drop]
  · rw [splitLoop_of_le (by omega), List.drop_of_length_le (by omega)]
    simp
termination_by str.length - c

/-- The segments begin at the multiples of the size. -/
theorem mem_splitLoop (hsize : 0 < size) (hlength : str.length ≤ 2147483648)
    {segment : List Nat} (c : Nat) :
    segment ∈ splitLoop str size c ↔
      ∃ k, c + k * size < str.length ∧ segment = (str.drop (c + k * size)).take size := by
  by_cases hc : c < str.length
  · rw [splitLoop_of_lt hsize hc (by omega), List.mem_cons, mem_splitLoop hsize hlength (c + size)]
    constructor
    · rintro (rfl | ⟨k, hk, rfl⟩)
      · exact ⟨0, by simpa using hc, by simp⟩
      · refine ⟨k + 1, ?_, ?_⟩
        · rw [Nat.succ_mul]
          omega
        · rw [Nat.succ_mul, Nat.add_comm (k * size), Nat.add_assoc]
    · rintro ⟨k, hk, rfl⟩
      cases k with
      | zero => exact Or.inl (by simp)
      | succ k =>
        rw [Nat.succ_mul, Nat.add_comm (k * size), ← Nat.add_assoc] at hk ⊢
        exact Or.inr ⟨k, hk, rfl⟩
  · rw [splitLoop_of_le (by omega)]
    constructor
    · intro h
      cases h
    · rintro ⟨k, hk, _⟩
      omega
termination_by str.length - c

/-- So many segments that the last one is not empty. -/
theorem length_splitLoop_le_iff (hsize : 0 < size) (c n : Nat) :
    (splitLoop str size c).length ≤ n ↔ str.length ≤ c + n * size ∨ 2147483648 ≤ c + n * size := by
  induction n generalizing c with
  | zero =>
    by_cases hc : c < str.length ∧ c < 2147483648
    · rw [splitLoop_of_lt hsize hc.1 hc.2, List.length_cons]
      omega
    · rw [splitLoop_of_le (by omega)]
      simp
      omega
  | succ n ih =>
    by_cases hc : c < str.length ∧ c < 2147483648
    · rw [splitLoop_of_lt hsize hc.1 hc.2, List.length_cons, Nat.succ_le_succ_iff, ih,
        Nat.succ_mul]
      omega
    · rw [splitLoop_of_le (by omega)]
      simp
      omega

theorem flatten_splitString (hsize : 0 < size) (hlength : str.length ≤ 2147483648) :
    (splitString str size).flatten = str := by
  unfold splitString
  split
  · simp
  · rw [flatten_splitLoop hsize hlength, List.drop_zero]

theorem length_splitString_le_iff (hsize : 0 < size) {n : Nat} (hn : 0 < n)
    (hint : n * size < 2147483648) :
    (splitString str size).length ≤ n ↔ str.length ≤ n * size := by
  unfold splitString
  split
  · rename_i hle
    have hmul : size ≤ n * size := Nat.le_mul_of_pos_left size hn
    simp only [List.length_singleton]
    omega
  · rw [length_splitLoop_le_iff hsize, Nat.zero_add]
    omega

end

/-! ## Surrogate pairs -/

def isHighSurrogate (unit : Nat) : Bool := 0xD800 ≤ unit && unit ≤ 0xDBFF

def isLowSurrogate (unit : Nat) : Bool := 0xDC00 ≤ unit && unit ≤ 0xDFFF

/-- The texts that `dataUsingEncoding:` gives bytes for. `_sendFrameWithOpcode:data:`
of FSRWebSocket asserts that it gets some. -/
def encodable : List Nat → Bool
  | [] => true
  | [unit] => !isLowSurrogate unit && !isHighSurrogate unit
  | unit :: next :: rest =>
    if isLowSurrogate unit then false
    else if isHighSurrogate unit then isLowSurrogate next && encodable rest
    else encodable (next :: rest)

section
variable {str : List Nat}

theorem encodable_cons {unit : Nat} (hlow : isLowSurrogate unit = false)
    (hhigh : isHighSurrogate unit = false) (rest : List Nat) :
    encodable (unit :: rest) = encodable rest := by
  cases rest with
  | nil => simp [encodable, hlow, hhigh]
  | cons next rest => simp [encodable, hlow, hhigh]

theorem encodable_pair {unit next : Nat} (hlow : isLowSurrogate unit = false)
    (hhigh : isHighSurrogate unit = true) (rest : List Nat) :
    encodable (unit :: next :: rest) = (isLowSurrogate next && encodable rest) := by
  simp [encodable, hlow, hhigh]

theorem encodable_of_low {unit : Nat} (hlow : isLowSurrogate unit = true) (rest : List Nat) :
    encodable (unit :: rest) = false := by
  cases rest with
  | nil => simp [encodable, hlow]
  | cons next rest => simp [encodable, hlow]

theorem encodable_utf16_append (c : Char) (rest : List Nat) :
    encodable (utf16 c ++ rest) = encodable rest := by
  have hc : c.toNat < 0xD800 ∨ 0xDFFF < c.toNat ∧ c.toNat < 0x110000 := c.valid
  unfold utf16
  split
  · apply encodable_cons
    · simp [isLowSurrogate]
      omega
    · simp [isHighSurrogate]
      omega
  · have hnext : isLowSurrogate (0xDC00 + (c.toNat - 0x10000) % 0x400) = true := by
      simp [isLowSurrogate]
      omega
    rw [List.cons_append, List.cons_append, List.nil_append, encodable_pair, hnext,
      Bool.true_and]
    · simp [isLowSurrogate]
      omega
    · simp [isHighSurrogate]
      omega

theorem encodable_units (s : String) : encodable (units s) = true := by
  unfold units
  induction s.toList with
  | nil => simp [encodable]
  | cons c rest ih => rw [List.flatMap_cons, encodable_utf16_append, ih]

/-- The two parts of a text that is cut before the unit at `n`: both can be
encoded, or none. -/
theorem encodable_cut (h : encodable str = true) (n : Nat) :
    encodable (str.take n) = !(str[n]?.any isLowSurrogate) ∧
      encodable (str.drop n) = !(str[n]?.any isLowSurrogate) := by
  induction str using encodable.induct generalizing n with
  | case1 => simp [encodable]
  | case2 unit =>
    simp only [encodable, Bool.and_eq_true, Bool.not_eq_true'] at h
    cases n with
    | zero => simp [encodable, h]
    | succ n => simp [encodable, h]
  | case3 unit next rest hlow => simp [encodable, hlow] at h
  | case4 unit next rest hlow hhigh ih =>
    rw [Bool.not_eq_true] at hlow
    rw [encodable_pair hlow hhigh, Bool.and_eq_true] at h
    match n with
    | 0 => simp [encodable_pair hlow hhigh, encodable, hlow, h]
    | 1 => simp [encodable_of_low h.1, encodable, hhigh, h.1]
    | n + 2 => simpa [encodable_pair hlow hhigh, h.1] using ih h.2 n
  | case5 unit next rest hlow hhigh ih =>
    rw [Bool.not_eq_true] at hlow hhigh
    rw [encodable_cons hlow hhigh] at h
    cases n with
    | zero => simp [encodable_cons hlow hhigh, encodable, hlow, h]
    | succ n => simpa [encodable_cons hlow hhigh] using ih h n

/-- A piece of a text is cut at both its ends. -/
theorem encodable_substring_iff (h : encodable str = true) {size start : Nat} (hsize : 0 < size)
    (hstart : start < str.length) :
    encodable ((str.drop start).take size) = true ↔
      str[start]?.any isLowSurrogate = false ∧
        str[start + size]?.any isLowSurrogate = false := by
  have hdrop := (encodable_cut h start).2
  cases hlow : str[start]?.any isLowSurrogate with
  | false =>
    rw [hlow, Bool.not_false] at hdrop
    rw [(encodable_cut hdrop size).1, List.getElem?_drop]
    simp
  | true =>
    have hunit : isLowSurrogate str[start] = true := by
      simpa [List.getElem?_eq_getElem hstart] using hlow
    obtain ⟨n, rfl⟩ := Nat.exists_eq_succ_of_ne_zero hsize.ne'
    rw [List.drop_eq_getElem_cons hstart, List.take_succ_cons, encodable_of_low hunit]
    simp

theorem segments_encodable_iff (h : encodable str = true) {size : Nat} (hsize : 0 < size)
    (hlength : str.length ≤ 2147483648) :
    (∀ segment ∈ splitString str size, encodable segment = true) ↔
      ∀ k, str[k * size]?.any isLowSurrogate = false := by
  have hfirst : str[0]?.any isLowSurrogate = false := by
    have hcut := (encodable_cut h 0).2
    rw [List.drop_zero, h] at hcut
    simpa using hcut.symm
  unfold splitString
  split
  · rename_i hle
    simp only [List.mem_singleton, forall_eq, h, true_iff]
    intro k
    cases k with
    | zero => simpa using hfirst
    | succ k =>
      have hend : str.length ≤ (k + 1) * size := by
        rw [Nat.succ_mul]
        omega
      rw [List.getElem?_eq_none hend]
      simp
  · constructor
    · intro hall k
      by_cases hk : k * size < str.length
      · have hmem : (str.drop (k * size)).take size ∈ splitLoop str size 0 := by
          rw [mem_splitLoop hsize hlength]
          exact ⟨k, by omega, by rw [Nat.zero_add]⟩
        exact ((encodable_substring_iff h hsize hk).mp (hall _ hmem)).1
      · rw [List.getElem?_eq_none (by omega)]
        simp
    · intro hall segment hsegment
      rw [mem_splitLoop hsize hlength] at hsegment
      obtain ⟨k, hk, rfl⟩ := hsegment
      have hnext := hall (k + 1)
      rw [Nat.zero_add] at hk ⊢
      rw [Nat.succ_mul] at hnext
      exact (encodable_substring_iff h hsize hk).mpr ⟨hall k, hnext⟩

theorem send_encodable_iff (h : encodable str = true) (hlength : str.length ≤ 2147483648) :
    (∀ text ∈ send str, encodable text = true) ↔
      ∀ k, str[k * kWebsocketMaxFrameSize]?.any isLowSurrogate = false := by
  rw [← segments_encodable_iff h (by decide) hlength]
  unfold send
  simp only
  split
  · rw [List.forall_mem_cons, and_iff_right (encodable_units _)]
  · exact Iff.rfl

/-- A text of units that are no halves of pairs. -/
theorem encodable_of_no_surrogate
    (h : ∀ unit ∈ str, isLowSurrogate unit = false ∧ isHighSurrogate unit = false) :
    encodable str = true := by
  induction str with
  | nil => rfl
  | cons unit rest ih =>
    rw [List.forall_mem_cons] at h
    rw [encodable_cons h.1.1 h.1.2]
    exact ih h.2

/-- The web socket can encode every text of a message exactly when no segment
begins with the second half of a surrogate pair. -/
theorem the_segments_can_be_encoded_iff (message : String)
    (hlength : (units message).length ≤ 2147483648) :
    (∀ text ∈ send (units message), encodable text = true) ↔
      ∀ k, (units message)[k * kWebsocketMaxFrameSize]?.any isLowSurrogate = false :=
  send_encodable_iff (encodable_units message) hlength

/-- Spaces before a Character of two units. -/
def padded (n : Nat) : String := String.ofList (List.replicate n ' ' ++ ['😀'])

theorem units_padded (n : Nat) :
    units (padded n) = List.replicate n 32 ++ [0xD83D, 0xDE00] := by
  have hspace : utf16 ' ' = [32] := by decide
  rw [units, padded, String.toList_ofList, List.flatMap_append, List.flatMap_replicate, hspace,
    List.flatten_replicate_singleton, List.append_cancel_left_eq]
  decide

/-- The cut falls between the two units of the last Character. -/
theorem the_cut_pair_cannot_be_encoded :
    ¬ ∀ text ∈ send (units (padded 16383)), encodable text = true := by
  have hlow : ∀ n, (units (padded n))[n + 1]? = some 0xDE00 := by
    intro n
    simp [units_padded]
  have hlength : (units (padded 16383)).length ≤ 2147483648 := by
    rw [units_padded, List.length_append, List.length_replicate]
    decide
  rw [the_segments_can_be_encoded_iff (padded 16383) hlength]
  intro hall
  have hcut := hall 1
  have hsize : 1 * kWebsocketMaxFrameSize = 16383 + 1 := by decide
  rw [hsize, hlow] at hcut
  simp [isLowSurrogate] at hcut

end

/-! ## Putting together -/

/-- The spaces that a number may have before it. -/
def isSpace (unit : Nat) : Bool := unit = 32 || (9 ≤ unit && unit ≤ 13)

def isDigit (unit : Nat) : Bool := 48 ≤ unit && unit ≤ 57

/-- The number that the digits at the beginning make. -/
def leadingNumber (str : List Nat) : Nat :=
  (str.takeWhile isDigit).foldl (fun value unit => 10 * value + (unit - 48)) 0

/-- `intValue`, of a text too short to overflow. -/
def intValue (str : List Nat) : Int :=
  match str.dropWhile isSpace with
  | 45 :: rest => -(leadingNumber rest : Int)
  | 43 :: rest => leadingNumber rest
  | rest => leadingNumber rest

/-- `FWebSocketConnection`, with the texts of the messages that it handed to its
delegate. -/
structure FWebSocketConnection where
  totalFrames : Int
  frame : Option (List Nat)
  messages : List (List Nat)

namespace FWebSocketConnection

def init : FWebSocketConnection := ⟨0, none, []⟩

def buffering (w : FWebSocketConnection) : Bool := w.frame.isSome

/-- `handleNewFrameCount:`. -/
def handleNewFrameCount (numFrames : Int) (w : FWebSocketConnection) : FWebSocketConnection :=
  { w with totalFrames := numFrames, frame := some [] }

/-- `extractFrameCount:`. -/
def extractFrameCount (message : List Nat) (w : FWebSocketConnection) :
    Option (List Nat) × FWebSocketConnection :=
  if message.length ≤ 4 ∧ 0 < intValue message then
    (none, w.handleNewFrameCount (intValue message))
  else (some message, w.handleNewFrameCount 1)

/-- `appendFrame:`. -/
def appendFrame (message : List Nat) (w : FWebSocketConnection) : FWebSocketConnection :=
  let w :=
    { w with frame := w.frame.map (· ++ message), totalFrames := w.totalFrames - 1 }
  if w.totalFrames = 0 then
    { w with frame := none, messages := w.messages ++ w.frame.toList }
  else w

/-- `handleIncomingFrame:`. -/
def handleIncomingFrame (w : FWebSocketConnection) (message : List Nat) : FWebSocketConnection :=
  if w.buffering then w.appendFrame message
  else
    let remaining := w.extractFrameCount message
    match remaining.1 with
    | some remainingMessage => remaining.2.appendFrame remainingMessage
    | none => remaining.2

end FWebSocketConnection

/-! ## From one end to the other -/

/-- `send:` of FSRWebSocket for the texts, and what the other end reads. A text that
has no UTF-8 data fails the assertion. -/
def transmit (texts : List (List Nat)) : Option (List (List Nat)) :=
  if texts.all encodable then some texts else none

/-- The other end, after the messages were sent. -/
def deliver (messages : List (List Nat)) : Option FWebSocketConnection :=
  (transmit (messages.flatMap send)).map fun texts =>
    texts.foldl FWebSocketConnection.handleIncomingFrame .init

theorem transmit_eq_some_iff {texts received : List (List Nat)} :
    transmit texts = some received ↔
      (∀ text ∈ texts, encodable text = true) ∧ texts = received := by
  unfold transmit
  split_ifs with h
  · rw [Option.some.injEq, and_iff_right (List.all_eq_true.mp h)]
  · rw [List.all_eq_true] at h
    exact iff_of_false (by simp) fun hencodable => h hencodable.1

/-! ## Messages that come back -/

section
variable {w : FWebSocketConnection}

open FWebSocketConnection

theorem utf16_of_isDigit {c : Char} (h : c.isDigit = true) :
    utf16 c = [c.toNat] ∧ isDigit c.toNat = true := by
  have hbounds : 48 ≤ c.toNat ∧ c.toNat ≤ 57 := by
    simp only [Char.isDigit, Bool.and_eq_true, decide_eq_true_eq, ge_iff_le] at h
    exact h
  refine ⟨?_, by simpa [isDigit] using hbounds⟩
  rw [utf16, if_pos (by omega)]

/-- The units of the digits of a number. -/
theorem units_repr (n : Nat) :
    units n.repr = (Nat.toDigits 10 n).map Char.toNat ∧
      ∀ unit ∈ units n.repr, isDigit unit = true := by
  have hdigits : ∀ c ∈ Nat.toDigits 10 n, c.isDigit = true :=
    fun c hc => Nat.isDigit_of_mem_toDigits (by omega) (by omega) hc
  have hunits : units n.repr = (Nat.toDigits 10 n).map Char.toNat := by
    rw [units, Nat.repr_eq_ofList_toDigits, String.toList_ofList, List.map_eq_flatMap]
    exact List.flatMap_congr fun c hc => (utf16_of_isDigit (hdigits c hc)).1
  refine ⟨hunits, fun unit hunit => ?_⟩
  rw [hunits] at hunit
  obtain ⟨c, hc, rfl⟩ := List.mem_map.mp hunit
  exact (utf16_of_isDigit (hdigits c hc)).2

/-- The header that counts the segments is read back. -/
theorem intValue_repr (n : Nat) : intValue (units n.repr) = n := by
  obtain ⟨hunits, hdigits⟩ := units_repr n
  have hnumber : leadingNumber (units n.repr) = n := by
    rw [leadingNumber, List.takeWhile_eq_self_iff.mpr hdigits, hunits, List.foldl_map]
    exact Nat.ofDigitChars_ten_toDigits
  cases hlist : units n.repr with
  | nil =>
    rw [hunits, List.map_eq_nil_iff] at hlist
    exact absurd hlist Nat.toDigits_ne_nil
  | cons unit rest =>
    have hdigit := hdigits unit (by simp [hlist])
    simp only [isDigit, Bool.and_eq_true, decide_eq_true_eq] at hdigit
    have hspace : isSpace unit = false := by
      simp [isSpace]
      omega
    rw [hlist] at hnumber
    rw [intValue, List.dropWhile_cons_of_neg (by simp [hspace])]
    split
    · rename_i heq
      cases heq
      omega
    · rename_i heq
      cases heq
      omega
    · rw [hnumber]

theorem length_units_repr_le_iff (n : Nat) :
    (units n.repr).length ≤ 4 ↔ n ≤ 9999 := by
  rw [(units_repr n).1, List.length_map, Nat.length_toDigits_le_iff (by omega) (by omega)]
  omega

/-- A text that begins with a brace is no count. -/
theorem intValue_of_brace {rest : List Nat} : intValue (123 :: rest) = 0 := by
  simp [intValue, isSpace, leadingNumber, isDigit]

theorem handleIncomingFrame_of_text (hidle : w.frame = none) {message : List Nat}
    (htext : ¬ (message.length ≤ 4 ∧ 0 < intValue message)) :
    w.handleIncomingFrame message =
      { totalFrames := 0, frame := none, messages := w.messages ++ [message] } := by
  simp [handleIncomingFrame, buffering, hidle, extractFrameCount, htext, handleNewFrameCount,
    appendFrame]

theorem handleIncomingFrame_of_count (hidle : w.frame = none) {n : Nat} (hpos : 0 < n)
    (hn : n ≤ 9999) :
    w.handleIncomingFrame (units n.repr) =
      { totalFrames := n, frame := some [], messages := w.messages } := by
  have hlength := (length_units_repr_le_iff n).mpr hn
  simp [handleIncomingFrame, buffering, hidle, extractFrameCount, hlength, intValue_repr,
    hpos, handleNewFrameCount]

/-- The counted segments are appended until the last one completes the message. -/
theorem foldl_segments {segments : List (List Nat)} {w : FWebSocketConnection} {start : List Nat}
    (hne : segments ≠ []) (hframe : w.frame = some start)
    (hcount : w.totalFrames = segments.length) :
    segments.foldl handleIncomingFrame w =
      { totalFrames := 0, frame := none
        messages := w.messages ++ [start ++ segments.flatten] } := by
  induction segments generalizing w start with
  | nil => exact absurd rfl hne
  | cons segment rest ih =>
    rw [List.foldl_cons]
    cases rest with
    | nil =>
      simp [handleIncomingFrame, buffering, hframe, appendFrame, hcount]
    | cons next rest =>
      have hmore : w.totalFrames - 1 ≠ 0 := by
        rw [hcount]
        simp only [List.length_cons]
        omega
      have hstep : w.handleIncomingFrame segment =
          { totalFrames := w.totalFrames - 1, frame := some (start ++ segment)
            messages := w.messages } := by
        simp [handleIncomingFrame, buffering, hframe, appendFrame, hmore]
      have hnext : (FWebSocketConnection.mk (w.totalFrames - 1) (some (start ++ segment))
          w.messages).frame = some (start ++ segment) := rfl
      rw [hstep, ih (by simp) hnext]
      · simp
      · simp only [hcount, List.length_cons]
        omega

theorem splitString_eq_singleton {message : List Nat}
    (hone : (splitString message kWebsocketMaxFrameSize).length ≤ 1) :
    splitString message kWebsocketMaxFrameSize = [message] := by
  rw [length_splitString_le_iff (by decide) (by omega) (by decide), Nat.one_mul] at hone
  rw [splitString, if_pos hone]

/-- A message that begins with a brace, in at most 9999 segments, comes back. -/
theorem foldl_send (hidle : w.frame = none) {message : List Nat}
    (hbrace : message.head? = some 123)
    (hfits : message.length ≤ 9999 * kWebsocketMaxFrameSize) :
    (send message).foldl handleIncomingFrame w =
      { totalFrames := 0, frame := none, messages := w.messages ++ [message] } := by
  have hsize : 0 < kWebsocketMaxFrameSize := by decide
  have hint : 9999 * kWebsocketMaxFrameSize < 2147483648 := by decide
  have hflatten : (splitString message kWebsocketMaxFrameSize).flatten = message :=
    flatten_splitString hsize (by omega)
  have hcount : (splitString message kWebsocketMaxFrameSize).length ≤ 9999 :=
    (length_splitString_le_iff hsize (by omega) hint).mpr hfits
  unfold send
  simp only
  split
  · rename_i hmany
    have hne : splitString message kWebsocketMaxFrameSize ≠ [] := by
      intro hnil
      rw [hnil] at hmany
      simp at hmany
    have hempty : (FWebSocketConnection.mk (splitString message kWebsocketMaxFrameSize).length
        (some []) w.messages).frame = some [] := rfl
    rw [List.foldl_cons, handleIncomingFrame_of_count hidle (by omega) hcount,
      foldl_segments hne hempty rfl, hflatten, List.nil_append]
  · rename_i hone
    rw [splitString_eq_singleton (by omega), List.foldl_cons, List.foldl_nil]
    apply handleIncomingFrame_of_text hidle
    obtain ⟨rest, rfl⟩ := List.head?_eq_some_iff.mp hbrace
    simp [intValue_of_brace]

theorem foldl_flatMap_send (hidle : w.frame = none) {messages : List (List Nat)}
    (hbrace : ∀ message ∈ messages, message.head? = some 123)
    (hfits : ∀ message ∈ messages, message.length ≤ 9999 * kWebsocketMaxFrameSize) :
    ((messages.flatMap send).foldl handleIncomingFrame w).messages = w.messages ++ messages ∧
      ((messages.flatMap send).foldl handleIncomingFrame w).frame = none := by
  induction messages generalizing w with
  | nil => exact ⟨by simp, hidle⟩
  | cons message rest ih =>
    rw [List.forall_mem_cons] at hbrace hfits
    rw [List.flatMap_cons, List.foldl_append, foldl_send hidle hbrace.1 hfits.1]
    obtain ⟨hmessages, hframe⟩ := ih (w := { totalFrames := 0, frame := none
                                             messages := w.messages ++ [message] })
      rfl hbrace.2 hfits.2
    exact ⟨by rw [hmessages]; simp, hframe⟩

/-- A row of messages, each an object in its text, comes back as it was sent, cut
or not, when none has more than 9999 segments and each segment can be encoded. -/
theorem the_messages_come_back {messages : List (List Nat)}
    (hbrace : ∀ message ∈ messages, message.head? = some 123)
    (hfits : ∀ message ∈ messages, message.length ≤ 9999 * kWebsocketMaxFrameSize)
    (hencodable : ∀ message ∈ messages, ∀ text ∈ send message, encodable text = true) :
    ∃ w, deliver messages = some w ∧ w.messages = messages ∧ w.frame = none := by
  obtain ⟨hmessages, hframe⟩ := foldl_flatMap_send (w := .init) rfl hbrace hfits
  have htransmit : transmit (messages.flatMap send) = some (messages.flatMap send) := by
    refine transmit_eq_some_iff.mpr ⟨fun text htext => ?_, rfl⟩
    obtain ⟨message, hmessage, htext⟩ := List.mem_flatMap.mp htext
    exact hencodable message hmessage text htext
  exact ⟨_, by rw [deliver, htransmit, Option.map_some], hmessages, hframe⟩

/-- A message that is cut in two. -/
def longMessage : List Nat := 123 :: List.replicate 20000 32 ++ [125]

theorem length_longMessage : longMessage.length = 20002 := by
  rw [longMessage, List.length_append, List.length_cons, List.length_replicate]
  rfl

theorem no_surrogate_longMessage :
    ∀ unit ∈ longMessage, isLowSurrogate unit = false ∧ isHighSurrogate unit = false := by
  intro unit hunit
  simp only [longMessage, List.mem_append, List.mem_cons, List.mem_replicate,
    List.not_mem_nil, or_false] at hunit
  rcases hunit with (rfl | ⟨_, rfl⟩) | rfl
  · decide
  · decide
  · decide

theorem no_low_longMessage (k : Nat) :
    longMessage[k * kWebsocketMaxFrameSize]?.any isLowSurrogate = false := by
  cases hunit : longMessage[k * kWebsocketMaxFrameSize]? with
  | none => rfl
  | some unit => exact (no_surrogate_longMessage unit (List.mem_of_getElem? hunit)).1

theorem encodable_longMessage : ∀ text ∈ send longMessage, encodable text = true := by
  have hlength : longMessage.length ≤ 2147483648 := by
    rw [length_longMessage]
    decide
  rw [send_encodable_iff (encodable_of_no_surrogate no_surrogate_longMessage) hlength]
  exact no_low_longMessage

theorem the_long_message_comes_back :
    ∃ w, deliver [longMessage, units "\x7b\x7d"] = some w ∧
      w.messages = [longMessage, units "\x7b\x7d"] ∧ w.frame = none := by
  apply the_messages_come_back
  · intro message hmessage
    rw [List.mem_pair] at hmessage
    rcases hmessage with rfl | rfl
    · rfl
    · decide
  · intro message hmessage
    rw [List.mem_pair] at hmessage
    rcases hmessage with rfl | rfl
    · rw [length_longMessage]
      decide
    · decide
  · intro message hmessage
    rw [List.mem_pair] at hmessage
    rcases hmessage with rfl | rfl
    · exact encodable_longMessage
    · decide

/-- What was handed over stays. -/
theorem messages_grow (w : FWebSocketConnection) (message : List Nat) :
    w.messages <+: (w.handleIncomingFrame message).messages := by
  have happend : ∀ w' : FWebSocketConnection, w'.messages = w.messages →
      ∀ text, w.messages <+: (w'.appendFrame text).messages := by
    intro w' hw' text
    simp only [appendFrame]
    split
    · simp [hw']
    · simp [hw']
  simp only [handleIncomingFrame]
  split
  · exact happend w rfl message
  · have hextract : (extractFrameCount message w).2.messages = w.messages := by
      simp only [extractFrameCount]
      split <;> rfl
    split
    · exact happend _ hextract _
    · exact ⟨[], by rw [List.append_nil, hextract]⟩

theorem messages_grow_foldl (w : FWebSocketConnection) (frames : List (List Nat)) :
    w.messages <+: (frames.foldl handleIncomingFrame w).messages := by
  induction frames generalizing w with
  | nil => exact List.prefix_refl _
  | cons message rest ih => exact (messages_grow w message).trans (ih _)

/-- A header of five digits is taken for a message. -/
theorem not_comes_back {message : List Nat} (hbrace : message.head? = some 123)
    (hlong : 9999 * kWebsocketMaxFrameSize < message.length) :
    ((send message).foldl handleIncomingFrame .init).messages ≠ [message] := by
  have hsize : 0 < kWebsocketMaxFrameSize := by decide
  have hint : 9999 * kWebsocketMaxFrameSize < 2147483648 := by decide
  have hcount : ¬ (splitString message kWebsocketMaxFrameSize).length ≤ 9999 := by
    rw [length_splitString_le_iff hsize (by omega) hint]
    omega
  generalize hn : (splitString message kWebsocketMaxFrameSize).length = n at hcount
  have hheader : ¬ ((units n.repr).length ≤ 4 ∧ 0 < intValue (units n.repr)) := by
    rw [length_units_repr_le_iff]
    omega
  have hsend : send message =
      units n.repr :: splitString message kWebsocketMaxFrameSize := by
    simp only [send, hn]
    rw [if_pos (by omega)]
  rw [hsend, List.foldl_cons, handleIncomingFrame_of_text rfl hheader]
  intro hback
  have hfirst := messages_grow_foldl
    { totalFrames := 0, frame := none
      messages := FWebSocketConnection.init.messages ++ [units n.repr] }
    (splitString message kWebsocketMaxFrameSize)
  rw [hback] at hfirst
  have heq : units n.repr = message := by
    simpa [FWebSocketConnection.init] using hfirst
  have hdigit := (units_repr n).2 123 (by
    rw [heq]
    exact List.mem_of_head? hbrace)
  simp [isDigit] at hdigit

/-- The count of the segments is read as one exactly up to four digits, and the
segments arrive exactly where no cut falls into a surrogate pair. -/
theorem a_message_comes_back_iff {message : List Nat} (hbrace : message.head? = some 123)
    (hvalid : encodable message = true) :
    (deliver [message]).map (·.messages) = some [message] ↔
      message.length ≤ 9999 * kWebsocketMaxFrameSize ∧
        ∀ k, message[k * kWebsocketMaxFrameSize]?.any isLowSurrogate = false := by
  have hint : 9999 * kWebsocketMaxFrameSize ≤ 2147483648 := by decide
  have hsend : [message].flatMap send = send message := by simp
  rw [deliver, hsend, Option.map_map]
  constructor
  · intro hback
    obtain ⟨texts, htexts, hmessages⟩ := Option.map_eq_some_iff.mp hback
    obtain ⟨hencodable, rfl⟩ := transmit_eq_some_iff.mp htexts
    have hfits : message.length ≤ 9999 * kWebsocketMaxFrameSize := by
      by_contra hlong
      exact not_comes_back hbrace (by omega) hmessages
    exact ⟨hfits, (send_encodable_iff hvalid (by omega)).mp hencodable⟩
  · rintro ⟨hfits, hcuts⟩
    have hencodable := (send_encodable_iff hvalid (by omega)).mpr hcuts
    rw [transmit_eq_some_iff.mpr ⟨hencodable, rfl⟩, Option.map_some, Function.comp_apply,
      foldl_send rfl hbrace hfits]
    rfl

theorem the_cut_message_comes_back :
    (deliver [longMessage]).map (·.messages) = some [longMessage] := by
  have hbrace : longMessage.head? = some 123 := rfl
  have hvalid := encodable_of_no_surrogate no_surrogate_longMessage
  rw [a_message_comes_back_iff hbrace hvalid, length_longMessage]
  exact ⟨by decide, no_low_longMessage⟩

end

end xellissime_book.message_segments
