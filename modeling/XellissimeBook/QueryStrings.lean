-- The query of a URL: how a reader takes it apart, and what the reader gets
-- where the values were put between the separators as they are, with no
-- Character escaped.
import Mathlib.Data.List.Basic

namespace query_strings

/-! ## Percent decoding -/

/-- The value of a hexadecimal digit. -/
def hexDigit (c : Char) : Option UInt8 :=
  if '0' ≤ c ∧ c ≤ '9' then some (c.toNat - '0'.toNat).toUInt8
  else if 'A' ≤ c ∧ c ≤ 'F' then some (c.toNat - 'A'.toNat + 10).toUInt8
  else if 'a' ≤ c ∧ c ≤ 'f' then some (c.toNat - 'a'.toNat + 10).toUInt8
  else none

/-- The bytes of the text, with one byte for each escape. None where a percent
sign has no two digits behind it. -/
def unescape : List Char → Option (List UInt8)
  | [] => some []
  | '%' :: high :: low :: rest => do
    let high ← hexDigit high
    let low ← hexDigit low
    let bytes ← unescape rest
    return (16 * high + low) :: bytes
  | '%' :: _ => none
  | c :: rest => (unescape rest).map (String.utf8EncodeChar c ++ ·)

/-- The text that the bytes stand for. None where they are no UTF-8. -/
def percentDecode (text : List Char) : Option String :=
  (unescape text).bind fun bytes => String.fromUTF8? bytes.toByteArray

/-- The number of bytes of a text. -/
def byteLength (text : List Char) : Nat := (text.flatMap String.utf8EncodeChar).length

theorem byteLength_cons (c : Char) (rest : List Char) :
    byteLength (c :: rest) = (String.utf8EncodeChar c).length + byteLength rest := by
  simp [byteLength]

theorem byteLength_append (l m : List Char) :
    byteLength (l ++ m) = byteLength l + byteLength m := by
  simp [byteLength]

theorem length_utf8EncodeChar_pos (c : Char) : 0 < (String.utf8EncodeChar c).length :=
  List.length_pos_iff.mpr String.utf8EncodeChar_ne_nil

theorem size_eq_byteLength (s : String) : s.toByteArray.size = byteLength s.toList := by
  rw [← String.utf8Encode_toList, List.utf8Encode, List.size_toByteArray]
  rfl

/-- The escapes take bytes away. -/
theorem length_unescape {text : List Char} {bytes : List UInt8} (h : unescape text = some bytes) :
    bytes.length ≤ byteLength text ∧ ('%' ∈ text → bytes.length < byteLength text) := by
  induction text using unescape.induct generalizing bytes with
  | case1 =>
    cases h
    exact ⟨Nat.le_refl _, fun hin => absurd hin List.not_mem_nil⟩
  | case2 high low rest ih =>
    simp only [unescape, Option.bind_eq_bind, Option.bind_eq_some_iff] at h
    obtain ⟨_, _, _, _, more, hmore, hbytes⟩ := h
    cases hbytes
    have hrest := (ih hmore).1
    have hhigh := length_utf8EncodeChar_pos high
    have hlow := length_utf8EncodeChar_pos low
    have hpercent := length_utf8EncodeChar_pos '%'
    simp only [byteLength_cons, List.length_cons]
    omega
  | case3 rest hno =>
    rw [unescape] at h
    · cases h
    · exact hno
  | case4 c rest hno hpercent ih =>
    rw [unescape] at h
    · obtain ⟨more, hmore, rfl⟩ := Option.map_eq_some_iff.mp h
      obtain ⟨hle, hlt⟩ := ih hmore
      rw [byteLength_cons, List.length_append]
      refine ⟨by omega, fun hin => ?_⟩
      rcases List.mem_cons.mp hin with rfl | hrest
      · exact absurd rfl hpercent
      · have := hlt hrest
        omega
    · exact hno
    · exact hpercent

theorem unescape_of_not_mem {text : List Char} (h : '%' ∉ text) :
    unescape text = some (text.flatMap String.utf8EncodeChar) := by
  induction text with
  | nil => rfl
  | cons c rest ih =>
    obtain ⟨hc, hrest⟩ := not_or.mp (mt List.mem_cons.mpr h)
    rw [unescape, ih hrest]
    · rfl
    · rintro high low more rfl
      exact absurd rfl hc
    · rintro rfl
      exact hc rfl

theorem toByteArray_of_fromUTF8? {bytes : ByteArray} {s : String}
    (h : String.fromUTF8? bytes = some s) : s.toByteArray = bytes := by
  unfold String.fromUTF8? at h
  split at h
  · cases h
    rfl
  · cases h

/-- A text never decodes to more bytes than it has. -/
theorem byteLength_percentDecode {text : List Char} {s : String} (h : percentDecode text = some s) :
    byteLength s.toList ≤ byteLength text ∧
      ('%' ∈ text → byteLength s.toList < byteLength text) := by
  obtain ⟨bytes, hbytes, hs⟩ := Option.bind_eq_some_iff.mp h
  have hsize := toByteArray_of_fromUTF8? hs
  rw [← size_eq_byteLength, hsize, List.size_toByteArray]
  exact length_unescape hbytes

/-- A text decodes to itself exactly when it has no percent sign. -/
theorem percentDecode_eq_self_iff (s : String) :
    percentDecode s.toList = some s ↔ '%' ∉ s.toList := by
  constructor
  · intro h hin
    exact absurd ((byteLength_percentDecode h).2 hin) (Nat.lt_irrefl _)
  · intro h
    have hself : (s.toList.flatMap String.utf8EncodeChar).toByteArray = s.toByteArray :=
      String.utf8Encode_toList
    unfold percentDecode
    rw [unescape_of_not_mem h, Option.bind_some, hself, String.fromUTF8?, dif_pos s.isValidUTF8]
    rfl

/-! ## The reader -/

/-- The text without its fragment. -/
def withoutFragment (text : List Char) : List Char := text.takeWhile (· ≠ '#')

/-- What stands behind the first question mark. -/
def queryOf (text : List Char) : List Char := (text.dropWhile (· ≠ '?')).drop 1

/-- A name and a value, split at the first equals sign. The value of a part
without one is empty. -/
def parameter (part : List Char) : Option (String × String) := do
  let name ← percentDecode (part.takeWhile (· ≠ '='))
  let value ← percentDecode ((part.dropWhile (· ≠ '=')).drop 1)
  return (name, value)

/-- The parameters of a query, in their order. -/
def parameters (query : List Char) : Option (List (String × String)) :=
  (query.splitOn '&').mapM parameter

/-- The parameters of the query of a URL. -/
def urlParameters (url : String) : Option (List (String × String)) :=
  parameters (queryOf (withoutFragment url.toList))

/-! ## The writer that escapes nothing -/

/-- A parameter as it is. -/
def part (p : String × String) : List Char := p.1.toList ++ '=' :: p.2.toList

/-- The parameters, one after the other. -/
def splice : List (String × String) → List Char
  | [] => []
  | [p] => part p
  | p :: q :: rest => part p ++ '&' :: splice (q :: rest)

/-- No separator and no escape stands in the name. -/
def PlainName (name : String) : Prop := ∀ c ∈ name.toList, c ∉ ['&', '#', '%', '=']

/-- No separator, fragment mark or escape stands in the value. -/
def Unreserved (value : String) : Prop := ∀ c ∈ value.toList, c ∉ ['&', '#', '%']

instance decidablePlainName (name : String) : Decidable (PlainName name) :=
  inferInstanceAs (Decidable (∀ c ∈ name.toList, _))

instance decidableUnreserved (value : String) : Decidable (Unreserved value) :=
  inferInstanceAs (Decidable (∀ c ∈ value.toList, _))

theorem unreserved_append (s t : String) : Unreserved (s ++ t) ↔ Unreserved s ∧ Unreserved t := by
  unfold Unreserved
  rw [String.toList_append, List.forall_mem_append]

theorem parameter_eq_some_iff {name value : List Char} (hn : '=' ∉ name) (p : String × String) :
    parameter (name ++ '=' :: value) = some p ↔
      percentDecode name = some p.1 ∧ percentDecode value = some p.2 := by
  have hne : ∀ c ∈ name, decide (c ≠ '=') = true := by
    intro c hc
    exact decide_eq_true fun he => hn (he ▸ hc)
  have htake : (name ++ '=' :: value).takeWhile (· ≠ '=') = name := by
    rw [List.takeWhile_append_of_pos hne, List.takeWhile_cons_of_neg (by simp), List.append_nil]
  have hdrop : ((name ++ '=' :: value).dropWhile (· ≠ '=')).drop 1 = value := by
    rw [List.dropWhile_append_of_pos hne, List.dropWhile_cons_of_neg (by simp)]
    rfl
  unfold parameter
  rw [htake, hdrop]
  simp only [Option.bind_eq_bind, Option.bind_eq_some_iff]
  constructor
  · rintro ⟨n, hname, v, hvalue, hp⟩
    cases hp
    exact ⟨hname, hvalue⟩
  · rintro ⟨hname, hvalue⟩
    exact ⟨p.1, hname, p.2, hvalue, rfl⟩

/-! ## What the reader gets of the first parameter -/

/-- The text ends neither a parameter nor the query. -/
def Uncut (text : List Char) : Prop := '&' ∉ text ∧ '#' ∉ text

theorem uncut_append {l m : List Char} : Uncut (l ++ m) ↔ Uncut l ∧ Uncut m := by
  unfold Uncut
  simp only [List.mem_append, not_or]
  exact and_and_and_comm

theorem PlainName.uncut {name : String} (h : PlainName name) : Uncut (name.toList ++ ['=']) := by
  refine uncut_append.mpr ⟨⟨fun hin => ?_, fun hin => ?_⟩, by decide, by decide⟩
  · exact h '&' hin (by decide)
  · exact h '#' hin (by decide)

theorem PlainName.no_equals {name : String} (h : PlainName name) : '=' ∉ name.toList :=
  fun hin => h '=' hin (by decide)

theorem PlainName.decodes {name : String} (h : PlainName name) :
    percentDecode name.toList = some name :=
  (percentDecode_eq_self_iff name).mpr fun hin => h '%' hin (by decide)

theorem unreserved_iff (value : String) :
    Unreserved value ↔ Uncut value.toList ∧ '%' ∉ value.toList := by
  unfold Unreserved Uncut
  constructor
  · intro h
    exact ⟨⟨fun hin => h '&' hin (by decide), fun hin => h '#' hin (by decide)⟩,
      fun hin => h '%' hin (by decide)⟩
  · rintro ⟨⟨hamp, hhash⟩, hpercent⟩ c hc hin
    simp only [List.mem_cons, List.not_mem_nil, or_false] at hin
    rcases hin with rfl | rfl | rfl
    · exact hamp hc
    · exact hhash hc
    · exact hpercent hc

theorem withoutFragment_append {l : List Char} (h : Uncut l) (m : List Char) :
    withoutFragment (l ++ m) = l ++ withoutFragment m := by
  apply List.takeWhile_append_of_pos
  intro c hc
  exact decide_eq_true fun he => h.2 (he ▸ hc)

/-- A text that is not cut is one parameter. -/
theorem parameters_of_uncut {l : List Char} (h : Uncut l) :
    parameters (withoutFragment l) = (parameter l).map fun p => [p] := by
  have hall := withoutFragment_append h []
  rw [List.append_nil] at hall
  unfold parameters
  rw [hall, withoutFragment, List.takeWhile_nil, List.append_nil, List.splitOn_eq_singleton h.1]
  cases hp : parameter l <;> simp [hp]

/-- In front of a separator it is the first parameter. -/
theorem parameters_of_uncut_amp {l : List Char} (h : Uncut l) (m : List Char) :
    parameters (withoutFragment (l ++ '&' :: m)) =
      (parameter l).bind fun p => (parameters (withoutFragment m)).map fun ps => p :: ps := by
  have hamp : withoutFragment ('&' :: m) = '&' :: withoutFragment m := rfl
  unfold parameters
  rw [withoutFragment_append h, hamp, List.splitOn_append_cons_self_of_not_mem h.1, List.mapM_cons]
  cases parameter l with
  | none => rfl
  | some p => cases (withoutFragment m).splitOn '&' |>.mapM parameter <;> rfl

/-- In front of a separator or a fragment it is the first parameter too. -/
theorem head_parameters_of_cut {l : List Char} (h : Uncut l) {c : Char} (hc : c ∈ ['&', '#'])
    (m : List Char) {ps : List (String × String)}
    (hps : parameters (withoutFragment (l ++ c :: m)) = some ps) :
    ∃ p more, parameter l = some p ∧ ps = p :: more := by
  simp only [List.mem_cons, List.not_mem_nil, or_false] at hc
  rcases hc with rfl | rfl
  · rw [parameters_of_uncut_amp h] at hps
    obtain ⟨p, hp, hmore⟩ := Option.bind_eq_some_iff.mp hps
    obtain ⟨more, _, rfl⟩ := Option.map_eq_some_iff.mp hmore
    exact ⟨p, more, hp, rfl⟩
  · have hcut : withoutFragment (l ++ '#' :: m) = withoutFragment l := by
      have hall := withoutFragment_append h []
      rw [List.append_nil] at hall
      rw [withoutFragment_append h, hall]
      rfl
    rw [hcut, parameters_of_uncut h] at hps
    obtain ⟨p, hp, rfl⟩ := Option.map_eq_some_iff.mp hps
    exact ⟨p, [], hp, rfl⟩

/-- A text that is cut splits at the first place where it is. -/
theorem exists_cut {l : List Char} (h : ¬ Uncut l) :
    ∃ before c after, l = before ++ c :: after ∧ Uncut before ∧ c ∈ ['&', '#'] := by
  induction l with
  | nil => exact absurd ⟨List.not_mem_nil, List.not_mem_nil⟩ h
  | cons c rest ih =>
    by_cases hc : c ∈ ['&', '#']
    · exact ⟨[], c, rest, rfl, ⟨List.not_mem_nil, List.not_mem_nil⟩, hc⟩
    · have hfirst : Uncut [c] := by
        unfold Uncut
        simp only [List.mem_cons, List.not_mem_nil, or_false, not_or] at hc ⊢
        exact ⟨Ne.symm hc.1, Ne.symm hc.2⟩
      have hrest : ¬ Uncut rest := fun hu => h (uncut_append.mpr ⟨hfirst, hu⟩)
      obtain ⟨before, d, after, rfl, hbefore, hd⟩ := ih hrest
      exact ⟨c :: before, d, after, rfl, uncut_append.mpr ⟨hfirst, hbefore⟩, hd⟩

/-- The value of a parameter that is cut comes back shorter. -/
theorem not_read_of_cut {name value : String} (hn : PlainName name) (hv : ¬ Uncut value.toList)
    (post : List Char) {ps : List (String × String)} :
    parameters (withoutFragment (part (name, value) ++ post)) ≠ some ((name, value) :: ps) := by
  intro hps
  obtain ⟨before, c, after, hsplit, hbefore, hc⟩ := exists_cut hv
  have hl : Uncut (name.toList ++ '=' :: before) := by
    have := uncut_append.mpr ⟨hn.uncut, hbefore⟩
    rwa [List.append_assoc] at this
  have htext : part (name, value) ++ post =
      (name.toList ++ '=' :: before) ++ c :: (after ++ post) := by
    unfold part
    simp [hsplit]
  rw [htext] at hps
  obtain ⟨p, more, hp, hhead⟩ := head_parameters_of_cut hl hc _ hps
  cases hhead
  have hvalue := ((parameter_eq_some_iff hn.no_equals _).mp hp).2
  -- what is left of the value has fewer bytes than the value
  have hle := (byteLength_percentDecode hvalue).1
  have hpos := length_utf8EncodeChar_pos c
  dsimp only at hle
  rw [hsplit, byteLength_append, byteLength_cons] at hle
  omega

/-! ## The law -/

theorem uncut_part_iff {name value : String} (hn : PlainName name) :
    Uncut (part (name, value)) ↔ Uncut value.toList := by
  have hpart : part (name, value) = (name.toList ++ ['=']) ++ value.toList := by simp [part]
  rw [hpart, uncut_append, and_iff_right hn.uncut]

theorem parameter_part_iff {name value : String} (hn : PlainName name) :
    parameter (part (name, value)) = some (name, value) ↔ '%' ∉ value.toList := by
  unfold part
  rw [parameter_eq_some_iff hn.no_equals, and_iff_right hn.decodes, percentDecode_eq_self_iff]

/-- The first of several parameters comes back, and the others too. -/
theorem parameters_part_amp_iff {name value : String} (hn : PlainName name) (m : List Char)
    (ps : List (String × String)) :
    parameters (withoutFragment (part (name, value) ++ '&' :: m)) = some ((name, value) :: ps) ↔
      Unreserved value ∧ parameters (withoutFragment m) = some ps := by
  rw [unreserved_iff]
  by_cases hv : Uncut value.toList
  · rw [parameters_of_uncut_amp ((uncut_part_iff hn).mpr hv), and_iff_right hv,
      ← parameter_part_iff hn]
    simp only [Option.bind_eq_some_iff, Option.map_eq_some_iff]
    constructor
    · rintro ⟨p, hp, more, hmore, heq⟩
      cases heq
      exact ⟨hp, hmore⟩
    · rintro ⟨hp, hmore⟩
      exact ⟨_, hp, ps, hmore, rfl⟩
  · exact iff_of_false (not_read_of_cut hn hv _) fun h => hv h.1.1

theorem parameters_part_iff {name value : String} (hn : PlainName name) :
    parameters (withoutFragment (part (name, value))) = some [(name, value)] ↔
      Unreserved value := by
  rw [unreserved_iff]
  by_cases hv : Uncut value.toList
  · rw [parameters_of_uncut ((uncut_part_iff hn).mpr hv), and_iff_right hv,
      ← parameter_part_iff hn]
    simp
  · refine iff_of_false (fun h => ?_) fun h => hv h.1
    rw [← List.append_nil (part (name, value))] at h
    exact not_read_of_cut hn hv [] h

/-- The reader of a URL reads what stands behind the question mark. -/
theorem urlParameters_of_base {url : String} {base query : List Char} (hquery : '?' ∉ base)
    (hfragment : '#' ∉ base) (h : url.toList = base ++ '?' :: query) :
    urlParameters url = parameters (withoutFragment query) := by
  have hbase : ∀ c ∈ base, decide (c ≠ '#') = true := by
    intro c hc
    exact decide_eq_true fun he => hfragment (he ▸ hc)
  have hmark : ∀ c ∈ base, decide (c ≠ '?') = true := by
    intro c hc
    exact decide_eq_true fun he => hquery (he ▸ hc)
  have htext : withoutFragment url.toList = base ++ '?' :: withoutFragment query := by
    unfold withoutFragment
    rw [h, List.takeWhile_append_of_pos hbase]
    rfl
  unfold urlParameters queryOf
  rw [htext, List.dropWhile_append_of_pos hmark, List.dropWhile_cons_of_neg (by simp)]
  rfl

/-- The reader gets the parameters back exactly when nothing in a value is a
separator, the mark of a fragment or an escape. -/
theorem parameters_splice_iff {params : List (String × String)} (hne : params ≠ [])
    (hnames : ∀ p ∈ params, PlainName p.1) :
    parameters (withoutFragment (splice params)) = some params ↔
      ∀ p ∈ params, Unreserved p.2 := by
  induction params using splice.induct with
  | case1 => exact absurd rfl hne
  | case2 p =>
    rw [splice, List.forall_mem_singleton]
    exact parameters_part_iff (hnames p List.mem_cons_self)
  | case3 p q rest ih =>
    obtain ⟨hp, hrest⟩ := List.forall_mem_cons.mp hnames
    rw [splice, List.forall_mem_cons, ← ih (List.cons_ne_nil q rest) hrest]
    exact parameters_part_amp_iff hp _ _

end query_strings
