-- The order of the children of a node (Pods/FirebaseDatabase, FUtilities.m): a
-- name that reads as a small integer goes by its value and its length, before
-- every other name, and the others go by their UTF-16 units.
import Mathlib.Data.List.Basic

open Std

namespace xellissime_book.key_order

/-! ## Names -/

/-- The UTF-16 units of a Character. -/
def utf16 (c : Char) : List Nat :=
  if c.toNat < 0x10000 then [c.toNat]
  else [0xD800 + (c.toNat - 0x10000) / 0x400, 0xDC00 + (c.toNat - 0x10000) % 0x400]

/-- What `characterAtIndex:` reads of an NSString, one unit after the other. -/
def units (s : String) : List Nat := s.toList.flatMap utf16

/-- The loop of `tryParseStringToInt` over the digits. -/
def parseDigits (value : Nat) : List Nat → Option Nat
  | [] => some value
  | c :: rest => if c < 48 ∨ 57 < c then none else parseDigits (value * 10 + (c - 48)) rest

def INTEGER_32_MIN : Int := -2147483648

def INTEGER_32_MAX : Int := 2147483647

def in32Bits (value : Int) : Option Int :=
  if value < INTEGER_32_MIN ∨ INTEGER_32_MAX < value then none else some value

/-- `tryParseStringToInt`, over the units. The unit 45 is the minus sign. -/
def tryParseStringToInt : List Nat → Option Int
  | [] => none
  | c :: rest =>
    if 11 < rest.length + 1 then none
    else if c = 45 then
      if rest = [] then none
      else (parseDigits 0 rest).bind fun value => in32Bits (-(value : Int))
    else (parseDigits 0 (c :: rest)).bind fun value => in32Bits (value : Int)

/-- Two integers, each with the length of its name. -/
def compareInts : Int × Nat → Int × Nat → Ordering :=
  compareLex (compareOn Prod.fst) (compareOn Prod.snd)

instance : TransCmp compareInts :=
  inferInstanceAs (TransCmp (compareLex (compareOn Prod.fst) (compareOn Prod.snd)))

/-- The part of `compareKey:toKey:` for two names that are neither of the two marks. -/
def compareNames (a b : String) : Ordering :=
  match tryParseStringToInt (units a), tryParseStringToInt (units b) with
  | some aAsInt, some bAsInt =>
    compareInts (aAsInt, (units a).length) (bAsInt, (units b).length)
  | some _, none => .lt
  | none, some _ => .gt
  | none, none => List.compareLex compare (units a) (units b)

/-- The name of a child, or one of the marks before and after every name. The
source tells the marks by their address, so no name of a child is one. -/
inductive ChildKey where
  | minName
  | name (s : String)
  | maxName
  deriving DecidableEq

/-- `compareKey:toKey:`. -/
def compareKey : ChildKey → ChildKey → Ordering
  | .minName, .minName => .eq
  | .maxName, .maxName => .eq
  | .minName, _ => .lt
  | _, .maxName => .lt
  | _, .minName => .gt
  | .maxName, _ => .gt
  | .name a, .name b => compareNames a b

/-! ## A total preorder -/

instance : TransCmp compareNames where
  eq_swap {a b} := by
    have hunits : TransCmp (List.compareLex (compare : Nat → Nat → Ordering)) := inferInstance
    have hints : TransCmp compareInts := inferInstance
    unfold compareNames
    cases tryParseStringToInt (units a) with
    | none =>
      cases tryParseStringToInt (units b) with
      | none => exact hunits.eq_swap
      | some y => rfl
    | some x =>
      cases tryParseStringToInt (units b) with
      | none => rfl
      | some y => exact hints.eq_swap
  isLE_trans {a b c} hab hbc := by
    unfold compareNames at *
    cases ha : tryParseStringToInt (units a) <;> cases hb : tryParseStringToInt (units b) <;>
      cases hc : tryParseStringToInt (units c) <;> simp only [ha, hb, hc] at hab hbc ⊢ <;>
      first | exact TransCmp.isLE_trans hab hbc | contradiction | rfl

instance : TransCmp compareKey where
  eq_swap {a b} := by
    have hnames : TransCmp compareNames := inferInstance
    cases a <;> cases b <;> first | rfl | exact hnames.eq_swap
  isLE_trans {a b c} hab hbc := by
    have hnames : TransCmp compareNames := inferInstance
    cases a <;> cases b <;> cases c <;>
      first | rfl | exact hnames.isLE_trans hab hbc | contradiction

/-! ## Names that compare equal -/

theorem utf16_ne_nil (c : Char) : utf16 c ≠ [] := by
  unfold utf16
  split_ifs <;> simp

/-- No unit sequence of a Character begins that of another one. -/
theorem utf16_append_inj {c d : Char} {x y : List Nat} (h : utf16 c ++ x = utf16 d ++ y) :
    c = d ∧ x = y := by
  have hc : c.toNat < 0xD800 ∨ 0xDFFF < c.toNat ∧ c.toNat < 0x110000 := c.valid
  have hd : d.toNat < 0xD800 ∨ 0xDFFF < d.toNat ∧ d.toNat < 0x110000 := d.valid
  unfold utf16 at h
  split_ifs at h with h1 h2 h2
  · simp only [List.cons_append, List.nil_append, List.cons.injEq] at h
    exact ⟨Char.toNat_inj.mp h.1, h.2⟩
  · simp only [List.cons_append, List.nil_append, List.cons.injEq] at h
    omega
  · simp only [List.cons_append, List.nil_append, List.cons.injEq] at h
    omega
  · simp only [List.cons_append, List.nil_append, List.cons.injEq] at h
    exact ⟨Char.toNat_inj.mp (by omega), h.2.2⟩

theorem flatMap_utf16_inj {s t : List Char} (h : s.flatMap utf16 = t.flatMap utf16) : s = t := by
  induction s generalizing t with
  | nil =>
    cases t with
    | nil => rfl
    | cons d t =>
      simp only [List.flatMap_nil, List.flatMap_cons] at h
      exact absurd (List.append_eq_nil_iff.mp h.symm).1 (utf16_ne_nil d)
  | cons c s ih =>
    cases t with
    | nil =>
      simp only [List.flatMap_nil, List.flatMap_cons] at h
      exact absurd (List.append_eq_nil_iff.mp h).1 (utf16_ne_nil c)
    | cons d t =>
      simp only [List.flatMap_cons] at h
      obtain ⟨rfl, hrest⟩ := utf16_append_inj h
      rw [ih hrest]

theorem units_inj {a b : String} (h : units a = units b) : a = b :=
  String.toList_injective (flatMap_utf16_inj h)

/-- Digits of one length that read as one number are the same. -/
theorem parseDigits_inj {us vs : List Nat} {n v w : Nat} (hlen : us.length = vs.length)
    (hu : parseDigits v us = some n) (hv : parseDigits w vs = some n) : v = w ∧ us = vs := by
  induction us generalizing vs v w with
  | nil =>
    rw [List.length_nil] at hlen
    rw [List.eq_nil_of_length_eq_zero hlen.symm] at hv ⊢
    cases hu
    cases hv
    exact ⟨rfl, rfl⟩
  | cons c us ih =>
    cases vs with
    | nil => cases hlen
    | cons d vs =>
      simp only [parseDigits] at hu hv
      split_ifs at hu hv with hc hd
      obtain ⟨hacc, rfl⟩ := ih (Nat.succ.inj hlen) hu hv
      refine ⟨by omega, ?_⟩
      have hcd : c = d := by omega
      rw [hcd]

theorem parseDigits_zeros (n : Nat) : parseDigits 0 (List.replicate n 48) = some 0 := by
  induction n with
  | zero => rfl
  | succ n ih => simpa [List.replicate_succ, parseDigits] using ih

/-- A minus sign before zeros, and as many characters that are all zeros. -/
def ZeroTwins (a b : String) : Prop :=
  ∃ n ≤ 9, a = String.ofList ('-' :: List.replicate (n + 1) '0') ∧
    b = String.ofList (List.replicate (n + 2) '0')

theorem units_zeros (n : Nat) :
    units (String.ofList (List.replicate n '0')) = List.replicate n 48 := by
  rw [units, String.toList_ofList]
  induction n with
  | zero => rfl
  | succ n ih =>
    rw [List.replicate_succ, List.flatMap_cons, ih]
    rfl

theorem units_minus_zeros (n : Nat) :
    units (String.ofList ('-' :: List.replicate n '0')) = 45 :: List.replicate n 48 := by
  have h := units_zeros n
  rw [units, String.toList_ofList] at h ⊢
  rw [List.flatMap_cons, h]
  rfl

/-- A name that reads as an integer is digits, or a minus sign and digits. -/
theorem tryParseStringToInt_eq_some {us : List Nat} {x : Int}
    (h : tryParseStringToInt us = some x) :
    us.length ≤ 11 ∧ ((∃ rest n, us = 45 :: rest ∧ rest ≠ [] ∧ parseDigits 0 rest = some n ∧
      x = -(n : Int)) ∨ (us ≠ [] ∧ ∃ n, parseDigits 0 us = some n ∧ x = n)) := by
  have hbits : ∀ {v : Int}, in32Bits v = some x → x = v := by
    intro v hv
    unfold in32Bits at hv
    split_ifs at hv
    exact (Option.some.inj hv).symm
  cases us with
  | nil => cases h
  | cons c rest =>
    rw [tryParseStringToInt] at h
    split_ifs at h with hlen hc hrest
    · obtain ⟨n, hn, hx⟩ := Option.bind_eq_some_iff.mp h
      exact ⟨by rw [List.length_cons]; omega, Or.inl ⟨rest, n, by rw [hc], hrest, hn, hbits hx⟩⟩
    · obtain ⟨n, hn, hx⟩ := Option.bind_eq_some_iff.mp h
      exact ⟨by rw [List.length_cons]; omega, Or.inr ⟨by simp, n, hn, hbits hx⟩⟩

theorem tryParse_minus_zeros {n : Nat} (h : n ≤ 9) :
    tryParseStringToInt (45 :: List.replicate (n + 1) 48) = some 0 := by
  rw [tryParseStringToInt, if_neg (by rw [List.length_replicate]; omega), if_pos rfl, if_neg (by simp),
    parseDigits_zeros]
  rfl

theorem tryParse_zeros {n : Nat} (h : n ≤ 9) :
    tryParseStringToInt (List.replicate (n + 2) 48) = some 0 := by
  have hd := parseDigits_zeros (n + 2)
  rw [List.replicate_succ] at hd ⊢
  rw [tryParseStringToInt, if_neg (by rw [List.length_replicate]; omega), if_neg (by decide), hd]
  rfl

/-- Digits that read as zero are zeros. -/
theorem eq_zeros_of_parseDigits {us : List Nat} (h : parseDigits 0 us = some 0) :
    us = List.replicate us.length 48 :=
  (parseDigits_inj (List.length_replicate).symm h (parseDigits_zeros _)).2

/-- A minus sign and digits read as the digits of another name as long: all are zeros. -/
theorem zeroTwins_of_parse {a b : String} {rest : List Nat} {n m : Nat}
    (hlen : (units a).length = (units b).length) (ha11 : (units a).length ≤ 11)
    (ha : units a = 45 :: rest) (hrest : rest ≠ []) (hn : parseDigits 0 rest = some n)
    (hm : parseDigits 0 (units b) = some m) (hx : -(n : Int) = m) : ZeroTwins a b := by
  have hn0 : n = 0 := by omega
  have hm0 : m = 0 := by omega
  subst hn0
  subst hm0
  obtain ⟨k, hk⟩ : ∃ k, rest.length = k + 1 :=
    Nat.exists_eq_succ_of_ne_zero fun h => hrest (List.eq_nil_of_length_eq_zero h)
  have hblen : (units b).length = k + 2 := by
    rw [← hlen, ha, List.length_cons, hk]
  have hza := eq_zeros_of_parseDigits hn
  have hzb := eq_zeros_of_parseDigits hm
  rw [hk] at hza
  rw [hblen] at hzb
  refine ⟨k, by omega, units_inj ?_, units_inj ?_⟩
  · rw [units_minus_zeros, ha, hza]
  · rw [units_zeros, hzb]

theorem compareNames_of_zeroTwins {a b : String} (h : ZeroTwins a b) :
    compareNames a b = .eq := by
  obtain ⟨n, hn, rfl, rfl⟩ := h
  unfold compareNames
  rw [units_minus_zeros, units_zeros, tryParse_minus_zeros hn, tryParse_zeros hn]
  have hlen : (45 :: List.replicate (n + 1) 48).length = (List.replicate (n + 2) 48).length := by
    simp
  simp only [hlen]
  exact ReflCmp.compare_self

/-- Two names compare equal only where they are the same, or zeros with and
without a minus sign. -/
theorem compareNames_eq_iff (a b : String) :
    compareNames a b = .eq ↔ a = b ∨ ZeroTwins a b ∨ ZeroTwins b a := by
  constructor
  · intro h
    unfold compareNames at h
    cases ha : tryParseStringToInt (units a) with
    | none =>
      cases hb : tryParseStringToInt (units b) with
      | none =>
        simp only [ha, hb] at h
        have hunits : LawfulEqCmp (List.compareLex (compare : Nat → Nat → Ordering)) := inferInstance
        exact Or.inl (units_inj (hunits.eq_of_compare h))
      | some y => simp [ha, hb] at h
    | some x =>
      cases hb : tryParseStringToInt (units b) with
      | none => simp [ha, hb] at h
      | some y =>
        simp only [ha, hb] at h
        obtain ⟨hints, hlengths⟩ := compareLex_eq_eq.mp h
        have hxy : x = y := LawfulEqCmp.eq_of_compare hints
        have hlen : (units a).length = (units b).length := LawfulEqCmp.eq_of_compare hlengths
        obtain ⟨ha11, hacase⟩ := tryParseStringToInt_eq_some ha
        obtain ⟨hb11, hbcase⟩ := tryParseStringToInt_eq_some hb
        rcases hacase with ⟨ra, n, hua, hra, hn, rfl⟩ | ⟨hua, n, hn, rfl⟩
        · rcases hbcase with ⟨rb, m, hub, hrb, hm, hy⟩ | ⟨hub, m, hm, hy⟩
          · have hnm : n = m := by omega
            subst hnm
            rw [hua, hub] at hlen
            have hrest := (parseDigits_inj (Nat.succ.inj hlen) hn hm).2
            exact Or.inl (units_inj (by rw [hua, hub, hrest]))
          · exact Or.inr (Or.inl (zeroTwins_of_parse hlen ha11 hua hra hn hm (by omega)))
        · rcases hbcase with ⟨rb, m, hub, hrb, hm, hy⟩ | ⟨hub, m, hm, hy⟩
          · exact Or.inr (Or.inr (zeroTwins_of_parse hlen.symm hb11 hub hrb hm hn (by omega)))
          · have hnm : n = m := by omega
            subst hnm
            exact Or.inl (units_inj (parseDigits_inj hlen hn hm).2)
  · rintro (rfl | h | h)
    · exact ReflCmp.compare_self
    · exact compareNames_of_zeroTwins h
    · exact OrientedCmp.eq_symm (compareNames_of_zeroTwins h)

/-- Two keys compare equal only where they are the same, or two rows of zeros, one of
them with a minus sign. -/
theorem two_keys_compare_equal_iff (a b : ChildKey) :
    compareKey a b = .eq ↔
      a = b ∨ ∃ s t, a = .name s ∧ b = .name t ∧ (ZeroTwins s t ∨ ZeroTwins t s) := by
  cases a with
  | minName => cases b <;> simp [compareKey]
  | maxName => cases b <;> simp [compareKey]
  | name s =>
    cases b with
    | minName => simp [compareKey]
    | maxName => simp [compareKey]
    | name t => simp [compareKey, compareNames_eq_iff]

/-! ## Names with a key of their own -/

/-- The name is no row of zeros that has a twin with a minus sign, nor such a twin. -/
def Plain (name : String) : Prop := ∀ other, ¬ ZeroTwins name other ∧ ¬ ZeroTwins other name

theorem Plain.eq_of_compare {a b : String} (h : Plain b) (hab : compareNames a b = .eq) :
    a = b := by
  rcases (compareNames_eq_iff a b).mp hab with he | ht | ht
  · exact he
  · exact absurd ht (h a).2
  · exact absurd ht (h a).1

theorem plain_iff {name : String} :
    Plain name ↔ ∀ n ≤ 9, name ≠ String.ofList ('-' :: List.replicate (n + 1) '0') ∧
      name ≠ String.ofList (List.replicate (n + 2) '0') := by
  constructor
  · intro h n hn
    constructor
    · intro hname
      exact (h _).1 ⟨n, hn, hname, rfl⟩
    · intro hname
      exact (h _).2 ⟨n, hn, rfl, hname⟩
  · intro h other
    constructor
    · rintro ⟨n, hn, hname, _⟩
      exact (h n hn).1 hname
    · rintro ⟨n, hn, _, hname⟩
      exact (h n hn).2 hname

instance decidablePlain (name : String) : Decidable (Plain name) :=
  decidable_of_iff _ plain_iff.symm

/-- The client takes no other name for this one: not where it compares the keys of
nodes by `compareKey:toKey:`, and not where it compares those of an FImmutableTree by
`compare:`. The latter takes canonically equivalent texts for the same, and a text of
ASCII is equivalent to no other text of ASCII. -/
structure PlainAscii (name : String) : Prop where
  plain : Plain name
  ascii : ∀ c ∈ name.toList, c.toNat < 128

instance decidablePlainAscii (name : String) : Decidable (PlainAscii name) :=
  decidable_of_iff (Plain name ∧ name.toList.all (·.toNat < 128) = true)
    ⟨fun h => ⟨h.1, by simpa using h.2⟩, fun h => ⟨h.plain, by simpa using h.ascii⟩⟩

/-- A path whose pieces are such names. -/
abbrev PlainPath := List { name : String // PlainAscii name }

def PlainPath.pieces (path : PlainPath) : List String := path.map Subtype.val

end xellissime_book.key_order
