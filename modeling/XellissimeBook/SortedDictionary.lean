-- The sorted dictionary of the children of a node (Pods/FirebaseDatabase,
-- FArraySortedDictionary.m and FImmutableSortedDictionary.m): two arrays that
-- turn into a tree when they grow, and one law for both.
import XellissimeBook.TreeDictionary

open Std path_tree sorted_entries
open xellissime_book.database xellissime_book.tree_dictionary

namespace xellissime_book.sorted_dictionary

variable {κ β : Type*} {cmp : κ → κ → Ordering}

/-! ## Searches in the keys -/

/-- `findKey:`, with `none` for `NSNotFound`. -/
def findKey (cmp : κ → κ → Ordering) (key : κ) : List κ → Option Nat
  | [] => none
  | k :: ks =>
    match cmp key k with
    | .eq => some 0
    | .lt => none
    | .gt => (findKey cmp key ks).map (· + 1)

/-- `findInsertPositionForKey:`. -/
def findInsertPositionForKey (cmp : κ → κ → Ordering) (key : κ) : List κ → Nat
  | [] => 0
  | k :: ks => if cmp k key = .lt then findInsertPositionForKey cmp key ks + 1 else 0

section
variable [TransCmp cmp] {key : κ} {value : β} {keys : List κ} {values : List β}

def Ascend (cmp : κ → κ → Ordering) (keys : List κ) : Prop :=
  keys.Pairwise fun a b => cmp a b = .lt

omit [TransCmp cmp] in
theorem sorted_zip_iff (h : values.length = keys.length) :
    Sorted cmp (keys.zip values) ↔ Ascend cmp keys := by
  unfold Sorted Ascend
  rw [← List.pairwise_map (f := Prod.fst) (R := fun a b => cmp a b = .lt),
    List.map_fst_zip (by omega)]

/-- A new key goes to its place in both arrays. -/
theorem zip_insertIdx (h : values.length = keys.length) (hn : findKey cmp key keys = none) :
    (keys.insertIdx (findInsertPositionForKey cmp key keys) key).zip
        (values.insertIdx (findInsertPositionForKey cmp key keys) value) =
      insertEntry cmp key value (keys.zip values) := by
  induction keys generalizing values with
  | nil =>
    rw [List.eq_nil_of_length_eq_zero h]
    rfl
  | cons k ks ih =>
    cases values with
    | nil => cases h
    | cons v vs =>
      simp only [findKey] at hn
      simp only [findInsertPositionForKey, List.zip_cons_cons, insertEntry]
      cases hc : cmp key k with
      | eq => simp [hc] at hn
      | lt =>
        rw [if_neg (by simp [OrientedCmp.gt_of_lt hc])]
        rfl
      | gt =>
        simp only [hc, Option.map_eq_none_iff] at hn
        rw [if_pos (OrientedCmp.lt_of_gt hc)]
        simp only [List.insertIdx_succ_cons, List.zip_cons_cons]
        rw [ih (by simpa using h) hn]

/-- A key that is there takes the new spelling and the new value. -/
theorem sameEntries_zip_set {pos : Nat} (h : values.length = keys.length)
    (hf : findKey cmp key keys = some pos) :
    SameEntries cmp ((keys.set pos key).zip (values.set pos value))
      (insertEntry cmp key value (keys.zip values)) := by
  induction keys generalizing values pos with
  | nil => cases hf
  | cons k ks ih =>
    cases values with
    | nil => cases h
    | cons v vs =>
      simp only [findKey] at hf
      simp only [List.zip_cons_cons, insertEntry]
      cases hc : cmp key k with
      | eq =>
        simp only [hc, Option.some.injEq] at hf
        subst hf
        exact .cons ⟨hc, rfl⟩ (sameEntries_refl _)
      | lt => simp [hc] at hf
      | gt =>
        simp only [hc, Option.map_eq_some_iff] at hf
        obtain ⟨p, hp, rfl⟩ := hf
        exact .cons ⟨ReflCmp.compare_self, rfl⟩ (ih (by simpa using h) hp)

theorem ascend_insertIdx (h : values.length = keys.length) (ha : Ascend cmp keys)
    (hn : findKey cmp key keys = none) (value : β) :
    Ascend cmp (keys.insertIdx (findInsertPositionForKey cmp key keys) key) := by
  have hlen : (values.insertIdx (findInsertPositionForKey cmp key keys) value).length =
      (keys.insertIdx (findInsertPositionForKey cmp key keys) key).length := by
    simp only [List.length_insertIdx, h]
  rw [← sorted_zip_iff hlen, zip_insertIdx h hn]
  exact ((sorted_zip_iff h).mpr ha).insertEntry key value

theorem ascend_set {pos : Nat} (h : values.length = keys.length) (ha : Ascend cmp keys)
    (hf : findKey cmp key keys = some pos) (value : β) : Ascend cmp (keys.set pos key) := by
  have hlen : (values.set pos value).length = (keys.set pos key).length := by
    simp only [List.length_set, h]
  rw [← sorted_zip_iff hlen]
  exact (sameEntries_zip_set h hf).sorted (((sorted_zip_iff h).mpr ha).insertEntry key value)

theorem zip_eraseIdx {pos : Nat} (h : values.length = keys.length) (ha : Ascend cmp keys)
    (hf : findKey cmp key keys = some pos) :
    (keys.eraseIdx pos).zip (values.eraseIdx pos) = eraseEntry cmp key (keys.zip values) := by
  induction keys generalizing values pos with
  | nil => cases hf
  | cons k ks ih =>
    cases values with
    | nil => cases h
    | cons v vs =>
      obtain ⟨hk, hks⟩ := List.pairwise_cons.mp ha
      simp only [findKey] at hf
      rw [List.zip_cons_cons]
      cases hc : cmp key k with
      | eq =>
        simp only [hc, Option.some.injEq] at hf
        subst hf
        have hkeep : eraseEntry cmp key (ks.zip vs) = ks.zip vs :=
          eraseEntry_eq_self_of_gt (by simp [hc]) fun e he => hk e.1 (List.of_mem_zip he).1
        rw [eraseEntry_cons_of_eq hc, hkeep]
        rfl
      | lt => simp [hc] at hf
      | gt =>
        simp only [hc, Option.map_eq_some_iff] at hf
        obtain ⟨p, hp, rfl⟩ := hf
        rw [eraseEntry_cons_of_ne (by simp [hc]), ← ih (by simpa using h) hks hp]
        rfl

/-- What `findKey:` finds, in the values. -/
theorem getElem_findKey (h : values.length = keys.length) (ha : Ascend cmp keys) :
    (findKey cmp key keys).bind (fun pos => values[pos]?) =
      findEntry cmp key (keys.zip values) := by
  induction keys generalizing values with
  | nil => rfl
  | cons k ks ih =>
    cases values with
    | nil => cases h
    | cons v vs =>
      obtain ⟨hk, hks⟩ := List.pairwise_cons.mp ha
      simp only [findKey, List.zip_cons_cons, findEntry]
      cases hc : cmp key k with
      | eq => simp
      | lt =>
        have hnone : findEntry cmp key (ks.zip vs) = none :=
          findEntry_eq_none_of_after (by simp [hc]) fun e he => hk e.1 (List.of_mem_zip he).1
        simp [hnone]
      | gt =>
        rw [if_neg (by simp), ← ih (by simpa using h) hks]
        cases findKey cmp key ks <;> simp

omit [TransCmp cmp] in
theorem findKey_lt {pos : Nat} (hf : findKey cmp key keys = some pos) : pos < keys.length := by
  induction keys generalizing pos with
  | nil => cases hf
  | cons k ks ih =>
    simp only [findKey] at hf
    split at hf
    · cases hf
      exact Nat.succ_pos _
    · cases hf
    · obtain ⟨p, hp, rfl⟩ := Option.map_eq_some_iff.mp hf
      exact Nat.succ_lt_succ (ih hp)

theorem findEntry_of_findKey {pos : Nat} (h : values.length = keys.length)
    (ha : Ascend cmp keys) (hf : findKey cmp key keys = some pos) :
    (findEntry cmp key (keys.zip values)).isSome = true := by
  have hlt : pos < values.length := h ▸ findKey_lt hf
  rw [← getElem_findKey h ha, hf, Option.bind_some, List.getElem?_eq_getElem hlt]
  rfl

theorem findEntry_eq_none_of_findKey (h : values.length = keys.length) (ha : Ascend cmp keys)
    (hf : findKey cmp key keys = none) : findEntry cmp key (keys.zip values) = none := by
  rw [← getElem_findKey h ha, hf]
  rfl

/-- The keys before a key that is there are the first ones. -/
theorem entriesBefore_of_findKey {pos : Nat} (h : values.length = keys.length)
    (ha : Ascend cmp keys) (hf : findKey cmp key keys = some pos) :
    (entriesBefore cmp key (keys.zip values)).map Prod.fst = keys.take pos := by
  induction keys generalizing values pos with
  | nil => cases hf
  | cons k ks ih =>
    cases values with
    | nil => cases h
    | cons v vs =>
      have hs : Sorted cmp ([] ++ (k, v) :: ks.zip vs) := (sorted_zip_iff h).mpr ha
      simp only [findKey] at hf
      rw [List.zip_cons_cons]
      cases hc : cmp key k with
      | eq =>
        simp only [hc, Option.some.injEq] at hf
        subst hf
        rw [← List.nil_append ((k, v) :: ks.zip vs), entriesBefore_append_of_eq hs hc]
        rfl
      | lt => simp [hc] at hf
      | gt =>
        simp only [hc, Option.map_eq_some_iff] at hf
        obtain ⟨p, hp, rfl⟩ := hf
        have hrest := ih (by simpa using h) (List.pairwise_cons.mp ha).2 hp
        rw [← List.nil_append ((k, v) :: ks.zip vs), entriesBefore_append_of_gt hs hc]
        simp [hrest]

end

/-! ## The arrays -/

def SORTED_DICTIONARY_ARRAY_TO_RB_TREE_SIZE_THRESHOLD : Nat := 25

/-- The arrays are as long as each other, and the keys ascend. -/
structure FArraySortedDictionary (κ β : Type*) (cmp : κ → κ → Ordering) where
  keys : List κ
  values : List β
  length_values : values.length = keys.length
  ascend : Ascend cmp keys

/-- An array or a tree. -/
inductive FImmutableSortedDictionary (κ β : Type*) (cmp : κ → κ → Ordering) where
  | array (d : FArraySortedDictionary κ β cmp)
  | tree (d : FTreeSortedDictionary κ β cmp)

namespace FArraySortedDictionary

def entries (d : FArraySortedDictionary κ β cmp) : List (κ × β) := d.keys.zip d.values

theorem sorted (d : FArraySortedDictionary κ β cmp) : Sorted cmp d.entries :=
  (sorted_zip_iff d.length_values).mpr d.ascend

def initWithComparator : FArraySortedDictionary κ β cmp :=
  { keys := [], values := [], length_values := rfl, ascend := List.Pairwise.nil }

def count (d : FArraySortedDictionary κ β cmp) : Nat := d.keys.length

def get (d : FArraySortedDictionary κ β cmp) (key : κ) : Option β :=
  (findKey cmp key d.keys).bind fun pos => d.values[pos]?

def getPredecessorKey (d : FArraySortedDictionary κ β cmp) (key : κ) :
    Except NSException (Option κ) :=
  match findKey cmp key d.keys with
  | none => .error
      { name := "NSInternalInconsistencyException"
        reason := "Can't get predecessor key for non-existent key" }
  | some 0 => .ok none
  | some (pos + 1) => .ok d.keys[pos]?

/-- `nextObject` of an `FArraySortedDictionaryEnumerator` at `pos`, and where it
goes on. -/
def nextObject (keys : List κ) (reverse : Bool) (pos : Int) : Option (κ × Int) :=
  if 0 ≤ pos ∧ pos < keys.length then
    (keys[pos.toNat]?).map fun key => (key, if reverse then pos - 1 else pos + 1)
  else none

/-- The positions that an enumerator has left. -/
def positionsLeft (keys : List κ) (reverse : Bool) (pos : Int) : Nat :=
  if reverse then (pos + 1).toNat else (keys.length - pos).toNat

theorem nextObject_eq {keys : List κ} {reverse : Bool} {pos : Nat} (h : pos < keys.length) :
    nextObject keys reverse pos =
      some (keys[pos], if reverse then (pos : Int) - 1 else (pos : Int) + 1) := by
  unfold nextObject
  rw [if_pos (by omega), Int.toNat_natCast, List.getElem?_eq_getElem h]
  rfl

theorem nextObject_eq_none {keys : List κ} {reverse : Bool} {pos : Int}
    (h : ¬ (0 ≤ pos ∧ pos < keys.length)) : nextObject keys reverse pos = none := if_neg h

theorem positionsLeft_of_nextObject {keys : List κ} {reverse : Bool} {pos pos' : Int} {key : κ}
    (h : nextObject keys reverse pos = some (key, pos')) :
    positionsLeft keys reverse pos' < positionsLeft keys reverse pos := by
  by_cases hp : 0 ≤ pos ∧ pos < keys.length
  · obtain ⟨n, rfl⟩ := Int.eq_ofNat_of_zero_le hp.1
    rw [nextObject_eq (by omega)] at h
    cases h
    cases reverse with
    | true =>
      simp only [positionsLeft, if_true]
      omega
    | false =>
      simp only [positionsLeft, Bool.false_eq_true, if_false]
      omega
  · rw [nextObject_eq_none hp] at h
    cases h

/-- All the objects that an enumerator gives. -/
def allObjects (keys : List κ) (reverse : Bool) (pos : Int) : List κ :=
  match _h : nextObject keys reverse pos with
  | none => []
  | some (key, pos') => key :: allObjects keys reverse pos'
termination_by positionsLeft keys reverse pos
decreasing_by exact positionsLeft_of_nextObject _h

/-- The keys of `keyEnumeratorFrom:` and its three siblings, with `none` for no
start key. -/
def enumerator (d : FArraySortedDictionary κ β cmp) (startKey : Option κ) (isReverse : Bool) :
    List κ :=
  match startKey with
  | none => if isReverse then d.keys.reverse else d.keys
  | some s =>
    let startPos := findInsertPositionForKey cmp s d.keys
    if isReverse then
      -- no exact match: the enumerator starts just before the position
      let exact := (d.keys[startPos]?).any fun k => cmp k s = .eq
      allObjects d.keys true (if exact then startPos else (startPos : Int) - 1)
    else allObjects d.keys false startPos

variable [TransCmp cmp]

/-- What `fromDictionary:withComparator:` does with its sorted keys. -/
def fromSortedKeys (es : List (κ × β)) : Except NSException (FArraySortedDictionary κ β cmp) :=
  if h : es.IsChain fun a b => cmp a.1 b.1 = .lt then
    .ok
      { keys := es.map Prod.fst
        values := es.map Prod.snd
        length_values := by simp only [List.length_map]
        ascend := List.pairwise_map.mpr (isChain_iff_sorted.mp h) }
  else .error sameOrderingException

/-- `fromDictionary:withComparator:`, over the entries of the plain dictionary in
any order. -/
def fromDictionary (dictionary : List (κ × β)) :
    Except NSException (FArraySortedDictionary κ β cmp) :=
  fromSortedKeys (sortEntries cmp dictionary)

theorem exists_fromDictionary {dictionary : List (κ × β)} (ha : Apart cmp dictionary) :
    ∃ d : FArraySortedDictionary κ β cmp, fromDictionary dictionary = .ok d := by
  unfold fromDictionary fromSortedKeys
  rw [dif_pos (isChain_iff_sorted.mpr (sorted_sortEntries_iff.mpr ha))]
  exact ⟨_, rfl⟩

theorem fromDictionary_eq_error {dictionary : List (κ × β)} (ha : ¬ Apart cmp dictionary) :
    (fromDictionary dictionary : Except NSException (FArraySortedDictionary κ β cmp)) =
      .error sameOrderingException := by
  unfold fromDictionary fromSortedKeys
  rw [dif_neg fun h => ha (sorted_sortEntries_iff.mp (isChain_iff_sorted.mp h))]

theorem entries_of_fromDictionary {dictionary : List (κ × β)} {d : FArraySortedDictionary κ β cmp}
    (h : fromDictionary dictionary = .ok d) : d.entries = sortEntries cmp dictionary := by
  unfold fromDictionary fromSortedKeys at h
  split_ifs at h
  cases h
  exact (List.zip_of_prod rfl rfl).symm

theorem getPredecessorKey_spec (d : FArraySortedDictionary κ β cmp) (key : κ) :
    ((findEntry cmp key d.entries).isSome = true →
      d.getPredecessorKey key = .ok (predecessorKey cmp key d.entries)) ∧
    (findEntry cmp key d.entries = none → ∃ exception, d.getPredecessorKey key = .error exception) := by
  cases hf : findKey cmp key d.keys with
  | none =>
    have hnone := findEntry_eq_none_of_findKey d.length_values d.ascend hf
    refine ⟨fun h => ?_, fun _ => ?_⟩
    · rw [entries, hnone] at h
      cases h
    · unfold getPredecessorKey
      rw [hf]
      exact ⟨_, rfl⟩
  | some pos =>
    have hsome := findEntry_of_findKey d.length_values d.ascend hf
    have hlt := findKey_lt hf
    refine ⟨fun _ => ?_, fun h => ?_⟩
    · have hpred : predecessorKey cmp key d.entries = (d.keys.take pos).getLast? := by
        rw [predecessorKey, ← List.getLast?_map, entries,
          entriesBefore_of_findKey d.length_values d.ascend hf]
      unfold getPredecessorKey
      rw [hpred, hf]
      cases pos with
      | zero => rfl
      | succ pos =>
        have hget : d.keys[pos]? = some d.keys[pos] := List.getElem?_eq_getElem (by omega)
        rw [List.getLast?_take, if_neg (Nat.succ_ne_zero pos), Nat.add_sub_cancel, hget,
          Option.some_or, ← hget]
    · rw [entries] at h
      rw [h] at hsome
      cases hsome

/-- `removeKey:`. -/
def removeKey (d : FArraySortedDictionary κ β cmp) (key : κ) : FArraySortedDictionary κ β cmp :=
  match h : findKey cmp key d.keys with
  | none => d
  | some pos =>
    { keys := d.keys.eraseIdx pos
      values := d.values.eraseIdx pos
      length_values := by
        have := d.length_values
        simp only [List.length_eraseIdx, this]
      ascend := d.ascend.sublist (List.eraseIdx_sublist _ _) }

/-- `insertKey:withValue:`. The arrays turn into a tree when the key is new and
they are long. -/
def insertKey [DecidableEq κ] (d : FArraySortedDictionary κ β cmp) (key : κ) (value : β) :
    Except NSException (FImmutableSortedDictionary κ β cmp) :=
  match h : findKey cmp key d.keys with
  | none =>
    if SORTED_DICTIONARY_ARRAY_TO_RB_TREE_SIZE_THRESHOLD ≤ d.count then
      let dict := ofEntries (d.keys.zip d.values ++ [(key, value)])
      (FTreeSortedDictionary.fromDictionary dict).map .tree
    else
      let newPos := findInsertPositionForKey cmp key d.keys
      .ok (.array
        { keys := d.keys.insertIdx newPos key
          values := d.values.insertIdx newPos value
          length_values := by
            have := d.length_values
            simp only [List.length_insertIdx, this]
          ascend := ascend_insertIdx d.length_values d.ascend h value })
  | some pos =>
    .ok (.array
      { keys := d.keys.set pos key
        values := d.values.set pos value
        length_values := by
          have := d.length_values
          simp only [List.length_set, this]
        ascend := ascend_set d.length_values d.ascend h value })

end FArraySortedDictionary

/-! ## Either of them -/

namespace FImmutableSortedDictionary

def entries : FImmutableSortedDictionary κ β cmp → List (κ × β)
  | array d => d.entries
  | tree d => d.entries

/-- `dictionaryWithComparator:`. -/
def dictionaryWithComparator : FImmutableSortedDictionary κ β cmp :=
  array FArraySortedDictionary.initWithComparator

def get (key : κ) : FImmutableSortedDictionary κ β cmp → Option β
  | array d => d.get key
  | tree d => d.get key

def count : FImmutableSortedDictionary κ β cmp → Nat
  | array d => d.count
  | tree d => d.root.count

def minKey : FImmutableSortedDictionary κ β cmp → Option κ
  | array d => d.keys.head?
  | tree d => d.root.minKey

def maxKey : FImmutableSortedDictionary κ β cmp → Option κ
  | array d => d.keys.getLast?
  | tree d => d.root.maxKey

variable [TransCmp cmp]

/-- `insertKey:withValue:`, which `setObject:forKey:` calls. -/
def insertKey [DecidableEq κ] (key : κ) (value : β) :
    FImmutableSortedDictionary κ β cmp → Except NSException (FImmutableSortedDictionary κ β cmp)
  | array d => d.insertKey key value
  | tree d => .ok (tree (d.insertKey key value))

/-- `removeKey:`, which `removeObjectForKey:` calls. -/
def removeKey (key : κ) : FImmutableSortedDictionary κ β cmp → FImmutableSortedDictionary κ β cmp
  | array d => array (d.removeKey key)
  | tree d => tree (d.removeKey key)

omit [TransCmp cmp] in
theorem sorted (d : FImmutableSortedDictionary κ β cmp) : Sorted cmp d.entries := by
  cases d with
  | array d => exact d.sorted
  | tree d => exact d.sorted

theorem get_eq (d : FImmutableSortedDictionary κ β cmp) (key : κ) :
    d.get key = findEntry cmp key d.entries := by
  cases d with
  | array d => exact getElem_findKey d.length_values d.ascend
  | tree d => exact d.get_eq key

omit [TransCmp cmp] in
theorem count_eq (d : FImmutableSortedDictionary κ β cmp) : d.count = d.entries.length := by
  cases d with
  | array d =>
    have := d.length_values
    simp [count, entries, FArraySortedDictionary.count, FArraySortedDictionary.entries, this]
  | tree d => exact d.root.length_entries.symm

omit [TransCmp cmp] in
theorem minKey_eq (d : FImmutableSortedDictionary κ β cmp) :
    d.minKey = (d.entries.head?).map Prod.fst := by
  cases d with
  | array d =>
    have hkeys : d.entries.map Prod.fst = d.keys := List.map_fst_zip d.length_values.ge
    rw [minKey, ← hkeys, List.head?_map]
    rfl
  | tree d => exact minKey_eq_head? d.root

omit [TransCmp cmp] in
theorem maxKey_eq (d : FImmutableSortedDictionary κ β cmp) :
    d.maxKey = (d.entries.getLast?).map Prod.fst := by
  cases d with
  | array d =>
    have hkeys : d.entries.map Prod.fst = d.keys := List.map_fst_zip d.length_values.ge
    rw [maxKey, ← hkeys, List.getLast?_map]
    rfl
  | tree d => exact maxKey_eq_getLast? d.root

/-- An insertion always ends, and is that of the entries up to the spelling of
the key. -/
theorem exists_insertKey [DecidableEq κ] (d : FImmutableSortedDictionary κ β cmp) (key : κ)
    (value : β) :
    ∃ d', d.insertKey key value = .ok d' ∧
      SameEntries cmp d'.entries (insertEntry cmp key value d.entries) := by
  cases d with
  | tree d =>
    refine ⟨_, rfl, ?_⟩
    change SameEntries cmp (d.insertKey key value).entries _
    rw [FTreeSortedDictionary.entries_insertKey]
    exact sameEntries_refl _
  | array d =>
    change ∃ d', d.insertKey key value = .ok d' ∧ _
    unfold FArraySortedDictionary.insertKey
    split
    · rename_i hnone
      have hfind := findEntry_eq_none_of_findKey d.length_values d.ascend hnone
      split_ifs
      · -- the tree over the same entries and the new one
        have hapart := apart_append d.sorted hfind value
        have hdict : ofEntries (d.keys.zip d.values ++ [(key, value)]) =
            d.keys.zip d.values ++ [(key, value)] := ofEntries_of_nodup hapart.nodup_keys
        obtain ⟨t, ht⟩ := FTreeSortedDictionary.exists_fromDictionary hapart
        refine ⟨.tree t, ?_, ?_⟩
        · change (FTreeSortedDictionary.fromDictionary (ofEntries _)).map _ = _
          rw [hdict]
          exact congrArg (Except.map tree) ht
        · change SameEntries cmp t.entries _
          rw [FTreeSortedDictionary.entries_of_fromDictionary ht,
            sortEntries_append d.sorted hfind]
          exact sameEntries_refl _
      · refine ⟨_, rfl, ?_⟩
        change SameEntries cmp ((d.keys.insertIdx _ key).zip (d.values.insertIdx _ value)) _
        rw [zip_insertIdx d.length_values hnone]
        exact sameEntries_refl _
    · rename_i pos hsome
      exact ⟨_, rfl, sameEntries_zip_set d.length_values hsome⟩

theorem entries_removeKey (d : FImmutableSortedDictionary κ β cmp) (key : κ) :
    (d.removeKey key).entries = eraseEntry cmp key d.entries := by
  cases d with
  | tree d => exact d.entries_removeKey key
  | array d =>
    change (d.removeKey key).entries = _
    unfold FArraySortedDictionary.removeKey
    split
    · rename_i hnone
      have hfind := findEntry_eq_none_of_findKey d.length_values d.ascend hnone
      exact (eraseEntry_eq_self (findEntry_eq_none_iff.mp hfind)).symm
    · rename_i pos hsome
      exact zip_eraseIdx d.length_values d.ascend hsome

end FImmutableSortedDictionary

/-! ## Enumerators -/

namespace FArraySortedDictionary

theorem allObjects_eq_nil {keys : List κ} {reverse : Bool} {pos : Int}
    (h : ¬ (0 ≤ pos ∧ pos < keys.length)) : allObjects keys reverse pos = [] := by
  rw [allObjects]
  split
  · rfl
  · rename_i hsome
    rw [nextObject_eq_none h] at hsome
    cases hsome

theorem allObjects_cons {keys : List κ} {reverse : Bool} {pos : Nat} (h : pos < keys.length) :
    allObjects keys reverse pos =
      keys[pos] :: allObjects keys reverse (if reverse then (pos : Int) - 1 else (pos : Int) + 1) := by
  rw [allObjects]
  split
  · rename_i hnone
    rw [nextObject_eq h] at hnone
    cases hnone
  · rename_i key pos' hsome
    rw [nextObject_eq h] at hsome
    cases hsome
    rfl

theorem allObjects_forward (keys : List κ) (pos : Nat) :
    allObjects keys false pos = keys.drop pos := by
  induction hn : keys.length - pos generalizing pos with
  | zero =>
    rw [allObjects_eq_nil (by omega), List.drop_eq_nil_of_le (by omega)]
  | succ n ih =>
    have hlt : pos < keys.length := by omega
    rw [allObjects_cons hlt, List.drop_eq_getElem_cons hlt]
    exact congrArg _ (ih (pos + 1) (by omega))

theorem allObjects_reverse (keys : List κ) (pos : Nat) (h : pos ≤ keys.length) :
    allObjects keys true ((pos : Int) - 1) = (keys.take pos).reverse := by
  induction pos with
  | zero =>
    rw [allObjects_eq_nil (by omega)]
    rfl
  | succ n ih =>
    have hpos : ((n + 1 : Nat) : Int) - 1 = (n : Int) := by omega
    rw [hpos, allObjects_cons h, if_pos rfl, ih (by omega), List.take_succ_eq_append_getElem h,
      List.reverse_append]
    rfl

end FArraySortedDictionary

section
variable [TransCmp cmp] {s : κ} {keys : List κ}

theorem findInsertPositionForKey_le (cmp : κ → κ → Ordering) (s : κ) (keys : List κ) :
    findInsertPositionForKey cmp s keys ≤ keys.length := by
  induction keys with
  | nil => exact Nat.le_refl _
  | cons k ks ih =>
    simp only [findInsertPositionForKey]
    split_ifs
    · exact Nat.succ_le_succ ih
    · exact Nat.zero_le _

/-- The keys that are not before the start key are those from its place on. -/
theorem filter_not_lt (ha : Ascend cmp keys) :
    keys.filter (fun k => decide (cmp k s ≠ .lt)) =
      keys.drop (findInsertPositionForKey cmp s keys) := by
  induction keys with
  | nil => rfl
  | cons k ks ih =>
    obtain ⟨hk, hks⟩ := List.pairwise_cons.mp ha
    simp only [findInsertPositionForKey]
    split_ifs with hlt
    · rw [List.filter_cons_of_neg (by simpa using hlt), ih hks, List.drop_succ_cons]
    · rw [List.filter_cons_of_pos (by simpa using hlt), List.drop_zero, List.filter_eq_self.mpr]
      intro k' hk'
      have hgt : cmp k' s ≠ .lt := fun h => hlt (TransCmp.lt_trans (hk k' hk') h)
      simpa using hgt

/-- The keys that are not after the start key are those up to its place. -/
theorem filter_not_gt (ha : Ascend cmp keys) :
    keys.filter (fun k => decide (cmp k s ≠ .gt)) =
      keys.take (findInsertPositionForKey cmp s keys +
        if (keys[findInsertPositionForKey cmp s keys]?).any fun k => cmp k s = .eq then 1
        else 0) := by
  induction keys with
  | nil => rfl
  | cons k ks ih =>
    obtain ⟨hk, hks⟩ := List.pairwise_cons.mp ha
    have hafter : cmp k s ≠ .lt → ks.filter (fun k => decide (cmp k s ≠ .gt)) = [] := by
      intro hlt
      rw [List.filter_eq_nil_iff]
      intro k' hk' hgt
      have hkk' := OrientedCmp.gt_of_lt (hk k' hk')
      have hngt : cmp k' s ≠ .gt := by simpa using hgt
      cases hc : cmp k s with
      | lt => exact hlt hc
      | eq => exact hngt (TransCmp.gt_of_gt_of_eq hkk' hc)
      | gt => exact hngt (TransCmp.gt_trans hkk' hc)
    by_cases hlt : cmp k s = .lt
    · have hpos : findInsertPositionForKey cmp s (k :: ks) =
          findInsertPositionForKey cmp s ks + 1 := if_pos hlt
      simp only [hpos, List.getElem?_cons_succ]
      rw [List.filter_cons_of_pos (by simp [hlt]), ih hks, Nat.add_right_comm, List.take_succ_cons]
    · have hpos : findInsertPositionForKey cmp s (k :: ks) = 0 := if_neg hlt
      simp only [hpos, List.getElem?_cons_zero]
      by_cases heq : cmp k s = .eq
      · rw [List.filter_cons_of_pos (by simp [heq]), hafter hlt]
        simp [heq]
      · have hgt : cmp k s = .gt := by
          cases hc : cmp k s with
          | lt => exact absurd hc hlt
          | eq => exact absurd hc heq
          | gt => rfl
        rw [List.filter_cons_of_neg (by simp [hgt]), hafter hlt]
        simp [hgt]

end

theorem map_fst_fromStart (startKey : Option κ) (isReverse : Bool) (es : List (κ × β)) :
    (fromStart cmp startKey isReverse es).map Prod.fst =
      (es.map Prod.fst).filter fun k => turned cmp startKey isReverse k ≠ .lt := by
  rw [fromStart, List.filter_map]
  rfl

theorem map_fst_directed (isReverse : Bool) (es : List (κ × β)) :
    (directed isReverse es).map Prod.fst =
      if isReverse then (es.map Prod.fst).reverse else es.map Prod.fst := by
  cases isReverse with
  | true => simp [directed]
  | false => simp [directed]

namespace FArraySortedDictionary

theorem map_fst_entries (d : FArraySortedDictionary κ β cmp) : d.entries.map Prod.fst = d.keys :=
  List.map_fst_zip d.length_values.ge

variable [TransCmp cmp]

theorem enumerator_forward (d : FArraySortedDictionary κ β cmp) (s : κ) :
    d.enumerator (some s) false = (fromStart cmp (some s) false d.entries).map Prod.fst := by
  rw [map_fst_fromStart, map_fst_entries]
  change allObjects d.keys false _ = _
  rw [allObjects_forward]
  exact (filter_not_lt d.ascend).symm

theorem enumerator_reverse (d : FArraySortedDictionary κ β cmp) (s : κ) :
    d.enumerator (some s) true =
      ((fromStart cmp (some s) true d.entries).map Prod.fst).reverse := by
  have hle := findInsertPositionForKey_le cmp s d.keys
  rw [map_fst_fromStart, map_fst_entries, turned_reverse, filter_not_gt d.ascend]
  unfold enumerator
  simp only [if_true]
  split_ifs with hexact
  · -- an exact match: the enumerator starts with it
    have hlt : findInsertPositionForKey cmp s d.keys < d.keys.length := by
      by_contra hnot
      rw [List.getElem?_eq_none (by omega)] at hexact
      cases hexact
    rw [← allObjects_reverse _ _ hlt]
    congr 1
    omega
  · rw [Nat.add_zero]
    exact allObjects_reverse _ _ hle

end FArraySortedDictionary

namespace FImmutableSortedDictionary

/-- `keyEnumerator`, `keyEnumeratorFrom:`, `reverseKeyEnumerator` and
`reverseKeyEnumeratorFrom:`. -/
def enumerator (startKey : Option κ) (isReverse : Bool) :
    FImmutableSortedDictionary κ β cmp → List κ
  | array d => d.enumerator startKey isReverse
  | tree d => d.enumerator startKey isReverse

def isTree : FImmutableSortedDictionary κ β cmp → Bool
  | array _ => false
  | tree _ => true

def getPredecessorKey (key : κ) :
    FImmutableSortedDictionary κ β cmp → Except NSException (Option κ)
  | array d => d.getPredecessorKey key
  | tree d => d.getPredecessorKey key

/-- `fromDictionary:withComparator:`. -/
def fromDictionary [TransCmp cmp] (dictionary : List (κ × β)) :
    Except NSException (FImmutableSortedDictionary κ β cmp) :=
  if dictionary.length ≤ SORTED_DICTIONARY_ARRAY_TO_RB_TREE_SIZE_THRESHOLD then
    (FArraySortedDictionary.fromDictionary dictionary).map array
  else (FTreeSortedDictionary.fromDictionary dictionary).map tree

/-- A plain dictionary with keys apart is taken, with its entries in order. -/
theorem exists_fromDictionary [TransCmp cmp] {dictionary : List (κ × β)}
    (ha : Apart cmp dictionary) :
    ∃ d : FImmutableSortedDictionary κ β cmp, fromDictionary dictionary = .ok d ∧
      d.entries = sortEntries cmp dictionary := by
  unfold fromDictionary
  split_ifs
  · obtain ⟨d, hd⟩ := FArraySortedDictionary.exists_fromDictionary ha
    exact ⟨array d, by rw [hd]; rfl, FArraySortedDictionary.entries_of_fromDictionary hd⟩
  · obtain ⟨d, hd⟩ := FTreeSortedDictionary.exists_fromDictionary ha
    exact ⟨tree d, by rw [hd]; rfl, FTreeSortedDictionary.entries_of_fromDictionary hd⟩

/-- Any other one raises. -/
theorem fromDictionary_eq_error [TransCmp cmp] {dictionary : List (κ × β)}
    (ha : ¬ Apart cmp dictionary) :
    (fromDictionary dictionary : Except NSException (FImmutableSortedDictionary κ β cmp)) =
      .error sameOrderingException := by
  unfold fromDictionary
  split_ifs
  · rw [FArraySortedDictionary.fromDictionary_eq_error ha]
    rfl
  · rw [FTreeSortedDictionary.fromDictionary_eq_error ha]
    rfl

theorem enumerator_eq [TransCmp cmp] (d : FImmutableSortedDictionary κ β cmp) (startKey : Option κ)
    (isReverse : Bool) (h : startKey = none → isReverse = false) :
    d.enumerator startKey isReverse =
      (directed isReverse (fromStart cmp startKey isReverse d.entries)).map Prod.fst := by
  cases d with
  | tree d => exact d.enumerator_eq startKey isReverse
  | array d =>
    cases startKey with
    | none =>
      cases h rfl
      have hall : fromStart cmp none false d.entries = d.entries :=
        fromStart_eq_self fun e _ => rfl
      change d.keys = (fromStart cmp none false d.entries).map Prod.fst
      rw [hall, d.map_fst_entries]
    | some s =>
      cases isReverse with
      | false => exact d.enumerator_forward s
      | true =>
        rw [map_fst_directed, if_pos rfl]
        exact d.enumerator_reverse s

end FImmutableSortedDictionary

end xellissime_book.sorted_dictionary
