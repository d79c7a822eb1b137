-- The sorted dictionary over a left-leaning red-black tree
-- (Pods/FirebaseDatabase, FTreeSortedDictionary.m): its operations, the tree
-- that it builds out of a plain dictionary, and its enumerators.
import Mathlib.Data.List.Sort
import XellissimeBook.NodeRemoval

open Std sorted_entries
open xellissime_book.database xellissime_book.llrb_nodes

namespace xellissime_book.tree_dictionary

variable {κ β : Type*} {cmp : κ → κ → Ordering}

open FLLRBNode hiding min
open FLLRBColor

/-! ## Searches -/

/-- `get:`. -/
def get (cmp : κ → κ → Ordering) (key : κ) : FLLRBNode κ β → Option β
  | emptyNode => none
  | valueNode k v _ l r =>
    match cmp key k with
    | .eq => some v
    | .lt => get cmp key l
    | .gt => get cmp key r

/-- The loop of `getPredecessorKey:`. The way from a left child down its right
children is that of `maxKey`. -/
def predecessorLoop (cmp : κ → κ → Ordering) (key : κ) (rightParent : Option κ) :
    FLLRBNode κ β → Except NSException (Option κ)
  | emptyNode => .error
      { name := "NonexistentKey"
        reason := "getPredecessorKey called with nonexistent key." }
  | valueNode k _ _ l r =>
    match cmp key k with
    | .eq => .ok (if l.isEmpty then rightParent else l.maxKey)
    | .lt => predecessorLoop cmp key rightParent l
    | .gt => predecessorLoop cmp key (some k) r

theorem get_eq_findEntry [TransCmp cmp] {key : κ} {n : FLLRBNode κ β}
    (hs : Sorted cmp n.entries) : get cmp key n = findEntry cmp key n.entries := by
  induction n with
  | emptyNode => rfl
  | valueNode k v c l r ihl ihr =>
    obtain ⟨hl, hr, -, -⟩ := sorted_middle hs
    rw [entries] at hs ⊢
    rw [get]
    split
    · rename_i heq
      rw [findEntry_append_of_eq hs heq]
    · rename_i hlt
      rw [findEntry_append_of_lt hs hlt, ihl hl]
    · rename_i hgt
      rw [findEntry_append_of_gt hs hgt, ihr hr]

theorem maxKey_eq_getLast? (n : FLLRBNode κ β) :
    n.maxKey = (n.entries.getLast?).map Prod.fst := by
  induction n with
  | emptyNode => rfl
  | valueNode k v c l r _ ihr =>
    cases hr : r with
    | emptyNode => simp [maxKey, entries]
    | valueNode rk rv rc rl rr =>
      have hne : r.entries ≠ [] := fun h => by
        rw [entries_eq_nil_iff.mp h] at hr
        cases hr
      rw [← hr]
      have hmax : (valueNode k v c l r).maxKey = r.maxKey := by rw [hr]; rfl
      rw [hmax, ihr, entries, List.getLast?_append_cons, List.getLast?_cons_of_ne_nil hne]

theorem minKey_eq_head? (n : FLLRBNode κ β) : n.minKey = (n.entries.head?).map Prod.fst := by
  by_cases h : n = emptyNode
  · subst h
    rfl
  · obtain ⟨k, v, c, l, r, rest, hmin, hentries⟩ := exists_min h
    rw [minKey, hmin, hentries]
    rfl

/-- The key of the last entry before the key. -/
def predecessorKey (cmp : κ → κ → Ordering) (key : κ) (es : List (κ × β)) : Option κ :=
  ((entriesBefore cmp key es).getLast?).map Prod.fst

/-- The search ends in an error exactly when the key is not there. -/
theorem predecessorLoop_eq [TransCmp cmp] {key : κ} {n : FLLRBNode κ β}
    (hs : Sorted cmp n.entries) (rightParent : Option κ) :
    predecessorLoop cmp key rightParent n =
      if (findEntry cmp key n.entries).isSome then
        .ok ((predecessorKey cmp key n.entries).or rightParent)
      else .error
        { name := "NonexistentKey"
          reason := "getPredecessorKey called with nonexistent key." } := by
  induction n generalizing rightParent with
  | emptyNode => rfl
  | valueNode k v c l r ihl ihr =>
    obtain ⟨hl, hr, -, -⟩ := sorted_middle hs
    rw [entries] at hs ⊢
    rw [predecessorLoop]
    split
    · rename_i heq
      rw [findEntry_append_of_eq hs heq, predecessorKey, entriesBefore_append_of_eq hs heq]
      cases l with
      | emptyNode => rfl
      | valueNode lk lv lc ll lr =>
        rw [maxKey_eq_getLast?]
        have hne : (valueNode lk lv lc ll lr).entries ≠ [] := by simp [entries]
        obtain ⟨e, he⟩ := Option.ne_none_iff_exists'.mp (mt List.getLast?_eq_none_iff.mp hne)
        simp [he, FLLRBNode.isEmpty]
    · rename_i hlt
      rw [findEntry_append_of_lt hs hlt, predecessorKey, entriesBefore_append_of_lt hs hlt, ihl hl]
      rfl
    · rename_i hgt
      rw [findEntry_append_of_gt hs hgt, predecessorKey, entriesBefore_append_of_gt hs hgt, ihr hr]
      unfold predecessorKey
      rw [List.getLast?_append_cons, List.getLast?_cons]
      cases (entriesBefore cmp key r.entries).getLast? <;> rfl

/-! ## Trees built at once -/

/-- One turn of `base1_2List_next`: whether the digit of the place is a one. -/
def isOne (bits place : Nat) : Bool := !bits.testBit place

/-- `buildBalancedTree:dictionary:subArrayStartIndex:length:` over the sorted
keys with their values. An index past the end raises, and none here is. -/
def buildBalancedTree (es : List (κ × β)) (startIndex length : Nat) : FLLRBNode κ β :=
  let length := min (es.length - startIndex) length
  if length = 0 then emptyNode
  else if length = 1 then
    match es[startIndex]? with
    | some (k, v) => valueNode k v BLACK emptyNode emptyNode
    | none => emptyNode
  else
    let middle := length / 2
    let left := buildBalancedTree es startIndex middle
    let right := buildBalancedTree es (startIndex + middle + 1) middle
    match es[startIndex + middle]? with
    | some (k, v) => valueNode k v BLACK left right
    | none => emptyNode
termination_by length
decreasing_by all_goals omega

/-- `buildPennant`, with the pennants that come after it as the left child: the
source puts each new pennant there. -/
def buildPennant (es : List (κ × β)) (color : FLLRBColor) (chunkSize index : Nat)
    (left : FLLRBNode κ β) : FLLRBNode κ β :=
  match es[index - chunkSize]? with
  | some (k, v) =>
    valueNode k v color left (buildBalancedTree es (index - chunkSize + 1) (chunkSize - 1))
  | none => emptyNode

/-- The loop of `rootFrom12List:keyList:dictionary:` over the places of the
number, the highest first, with `index` keys to go. -/
def pennants (es : List (κ × β)) (bits : Nat) : Nat → Nat → FLLRBNode κ β
  | 0, _ => emptyNode
  | place + 1, index =>
    let chunkSize := 2 ^ place
    if isOne bits place then
      buildPennant es BLACK chunkSize index (pennants es bits place (index - chunkSize))
    else
      buildPennant es BLACK chunkSize index
        (buildPennant es RED chunkSize (index - chunkSize)
          (pennants es bits place (index - chunkSize - chunkSize)))

/-- `base1_2List_new` and `rootFrom12List:keyList:dictionary:`. -/
def rootFrom12List (es : List (κ × β)) : FLLRBNode κ β :=
  let count := (es.length + 1).log2
  let bits := (es.length + 1) % 2 ^ count
  pennants es bits count es.length

theorem buildBalancedTree_zero (es : List (κ × β)) (startIndex : Nat) :
    buildBalancedTree es startIndex 0 = emptyNode := by
  rw [buildBalancedTree]
  simp

theorem buildBalancedTree_middle {es : List (κ × β)} {startIndex middle : Nat}
    (h : startIndex + middle < es.length) (hright : startIndex + middle + 1 + middle ≤ es.length) :
    buildBalancedTree es startIndex (middle + 1 + middle) =
      valueNode es[startIndex + middle].1 es[startIndex + middle].2 BLACK
        (buildBalancedTree es startIndex middle)
        (buildBalancedTree es (startIndex + middle + 1) middle) := by
  have hget : es[startIndex + middle]? = some es[startIndex + middle] :=
    List.getElem?_eq_getElem h
  have hmin : min (es.length - startIndex) (middle + 1 + middle) = middle + 1 + middle := by omega
  have hhalf : (middle + 1 + middle) / 2 = middle := by omega
  rw [buildBalancedTree, hmin, if_neg (by omega), hhalf]
  by_cases hm : middle = 0
  · subst hm
    simp only [Nat.add_zero, Nat.zero_add, if_true, buildBalancedTree_zero] at hget ⊢
    simp only [hget]
  · rw [if_neg (by omega)]
    simp only [hget]

/-- The tree over a full stretch of the keys. -/
theorem buildBalancedTree_full (es : List (κ × β)) (place startIndex : Nat)
    (h : startIndex + (2 ^ place - 1) ≤ es.length) :
    Balanced BLACK place (buildBalancedTree es startIndex (2 ^ place - 1)) ∧
      (buildBalancedTree es startIndex (2 ^ place - 1)).entries =
        (es.drop startIndex).take (2 ^ place - 1) := by
  induction place generalizing startIndex with
  | zero =>
    have hzero : 2 ^ 0 - 1 = 0 := rfl
    rw [hzero, buildBalancedTree_zero]
    exact ⟨.empty, rfl⟩
  | succ place ih =>
    have hpow : 2 ^ (place + 1) - 1 = (2 ^ place - 1) + 1 + (2 ^ place - 1) := by
      have := Nat.two_pow_pos place
      rw [Nat.pow_succ]
      omega
    rw [hpow] at h ⊢
    generalize 2 ^ place - 1 = m at *
    obtain ⟨hbl, hel⟩ := ih startIndex (by omega)
    obtain ⟨hbr, her⟩ := ih (startIndex + m + 1) (by omega)
    rw [buildBalancedTree_middle (by omega) (by omega)]
    refine ⟨.black hbl hbr, ?_⟩
    have hdrop : (es.drop startIndex).drop m =
        es[startIndex + m] :: es.drop (startIndex + m + 1) := by
      rw [List.drop_drop]
      exact List.drop_eq_getElem_cons (by omega)
    have htwo : m + 1 + m = m + (m + 1) := by omega
    rw [entries, hel, her, htwo, List.take_add, hdrop, List.take_succ_cons]

/-- One pennant over the keys before `index`, with the full tree on its right. -/
theorem exists_buildPennant (es : List (κ × β)) (place index : Nat) (hi : 2 ^ place ≤ index)
    (hle : index ≤ es.length) :
    ∃ k v right, (∀ color left, buildPennant es color (2 ^ place) index left =
        valueNode k v color left right) ∧ Balanced BLACK place right ∧
      es.take index = es.take (index - 2 ^ place) ++ (k, v) :: right.entries := by
  have hpos := Nat.two_pow_pos place
  have hlt : index - 2 ^ place < es.length := by omega
  have hget : es[index - 2 ^ place]? = some es[index - 2 ^ place] := List.getElem?_eq_getElem hlt
  obtain ⟨hb, he⟩ := buildBalancedTree_full es place (index - 2 ^ place + 1) (by omega)
  refine ⟨es[index - 2 ^ place].1, es[index - 2 ^ place].2, _, fun color left => ?_, hb, ?_⟩
  · unfold buildPennant
    simp only [hget]
  · have hsplit : index = (index - 2 ^ place) + ((2 ^ place - 1) + 1) := by omega
    have htake : es.take index =
        es.take (index - 2 ^ place) ++ (es.drop (index - 2 ^ place)).take ((2 ^ place - 1) + 1) := by
      conv => lhs; rw [hsplit]
      exact List.take_add
    rw [htake, List.drop_eq_getElem_cons hlt, List.take_succ_cons, he]

theorem pennants_spec (es : List (κ × β)) (bits place index : Nat)
    (hindex : index + 1 = 2 ^ place + bits % 2 ^ place) (hle : index ≤ es.length) :
    Balanced BLACK place (pennants es bits place index) ∧
      (pennants es bits place index).entries = es.take index := by
  induction place generalizing index with
  | zero =>
    have hzero : index = 0 := by
      rw [Nat.pow_zero, Nat.mod_one] at hindex
      omega
    subst hzero
    exact ⟨.empty, rfl⟩
  | succ place ih =>
    have hpos := Nat.two_pow_pos place
    have hmod : bits % 2 ^ (place + 1) = bits % 2 ^ place + 2 ^ place * (bits / 2 ^ place % 2) := by
      rw [Nat.pow_succ, Nat.mod_mul]
    rw [hmod, Nat.pow_succ] at hindex
    have hone : isOne bits place = decide (bits / 2 ^ place % 2 = 0) := by
      rw [isOne, Nat.testBit_eq_decide_div_mod_eq]
      rcases Nat.mod_two_eq_zero_or_one (bits / 2 ^ place) with h | h <;> simp [h]
    obtain ⟨k, v, right, hbuild, hb, htake⟩ :=
      exists_buildPennant es place index (by omega) hle
    simp only [pennants, hbuild]
    rcases Nat.mod_two_eq_zero_or_one (bits / 2 ^ place) with hbit | hbit
    · -- the digit one: one black pennant
      rw [hone, hbit]
      rw [hbit] at hindex
      obtain ⟨hbrest, herest⟩ := ih (index - 2 ^ place) (by omega) (by omega)
      exact ⟨.black hbrest hb, by simp [entries, herest, htake]⟩
    · -- the digit two: a black pennant, and a red one on its left
      rw [hone, hbit]
      rw [hbit] at hindex
      obtain ⟨rk, rv, rright, hrbuild, hrb, hrtake⟩ :=
        exists_buildPennant es place (index - 2 ^ place) (by omega) (by omega)
      obtain ⟨hbrest, herest⟩ := ih (index - 2 ^ place - 2 ^ place) (by omega) (by omega)
      simp only [hrbuild]
      exact ⟨.black (.red hbrest hrb) hb, by simp [entries, herest, htake, hrtake]⟩

/-- The tree over sorted keys is balanced and holds them in their order. -/
theorem rootFrom12List_spec (es : List (κ × β)) :
    (∃ h, Balanced BLACK h (rootFrom12List es)) ∧ (rootFrom12List es).entries = es := by
  have hlow : 2 ^ (es.length + 1).log2 ≤ es.length + 1 := Nat.log2_self_le (by omega)
  have hhigh : es.length + 1 < 2 ^ ((es.length + 1).log2 + 1) := Nat.lt_log2_self
  have hmod : (es.length + 1) % 2 ^ (es.length + 1).log2 =
      es.length + 1 - 2 ^ (es.length + 1).log2 := by
    rw [Nat.pow_succ] at hhigh
    rw [Nat.mod_eq_sub_mod hlow, Nat.mod_eq_of_lt (by omega)]
  obtain ⟨hb, he⟩ := pennants_spec es ((es.length + 1) % 2 ^ (es.length + 1).log2)
    (es.length + 1).log2 es.length (by rw [Nat.mod_mod, hmod]; omega) (Nat.le_refl _)
  exact ⟨⟨_, hb⟩, by rw [rootFrom12List, he, List.take_length]⟩

/-! ## The dictionary -/

/-- The root is black and balanced, and its keys ascend. -/
structure FTreeSortedDictionary (κ β : Type*) (cmp : κ → κ → Ordering) where
  root : FLLRBNode κ β
  balanced : ∃ h, Balanced BLACK h root
  sorted : Sorted cmp root.entries

def sameOrderingException : NSException :=
  { name := "NSInvalidArgumentException"
    reason := "Can't create FImmutableSortedDictionary with keys with same ordering!" }

namespace FTreeSortedDictionary

/-- `initWithComparator:`. -/
def initWithComparator : FTreeSortedDictionary κ β cmp :=
  { root := emptyNode, balanced := ⟨0, .empty⟩, sorted := sorted_nil }

def entries (d : FTreeSortedDictionary κ β cmp) : List (κ × β) := d.root.entries

def get (d : FTreeSortedDictionary κ β cmp) (key : κ) : Option β := tree_dictionary.get cmp key d.root

def contains (d : FTreeSortedDictionary κ β cmp) (key : κ) : Bool := (d.get key).isSome

def getPredecessorKey (d : FTreeSortedDictionary κ β cmp) (key : κ) :
    Except NSException (Option κ) :=
  predecessorLoop cmp key none d.root

variable [TransCmp cmp]

/-- `insertKey:withValue:`. -/
def insertKey (d : FTreeSortedDictionary κ β cmp) (aKey : κ) (aValue : β) :
    FTreeSortedDictionary κ β cmp where
  root := (d.root.insertKey cmp aKey aValue).copyWithColor BLACK
  balanced := by
    obtain ⟨h, hb⟩ := d.balanced
    exact balanced_insertKey hb
  sorted := by
    rw [entries_copyWithColor, entries_insertKey d.sorted]
    exact d.sorted.insertEntry aKey aValue

/-- `removeKey:`. -/
def removeKey (d : FTreeSortedDictionary κ β cmp) (aKey : κ) : FTreeSortedDictionary κ β cmp :=
  if d.contains aKey then
    { root := (d.root.remove cmp aKey).copyWithColor BLACK
      balanced := by
        obtain ⟨h, hb⟩ := d.balanced
        exact (balanced_remove aKey hb d.sorted).1
      sorted := by
        obtain ⟨h, hb⟩ := d.balanced
        rw [entries_copyWithColor, (balanced_remove aKey hb d.sorted).2]
        exact d.sorted.eraseEntry aKey }
  else d

/-- What `fromDictionary:withComparator:` does with its sorted keys. -/
def fromSortedKeys (es : List (κ × β)) : Except NSException (FTreeSortedDictionary κ β cmp) :=
  if h : es.IsChain fun a b => cmp a.1 b.1 = .lt then
    .ok
      { root := rootFrom12List es
        balanced := (rootFrom12List_spec es).1
        sorted := by
          rw [(rootFrom12List_spec es).2]
          exact isChain_iff_sorted.mp h }
  else .error sameOrderingException

/-- `fromDictionary:withComparator:`, over the entries of the plain dictionary in
any order. -/
def fromDictionary (dictionary : List (κ × β)) :
    Except NSException (FTreeSortedDictionary κ β cmp) :=
  fromSortedKeys (sortEntries cmp dictionary)

theorem entries_insertKey (d : FTreeSortedDictionary κ β cmp) (aKey : κ) (aValue : β) :
    (d.insertKey aKey aValue).entries = insertEntry cmp aKey aValue d.entries := by
  change ((d.root.insertKey cmp aKey aValue).copyWithColor BLACK).entries = _
  rw [entries_copyWithColor, FLLRBNode.entries_insertKey d.sorted]
  rfl

theorem get_eq (d : FTreeSortedDictionary κ β cmp) (key : κ) :
    d.get key = findEntry cmp key d.entries :=
  get_eq_findEntry d.sorted

theorem getPredecessorKey_spec (d : FTreeSortedDictionary κ β cmp) (key : κ) :
    ((findEntry cmp key d.entries).isSome = true →
      d.getPredecessorKey key = .ok (predecessorKey cmp key d.entries)) ∧
    (findEntry cmp key d.entries = none → ∃ exception, d.getPredecessorKey key = .error exception) := by
  rw [getPredecessorKey, predecessorLoop_eq d.sorted]
  unfold entries
  refine ⟨fun h => ?_, fun h => ?_⟩
  · rw [if_pos h, Option.or_none]
  · rw [h]
    exact ⟨_, rfl⟩

theorem entries_removeKey (d : FTreeSortedDictionary κ β cmp) (aKey : κ) :
    (d.removeKey aKey).entries = eraseEntry cmp aKey d.entries := by
  unfold removeKey
  split_ifs with h
  · obtain ⟨g, hb⟩ := d.balanced
    change ((d.root.remove cmp aKey).copyWithColor BLACK).entries = _
    rw [entries_copyWithColor, (balanced_remove aKey hb d.sorted).2]
    rfl
  · rw [contains, get_eq, Option.not_isSome_iff_eq_none, findEntry_eq_none_iff] at h
    exact (eraseEntry_eq_self h).symm

theorem exists_fromDictionary {dictionary : List (κ × β)} (ha : Apart cmp dictionary) :
    ∃ d : FTreeSortedDictionary κ β cmp, fromDictionary dictionary = .ok d := by
  unfold fromDictionary fromSortedKeys
  rw [dif_pos (isChain_iff_sorted.mpr (sorted_sortEntries_iff.mpr ha))]
  exact ⟨_, rfl⟩

theorem fromDictionary_eq_error {dictionary : List (κ × β)} (ha : ¬ Apart cmp dictionary) :
    (fromDictionary dictionary : Except NSException (FTreeSortedDictionary κ β cmp)) =
      .error sameOrderingException := by
  unfold fromDictionary fromSortedKeys
  rw [dif_neg fun h => ha (sorted_sortEntries_iff.mp (isChain_iff_sorted.mp h))]

theorem entries_of_fromDictionary {dictionary : List (κ × β)} {d : FTreeSortedDictionary κ β cmp}
    (h : fromDictionary dictionary = .ok d) : d.entries = sortEntries cmp dictionary := by
  unfold fromDictionary fromSortedKeys at h
  split_ifs at h
  cases h
  exact (rootFrom12List_spec _).2

end FTreeSortedDictionary

/-! ## Enumerators -/

/-- The comparison of the enumerator: with the start key where there is one, and
turned in reverse. -/
def turned (cmp : κ → κ → Ordering) (startKey : Option κ) (isReverse : Bool) (key : κ) :
    Ordering :=
  let c := match startKey with
    | some s => cmp key s
    | none => .gt
  if isReverse then c.swap else c

/-- The loop of `initWithImmutableSortedDictionary:startKey:isReverse:`. The last
object of the stack comes first here. -/
def initStack (cmp : κ → κ → Ordering) (startKey : Option κ) (isReverse : Bool) :
    FLLRBNode κ β → List (FLLRBNode κ β) → List (FLLRBNode κ β)
  | emptyNode, stack => stack
  | valueNode k v c l r, stack =>
    match turned cmp startKey isReverse k with
    | .lt =>
      if isReverse then initStack cmp startKey isReverse l stack
      else initStack cmp startKey isReverse r stack
    | .eq => valueNode k v c l r :: stack
    | .gt =>
      if isReverse then initStack cmp startKey isReverse r (valueNode k v c l r :: stack)
      else initStack cmp startKey isReverse l (valueNode k v c l r :: stack)

/-- The inner loops of `nextObject`. -/
def pushChildren (isReverse : Bool) :
    FLLRBNode κ β → List (FLLRBNode κ β) → List (FLLRBNode κ β)
  | emptyNode, stack => stack
  | valueNode k v c l r, stack =>
    if isReverse then pushChildren isReverse r (valueNode k v c l r :: stack)
    else pushChildren isReverse l (valueNode k v c l r :: stack)

/-- `nextObject`. An empty node is never on the stack. -/
def nextObject (isReverse : Bool) :
    List (FLLRBNode κ β) → Option (κ × List (FLLRBNode κ β))
  | valueNode k _ _ l r :: stack =>
    some (k, pushChildren isReverse (if isReverse then l else r) stack)
  | _ => none

/-- The entries in the order of the enumerator. -/
def directed (isReverse : Bool) (es : List (κ × β)) : List (κ × β) :=
  if isReverse then es.reverse else es

/-- The keys that a stack still gives. -/
def pending (isReverse : Bool) : List (FLLRBNode κ β) → List κ
  | [] => []
  | emptyNode :: stack => pending isReverse stack
  | valueNode k _ _ l r :: stack =>
    k :: ((directed isReverse (if isReverse then l else r).entries).map Prod.fst ++
      pending isReverse stack)

theorem pending_pushChildren (isReverse : Bool) (n : FLLRBNode κ β)
    (stack : List (FLLRBNode κ β)) :
    pending isReverse (pushChildren isReverse n stack) =
      (directed isReverse n.entries).map Prod.fst ++ pending isReverse stack := by
  induction n generalizing stack with
  | emptyNode => cases isReverse <;> rfl
  | valueNode k v c l r ihl ihr =>
    cases isReverse with
    | false => simp [pushChildren, ihl, pending, directed, FLLRBNode.entries]
    | true => simp [pushChildren, ihr, pending, directed, FLLRBNode.entries]

theorem pending_of_nextObject {isReverse : Bool} {stack stack' : List (FLLRBNode κ β)} {k : κ}
    (h : nextObject isReverse stack = some (k, stack')) :
    pending isReverse stack = k :: pending isReverse stack' := by
  match stack with
  | valueNode _ _ _ _ _ :: rest =>
    cases h
    rw [pending, pending_pushChildren]

/-- All the objects that an enumerator gives. -/
def allObjects (isReverse : Bool) (stack : List (FLLRBNode κ β)) : List κ :=
  match _h : nextObject isReverse stack with
  | none => []
  | some (k, stack') => k :: allObjects isReverse stack'
termination_by (pending isReverse stack).length
decreasing_by
  rw [pending_of_nextObject _h]
  exact Nat.lt_succ_self _

/-- No empty node waits on the stack. -/
def NoEmpty (stack : List (FLLRBNode κ β)) : Prop := ∀ n ∈ stack, n ≠ emptyNode

theorem noEmpty_push {k : κ} {v : β} {c : FLLRBColor} {l r : FLLRBNode κ β}
    {stack : List (FLLRBNode κ β)} (h : NoEmpty stack) : NoEmpty (valueNode k v c l r :: stack) := by
  intro n hn
  rcases List.mem_cons.mp hn with rfl | hn
  · simp
  · exact h n hn

theorem noEmpty_pushChildren {isReverse : Bool} (n : FLLRBNode κ β) {stack : List (FLLRBNode κ β)}
    (h : NoEmpty stack) : NoEmpty (pushChildren isReverse n stack) := by
  induction n generalizing stack with
  | emptyNode => exact h
  | valueNode k v c l r ihl ihr =>
    rw [pushChildren]
    split_ifs
    · exact ihr (noEmpty_push h)
    · exact ihl (noEmpty_push h)

theorem noEmpty_initStack {startKey : Option κ} {isReverse : Bool} (n : FLLRBNode κ β)
    {stack : List (FLLRBNode κ β)} (h : NoEmpty stack) :
    NoEmpty (initStack cmp startKey isReverse n stack) := by
  induction n generalizing stack with
  | emptyNode => exact h
  | valueNode k v c l r ihl ihr =>
    rw [initStack]
    split
    · split_ifs
      · exact ihl h
      · exact ihr h
    · exact noEmpty_push h
    · split_ifs
      · exact ihr (noEmpty_push h)
      · exact ihl (noEmpty_push h)

theorem noEmpty_of_nextObject {isReverse : Bool} {stack stack' : List (FLLRBNode κ β)} {k : κ}
    (h : NoEmpty stack) (hn : nextObject isReverse stack = some (k, stack')) : NoEmpty stack' := by
  match stack with
  | valueNode _ _ _ _ _ :: rest =>
    cases hn
    exact noEmpty_pushChildren _ fun n hmem => h n (List.mem_cons_of_mem _ hmem)

/-- The objects of an enumerator are the keys that its stack has pending. -/
theorem allObjects_eq_pending {isReverse : Bool} {stack : List (FLLRBNode κ β)}
    (h : NoEmpty stack) : allObjects isReverse stack = pending isReverse stack := by
  induction stack using allObjects.induct isReverse with
  | case1 stack hnone =>
    rw [allObjects]
    split
    · match stack with
      | [] => rfl
      | emptyNode :: _ => exact absurd rfl (h emptyNode List.mem_cons_self)
      | valueNode _ _ _ _ _ :: _ => cases hnone
    · rename_i hsome
      rw [hnone] at hsome
      cases hsome
  | case2 stack k stack' hsome ih =>
    rw [allObjects]
    split
    · rename_i hnone
      rw [hsome] at hnone
      cases hnone
    · rename_i k1 stack1 hsome1
      rw [hsome] at hsome1
      cases hsome1
      rw [ih (noEmpty_of_nextObject h hsome), pending_of_nextObject hsome]

/-- The entries that the start key lets an enumerator give. -/
def fromStart (cmp : κ → κ → Ordering) (startKey : Option κ) (isReverse : Bool)
    (es : List (κ × β)) : List (κ × β) :=
  es.filter fun e => turned cmp startKey isReverse e.1 ≠ .lt

@[simp] theorem fromStart_append (startKey : Option κ) (isReverse : Bool) (l r : List (κ × β)) :
    fromStart cmp startKey isReverse (l ++ r) =
      fromStart cmp startKey isReverse l ++ fromStart cmp startKey isReverse r := by
  simp only [fromStart, List.filter_append]

theorem fromStart_cons (startKey : Option κ) (isReverse : Bool) (e : κ × β)
    (es : List (κ × β)) :
    fromStart cmp startKey isReverse (e :: es) =
      (if turned cmp startKey isReverse e.1 = .lt then [] else [e]) ++
        fromStart cmp startKey isReverse es := by
  unfold fromStart
  split_ifs with h
  · rw [List.filter_cons_of_neg (by simpa using h)]
    rfl
  · rw [List.filter_cons_of_pos (by simpa using h)]
    rfl

theorem fromStart_eq_self {startKey : Option κ} {isReverse : Bool} {es : List (κ × β)}
    (h : ∀ e ∈ es, turned cmp startKey isReverse e.1 = .gt) :
    fromStart cmp startKey isReverse es = es := by
  unfold fromStart
  rw [List.filter_eq_self]
  intro e he
  simp [h e he]

theorem fromStart_eq_nil {startKey : Option κ} {isReverse : Bool} {es : List (κ × β)}
    (h : ∀ e ∈ es, turned cmp startKey isReverse e.1 = .lt) :
    fromStart cmp startKey isReverse es = [] := by
  unfold fromStart
  rw [List.filter_eq_nil_iff]
  intro e he
  simp [h e he]

theorem turned_reverse_eq_gt_iff {k s : κ} :
    turned cmp (some s) true k = .gt ↔ cmp k s = .lt := by
  change (cmp k s).swap = .gt ↔ _
  cases cmp k s <;> simp

theorem turned_reverse_eq_lt_iff {k s : κ} :
    turned cmp (some s) true k = .lt ↔ cmp k s = .gt := by
  change (cmp k s).swap = .lt ↔ _
  cases cmp k s <;> simp

theorem turned_reverse (s : κ) :
    (fun k => decide (turned cmp (some s) true k ≠ .lt)) = fun k => decide (cmp k s ≠ .gt) := by
  funext k
  exact decide_eq_decide.mpr (not_congr turned_reverse_eq_lt_iff)

section
variable [TransCmp cmp] {startKey : Option κ} {k k' : κ}

/-! A key past one that the start lets through is let through, and a key before
one that it does not is not. -/

theorem turned_gt_of_lt (ht : turned cmp startKey false k ≠ .lt) (hk : cmp k k' = .lt) :
    turned cmp startKey false k' = .gt := by
  cases startKey with
  | none => rfl
  | some s =>
    change cmp k s ≠ .lt at ht
    change cmp k' s = .gt
    cases hs : cmp k s with
    | lt => exact absurd hs ht
    | eq => exact TransCmp.gt_of_gt_of_eq (OrientedCmp.gt_of_lt hk) hs
    | gt => exact TransCmp.gt_trans (OrientedCmp.gt_of_lt hk) hs

theorem turned_lt_of_lt (ht : turned cmp startKey false k ≠ .gt) (hk : cmp k' k = .lt) :
    turned cmp startKey false k' = .lt := by
  cases startKey with
  | none => exact absurd rfl ht
  | some s =>
    change cmp k s ≠ .gt at ht
    change cmp k' s = .lt
    cases hs : cmp k s with
    | lt => exact TransCmp.lt_trans hk hs
    | eq => exact TransCmp.lt_of_lt_of_eq hk hs
    | gt => exact absurd hs ht

theorem turned_reverse_gt_of_lt (ht : turned cmp startKey true k ≠ .lt) (hk : cmp k' k = .lt) :
    turned cmp startKey true k' = .gt := by
  cases startKey with
  | none => exact absurd rfl ht
  | some s =>
    rw [ne_eq, turned_reverse_eq_lt_iff] at ht
    rw [turned_reverse_eq_gt_iff]
    cases hs : cmp k s with
    | lt => exact TransCmp.lt_trans hk hs
    | eq => exact TransCmp.lt_of_lt_of_eq hk hs
    | gt => exact absurd hs ht

theorem turned_reverse_lt_of_lt (ht : turned cmp startKey true k ≠ .gt) (hk : cmp k k' = .lt) :
    turned cmp startKey true k' = .lt := by
  cases startKey with
  | none => rfl
  | some s =>
    rw [ne_eq, turned_reverse_eq_gt_iff] at ht
    rw [turned_reverse_eq_lt_iff]
    cases hs : cmp k s with
    | lt => exact absurd hs ht
    | eq => exact TransCmp.gt_of_gt_of_eq (OrientedCmp.gt_of_lt hk) hs
    | gt => exact TransCmp.gt_trans (OrientedCmp.gt_of_lt hk) hs

end

theorem pending_initStack_forward [TransCmp cmp] {startKey : Option κ} {n : FLLRBNode κ β}
    (hs : Sorted cmp n.entries) (stack : List (FLLRBNode κ β)) :
    pending false (initStack cmp startKey false n stack) =
      (fromStart cmp startKey false n.entries).map Prod.fst ++ pending false stack := by
  induction n generalizing stack with
  | emptyNode => rfl
  | valueNode k v c l r ihl ihr =>
    obtain ⟨hl, hr, hlk, hkr⟩ := sorted_middle hs
    rw [initStack, FLLRBNode.entries, fromStart_append, fromStart_cons]
    split
    · rename_i ht
      have hnot : turned cmp startKey false k ≠ .gt := by simp [ht]
      have hnil := fromStart_eq_nil fun e he => turned_lt_of_lt hnot (hlk e he)
      simp [ihr hr, hnil, ht]
    · rename_i ht
      have hnot : turned cmp startKey false k ≠ .gt := by simp [ht]
      have hnil := fromStart_eq_nil fun e he => turned_lt_of_lt hnot (hlk e he)
      have hnot' : turned cmp startKey false k ≠ .lt := by simp [ht]
      have hself := fromStart_eq_self fun e he => turned_gt_of_lt hnot' (hkr e he)
      simp [hnil, hself, ht, pending, directed]
    · rename_i ht
      have hnot' : turned cmp startKey false k ≠ .lt := by simp [ht]
      have hself := fromStart_eq_self fun e he => turned_gt_of_lt hnot' (hkr e he)
      simp [ihl hl, hself, ht, pending, directed]

theorem pending_initStack_reverse [TransCmp cmp] {startKey : Option κ} {n : FLLRBNode κ β}
    (hs : Sorted cmp n.entries) (stack : List (FLLRBNode κ β)) :
    pending true (initStack cmp startKey true n stack) =
      (fromStart cmp startKey true n.entries).reverse.map Prod.fst ++ pending true stack := by
  induction n generalizing stack with
  | emptyNode => rfl
  | valueNode k v c l r ihl ihr =>
    obtain ⟨hl, hr, hlk, hkr⟩ := sorted_middle hs
    rw [initStack, FLLRBNode.entries, fromStart_append, fromStart_cons]
    split
    · rename_i ht
      have hnot : turned cmp startKey true k ≠ .gt := by simp [ht]
      have hnil := fromStart_eq_nil fun e he => turned_reverse_lt_of_lt hnot (hkr e he)
      simp [ihl hl, hnil, ht]
    · rename_i ht
      have hnot : turned cmp startKey true k ≠ .gt := by simp [ht]
      have hnil := fromStart_eq_nil fun e he => turned_reverse_lt_of_lt hnot (hkr e he)
      have hnot' : turned cmp startKey true k ≠ .lt := by simp [ht]
      have hself := fromStart_eq_self fun e he => turned_reverse_gt_of_lt hnot' (hlk e he)
      simp [hnil, hself, ht, pending, directed]
    · rename_i ht
      have hnot' : turned cmp startKey true k ≠ .lt := by simp [ht]
      have hself := fromStart_eq_self fun e he => turned_reverse_gt_of_lt hnot' (hlk e he)
      simp [ihr hr, hself, ht, pending, directed]

namespace FTreeSortedDictionary

/-- The keys of `keyEnumeratorFrom:` and its three siblings, with `none` for no
start key. -/
def enumerator (d : FTreeSortedDictionary κ β cmp) (startKey : Option κ) (isReverse : Bool) :
    List κ :=
  allObjects isReverse (initStack cmp startKey isReverse d.root [])

theorem enumerator_eq [TransCmp cmp] (d : FTreeSortedDictionary κ β cmp) (startKey : Option κ)
    (isReverse : Bool) :
    d.enumerator startKey isReverse =
      (directed isReverse (fromStart cmp startKey isReverse d.entries)).map Prod.fst := by
  have hnone : NoEmpty ([] : List (FLLRBNode κ β)) := fun n hn => absurd hn List.not_mem_nil
  rw [enumerator, allObjects_eq_pending (noEmpty_initStack _ hnone)]
  cases isReverse with
  | false => rw [pending_initStack_forward d.sorted, pending, List.append_nil]; rfl
  | true => rw [pending_initStack_reverse d.sorted, pending, List.append_nil]; rfl

end FTreeSortedDictionary

end xellissime_book.tree_dictionary
