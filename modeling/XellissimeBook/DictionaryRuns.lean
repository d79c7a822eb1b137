-- Runs of the sorted dictionary of the children of a node: it reads back what
-- was written, in the order of the keys, whether arrays or a tree hold it.
import XellissimeBook.Runs
import XellissimeBook.SortedDictionary

open Std runs sorted_entries
open xellissime_book.database xellissime_book.llrb_nodes xellissime_book.tree_dictionary

namespace xellissime_book.sorted_dictionary

variable {κ β : Type*} {cmp : κ → κ → Ordering}

/-! ## Operations -/

inductive DictionaryOp (κ β : Type*) where
  | insertKey (key : κ) (value : β)
  | removeKey (key : κ)

/-- The operation on sorted entries. -/
def DictionaryOp.onEntries (cmp : κ → κ → Ordering) (es : List (κ × β)) :
    DictionaryOp κ β → List (κ × β)
  | insertKey key value => insertEntry cmp key value es
  | removeKey key => eraseEntry cmp key es

/-- What the operation leaves at a key that held `current`. -/
def DictionaryOp.onValue (cmp : κ → κ → Ordering) (key : κ) (current : Option β) :
    DictionaryOp κ β → Option β
  | insertKey k value => if cmp key k = .eq then some value else current
  | removeKey k => if cmp key k = .eq then none else current

/-- The value of the last insertion at the key, unless it was removed after it. -/
def lastValue (cmp : κ → κ → Ordering) (key : κ) (ops : List (DictionaryOp κ β)) : Option β :=
  ops.foldl (DictionaryOp.onValue cmp key) none

section
variable [TransCmp cmp]

/-- The operation on a tree. -/
def DictionaryOp.onTree (d : FTreeSortedDictionary κ β cmp) :
    DictionaryOp κ β → FTreeSortedDictionary κ β cmp
  | insertKey key value => d.insertKey key value
  | removeKey key => d.removeKey key

/-- A dictionary that is a tree from the start. -/
def treeAfter (ops : List (DictionaryOp κ β)) : FTreeSortedDictionary κ β cmp :=
  ops.foldl DictionaryOp.onTree FTreeSortedDictionary.initWithComparator

/-- One operation, refused where it raises. -/
def step [DecidableEq κ] (d : FImmutableSortedDictionary κ β cmp) :
    DictionaryOp κ β → Option (FImmutableSortedDictionary κ β cmp)
  | .insertKey key value => (d.insertKey key value).toOption
  | .removeKey key => some (d.removeKey key)

theorem exists_step [DecidableEq κ] (d : FImmutableSortedDictionary κ β cmp)
    (op : DictionaryOp κ β) :
    ∃ d', step d op = some d' ∧ SameEntries cmp d'.entries (op.onEntries cmp d.entries) := by
  cases op with
  | insertKey key value =>
    obtain ⟨d', hd, hs⟩ := d.exists_insertKey key value
    exact ⟨d', by rw [step, hd]; rfl, hs⟩
  | removeKey key =>
    refine ⟨_, rfl, ?_⟩
    rw [d.entries_removeKey]
    exact sameEntries_refl _

theorem sameEntries_onEntries {es fs : List (κ × β)} (h : SameEntries cmp es fs)
    (op : DictionaryOp κ β) : SameEntries cmp (op.onEntries cmp es) (op.onEntries cmp fs) := by
  cases op with
  | insertKey key value => exact h.insertEntry key value
  | removeKey key => exact h.eraseEntry key

/-- A run never stops, and its entries are those of the operations. -/
theorem exists_run [DecidableEq κ] (ops : List (DictionaryOp κ β))
    (d : FImmutableSortedDictionary κ β cmp) {es : List (κ × β)}
    (h : SameEntries cmp d.entries es) :
    ∃ d', run step d ops = some d' ∧
      SameEntries cmp d'.entries (ops.foldl (DictionaryOp.onEntries cmp) es) := by
  induction ops generalizing d es with
  | nil => exact ⟨d, rfl, h⟩
  | cons op ops ih =>
    obtain ⟨d1, hstep, hs⟩ := exists_step d op
    obtain ⟨d', hrun, hs'⟩ := ih d1 (hs.trans (sameEntries_onEntries h op))
    exact ⟨d', by rw [run_cons, hstep, Option.bind_some, hrun], hs'⟩

theorem entries_onTree (d : FTreeSortedDictionary κ β cmp) (op : DictionaryOp κ β) :
    (op.onTree d).entries = op.onEntries cmp d.entries := by
  cases op with
  | insertKey key value => exact d.entries_insertKey key value
  | removeKey key => exact d.entries_removeKey key

theorem entries_foldl_onTree (ops : List (DictionaryOp κ β))
    (d : FTreeSortedDictionary κ β cmp) :
    (ops.foldl DictionaryOp.onTree d).entries =
      ops.foldl (DictionaryOp.onEntries cmp) d.entries := by
  induction ops generalizing d with
  | nil => rfl
  | cons op ops ih =>
    rw [List.foldl_cons, List.foldl_cons, ih, entries_onTree]

theorem findEntry_onEntries (key : κ) (op : DictionaryOp κ β) (es : List (κ × β)) :
    findEntry cmp key (op.onEntries cmp es) = op.onValue cmp key (findEntry cmp key es) := by
  cases op with
  | insertKey k value =>
    simp only [DictionaryOp.onEntries, DictionaryOp.onValue]
    split_ifs with h
    · rw [findEntry_congr h, findEntry_insertEntry_self]
    · exact findEntry_insertEntry_of_ne h value es
  | removeKey k =>
    simp only [DictionaryOp.onEntries, DictionaryOp.onValue]
    split_ifs with h
    · rw [findEntry_congr h, findEntry_eraseEntry_self]
    · exact findEntry_eraseEntry_of_ne h es

theorem findEntry_foldl (key : κ) (ops : List (DictionaryOp κ β)) (es : List (κ × β)) :
    findEntry cmp key (ops.foldl (DictionaryOp.onEntries cmp) es) =
      ops.foldl (DictionaryOp.onValue cmp key) (findEntry cmp key es) := by
  induction ops generalizing es with
  | nil => rfl
  | cons op ops ih => rw [List.foldl_cons, List.foldl_cons, ih, findEntry_onEntries]

theorem sameEntries_fromStart {es fs : List (κ × β)} (h : SameEntries cmp es fs)
    (startKey : Option κ) (isReverse : Bool) :
    SameEntries cmp (fromStart cmp startKey isReverse es) (fromStart cmp startKey isReverse fs) :=
  h.filter (p := fun k => decide (turned cmp startKey isReverse k ≠ .lt)) fun a b hab => by
    cases startKey with
    | none => rfl
    | some s =>
      unfold turned
      simp only [TransCmp.congr_left hab]

omit [TransCmp cmp] in
theorem sameEntries_directed (isReverse : Bool) {es fs : List (κ × β)}
    (h : SameEntries cmp es fs) : SameEntries cmp (directed isReverse es) (directed isReverse fs) := by
  cases isReverse with
  | false => exact h
  | true => exact List.forall₂_reverse_iff.mpr h

/-! ## The laws -/

/-- Every tree that a run builds passes its own check, and no search in it goes
deeper than twice the logarithm of its size. -/
theorem every_tree_passes_its_own_check (ops : List (DictionaryOp κ β))
    (description : β → String) :
    let root := (treeAfter ops : FTreeSortedDictionary κ β cmp).root
    (∃ blackDepth, root.check description = .ok blackDepth) ∧
      root.checkMaxDepth description = .ok true ∧
      root.depth ≤ 2 * (root.count + 1).log2 := by
  intro root
  obtain ⟨h, hb⟩ : ∃ h, FLLRBNode.Balanced .BLACK h root := (treeAfter ops).balanced
  have hcheck : root.check description = .ok h := FLLRBNode.check_eq_ok_iff.mpr ⟨_, hb⟩
  have hpow := hb.pow_le_count
  refine ⟨⟨h, hcheck⟩, ?_, ?_⟩
  · rw [FLLRBNode.checkMaxDepth, hcheck]
    exact congrArg Except.ok (decide_eq_true hpow)
  · have hlog : h ≤ (root.count + 1).log2 := (Nat.le_log2 (by omega)).mpr hpow
    have hdepth := hb.depth_le
    simp only [reduceCtorEq, if_false] at hdepth
    omega

/-- An insertion, a second one, and the removal of the first key. -/
def threeOps : List (DictionaryOp Nat String) :=
  [.insertKey 2 "two", .insertKey 1 "one", .removeKey 2]

theorem the_tree_of_three_operations_passes_its_own_check :
    let root := (treeAfter threeOps : FTreeSortedDictionary Nat String compare).root
    (∃ blackDepth, root.check id = .ok blackDepth) ∧ root.checkMaxDepth id = .ok true ∧
      root.depth ≤ 2 * (root.count + 1).log2 :=
  every_tree_passes_its_own_check threeOps id

variable (cmp) in
/-- Whatever the run, no operation raises, each key reads the last value that was
put there and not removed, and the entries stand in the order of their keys. -/
theorem a_dictionary_reads_back_its_history [DecidableEq κ] (ops : List (DictionaryOp κ β)) :
    ∃ d : FImmutableSortedDictionary κ β cmp,
      run step FImmutableSortedDictionary.dictionaryWithComparator ops = some d ∧
        (∀ key, d.get key = lastValue cmp key ops) ∧ Sorted cmp d.entries := by
  obtain ⟨d, hrun, hs⟩ := exists_run ops
    (FImmutableSortedDictionary.dictionaryWithComparator : FImmutableSortedDictionary κ β cmp)
    (sameEntries_refl _)
  refine ⟨d, hrun, fun key => ?_, d.sorted⟩
  rw [d.get_eq, hs.findEntry_eq, findEntry_foldl]
  rfl

theorem three_operations_leave_the_second_key :
    ∃ d : FImmutableSortedDictionary Nat String compare,
      run step FImmutableSortedDictionary.dictionaryWithComparator threeOps = some d ∧
        d.get 1 = some "one" ∧ d.get 2 = none := by
  obtain ⟨d, hrun, hget, _⟩ := a_dictionary_reads_back_its_history compare threeOps
  exact ⟨d, hrun, by rw [hget]; decide, by rw [hget]; decide⟩

variable (cmp) in
/-- The run of a dictionary that starts as arrays, and that of a tree, hold the
same values in the same order, and give the same keys from a start key. -/
theorem arrays_and_a_tree_agree [DecidableEq κ] (ops : List (DictionaryOp κ β)) :
    ∃ d : FImmutableSortedDictionary κ β cmp,
      run step FImmutableSortedDictionary.dictionaryWithComparator ops = some d ∧
        SameEntries cmp d.entries (treeAfter ops : FTreeSortedDictionary κ β cmp).entries ∧
        (∀ key, d.get key = (treeAfter ops : FTreeSortedDictionary κ β cmp).get key) ∧
        ∀ s isReverse, List.Forall₂ (fun a b => cmp a b = .eq)
          (d.enumerator (some s) isReverse)
          ((treeAfter ops : FTreeSortedDictionary κ β cmp).enumerator (some s) isReverse) := by
  obtain ⟨d, hrun, hs⟩ := exists_run ops
    (FImmutableSortedDictionary.dictionaryWithComparator : FImmutableSortedDictionary κ β cmp)
    (sameEntries_refl _)
  have hsame : SameEntries cmp d.entries (treeAfter ops : FTreeSortedDictionary κ β cmp).entries := by
    rw [treeAfter, entries_foldl_onTree]
    exact hs
  refine ⟨d, hrun, hsame, fun key => ?_, fun s isReverse => ?_⟩
  · rw [d.get_eq, FTreeSortedDictionary.get_eq, hsame.findEntry_eq]
  · rw [d.enumerator_eq _ _ (by simp), FTreeSortedDictionary.enumerator_eq]
    exact (sameEntries_directed isReverse (sameEntries_fromStart hsame (some s) isReverse)).keys

theorem three_operations_agree :
    ∃ d : FImmutableSortedDictionary Nat String compare,
      run step FImmutableSortedDictionary.dictionaryWithComparator threeOps = some d ∧
        d.get 1 = (treeAfter threeOps : FTreeSortedDictionary Nat String compare).get 1 := by
  obtain ⟨d, hrun, _, hget, _⟩ := arrays_and_a_tree_agree compare threeOps
  exact ⟨d, hrun, hget 1⟩

/-- With a start key an enumerator gives the keys from there on in its direction.
Without one, the forward enumerator gives every key, and the reverse one gives
every key of an array and none of a tree. -/
theorem an_enumerator_gives_the_keys_from_its_start (d : FImmutableSortedDictionary κ β cmp) :
    (∀ s, d.enumerator (some s) false =
      (d.entries.map Prod.fst).filter fun k => cmp k s ≠ .lt) ∧
    (∀ s, d.enumerator (some s) true =
      ((d.entries.map Prod.fst).filter fun k => cmp k s ≠ .gt).reverse) ∧
    d.enumerator none false = d.entries.map Prod.fst ∧
    d.enumerator none true = if d.isTree then [] else (d.entries.map Prod.fst).reverse := by
  refine ⟨fun s => ?_, fun s => ?_, ?_, ?_⟩
  · rw [d.enumerator_eq _ _ (by simp), map_fst_directed, map_fst_fromStart]
    rfl
  · rw [d.enumerator_eq _ _ (by simp), map_fst_directed, map_fst_fromStart, turned_reverse]
    rfl
  · rw [d.enumerator_eq _ _ (by simp), map_fst_directed, fromStart_eq_self fun e _ => rfl]
    rfl
  · cases d with
    | array d =>
      change d.keys.reverse = (d.entries.map Prod.fst).reverse
      rw [d.map_fst_entries]
    | tree d =>
      change d.enumerator none true = []
      rw [d.enumerator_eq, fromStart_eq_nil fun e _ => rfl]
      rfl

theorem a_reverse_enumerator_of_a_tree_gives_nothing :
    (FImmutableSortedDictionary.tree
      (treeAfter threeOps : FTreeSortedDictionary Nat String compare)).enumerator none true = [] :=
  (an_enumerator_gives_the_keys_from_its_start (.tree (treeAfter threeOps))).2.2.2

/-- A plain dictionary is taken exactly when no two of its keys compare equal, and
the order of its entries has no part in what comes out. -/
theorem a_dictionary_is_built_in_any_order (dictionary : List (κ × β)) :
    (∀ dictionary', dictionary.Perm dictionary' →
      (FImmutableSortedDictionary.fromDictionary dictionary :
        Except NSException (FImmutableSortedDictionary κ β cmp)) =
        FImmutableSortedDictionary.fromDictionary dictionary') ∧
    ((∃ d : FImmutableSortedDictionary κ β cmp,
        FImmutableSortedDictionary.fromDictionary dictionary = .ok d ∧
          d.entries.Perm dictionary ∧ Sorted cmp d.entries) ↔ Apart cmp dictionary) := by
  by_cases ha : Apart cmp dictionary
  · obtain ⟨d, hd, he⟩ := FImmutableSortedDictionary.exists_fromDictionary ha
    have hperm : d.entries.Perm dictionary := by
      rw [he]
      exact List.mergeSort_perm _ _
    refine ⟨fun dictionary' hp => ?_, fun _ => ha, fun _ => ⟨d, hd, hperm, d.sorted⟩⟩
    rw [FImmutableSortedDictionary.fromDictionary, FImmutableSortedDictionary.fromDictionary,
      hp.length_eq, FArraySortedDictionary.fromDictionary, FArraySortedDictionary.fromDictionary,
      FTreeSortedDictionary.fromDictionary, FTreeSortedDictionary.fromDictionary,
      sortEntries_perm hp ha]
  · refine ⟨fun dictionary' hp => ?_, ?_, fun h => absurd h ha⟩
    · rw [FImmutableSortedDictionary.fromDictionary_eq_error ha,
        FImmutableSortedDictionary.fromDictionary_eq_error (mt (apart_perm hp).mpr ha)]
    · rintro ⟨d, hd, _⟩
      rw [FImmutableSortedDictionary.fromDictionary_eq_error ha] at hd
      cases hd

theorem two_entries_are_built_in_any_order :
    (FImmutableSortedDictionary.fromDictionary [(2, "two"), (1, "one")] :
        Except NSException (FImmutableSortedDictionary Nat String compare)) =
      FImmutableSortedDictionary.fromDictionary [(1, "one"), (2, "two")] :=
  (a_dictionary_is_built_in_any_order _).1 _ (List.Perm.swap _ _ _)

/-- The predecessor of a key that is there is the last key before it, and any
other key raises. -/
theorem the_predecessor_is_the_last_key_before (d : FImmutableSortedDictionary κ β cmp)
    (key : κ) :
    (d.get key ≠ none → d.getPredecessorKey key =
      .ok (((d.entries.map Prod.fst).filter fun k => cmp k key = .lt).getLast?)) ∧
    (d.get key = none → ∃ exception, d.getPredecessorKey key = .error exception) := by
  have hkeys : ((d.entries.map Prod.fst).filter fun k => cmp k key = .lt).getLast? =
      predecessorKey cmp key d.entries := by
    rw [predecessorKey, ← List.getLast?_map, entriesBefore, List.filter_map]
    rfl
  rw [hkeys, d.get_eq, ← Option.isSome_iff_ne_none]
  cases d with
  | tree d => exact d.getPredecessorKey_spec key
  | array d => exact d.getPredecessorKey_spec key

theorem the_predecessor_in_a_tree_of_two :
    (FImmutableSortedDictionary.tree
      (treeAfter (threeOps.take 2) : FTreeSortedDictionary Nat String compare)).getPredecessorKey 2 =
      .ok (some 1) := by
  have h := (the_predecessor_is_the_last_key_before (FImmutableSortedDictionary.tree
    (treeAfter (threeOps.take 2) : FTreeSortedDictionary Nat String compare)) 2).1 (by decide +kernel)
  rw [h]
  decide +kernel

end

end xellissime_book.sorted_dictionary
