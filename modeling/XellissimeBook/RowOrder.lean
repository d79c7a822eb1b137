-- The order of the rows. The client keeps the children of `books` sorted by
-- key and lists them in that order, so the list of books shows the records by
-- their ids, whatever the order in which they were saved.
import XellissimeBook.BookStore
import XellissimeBook.DictionaryRuns
import XellissimeBook.KeyOrder
import XellissimeBook.LoadedRows

open Std path_tree runs sorted_entries
open xellissime_book.database xellissime_book.book_record xellissime_book.book_store
open xellissime_book.key_order
open xellissime_book.list_of_books hiding step
open xellissime_book.sorted_dictionary hiding step
open xellissime_book.tree_dictionary

namespace xellissime_book.row_order

/-! ## The children of a node -/

/-- The children of an `FChildrenNode`. -/
abbrev Children := FImmutableSortedDictionary String FNode compareNames

/-- `getImmediateChild:`. -/
def getImmediateChild (childName : String) (children : Children) : FNode :=
  (children.get childName).getD .empty

/-- `updateImmediateChild:withNewChild:`. -/
def updateImmediateChild (childName : String) (newChildNode : FNode) (children : Children) :
    Except NSException Children :=
  if newChildNode.isEmpty then .ok (children.removeKey childName)
  else children.insertKey childName newChildNode

/-- `updateChild:withNewChild:`. Without a path the children are those of the
new node, which `nodeFrom` built from a dictionary. Below the first level the nodes
are `FNode`s, whose keys compare as strings: that is `compareKey:toKey:` where the
keys are plain. -/
def updateChild (path : List String) (newChildNode : FNode) (children : Children) :
    Except NSException Children :=
  match path with
  | [] => FImmutableSortedDictionary.fromDictionary newChildNode.children
  | front :: rest =>
    updateImmediateChild front
      (database.updateChild rest newChildNode (getImmediateChild front children)) children

/-- `snapshot.children`: a snapshot of each child, in the order of the key
enumerator. No node has a priority, so the index adds no order of its own. -/
def snapshotOf (children : Children) : Snapshot :=
  (children.enumerator none false).map fun key =>
    .dataSnapshot key (getImmediateChild key children)

/-- The id whose path the operation writes to. -/
def pathString : StoreOp → String
  | .saveBook book => book.bookId
  | .removeBook bookIdToRemove => bookIdToRemove

/-- The node that the operation writes there. -/
def newNode : StoreOp → FNode
  | .saveBook book => bookToSaveDictionary book
  | .removeBook _ => .empty

/-- An operation on the children of `books`, refused where `child` raises or
`nodeFrom` does. -/
def writeStep (children : Children) (op : StoreOp) : Option Children :=
  if isValidPathString (pathString op) then
    match validateNode "setValue:" [] (newNode op) with
    | .ok () => (updateChild (pieces (pathString op)) (newNode op) children).toOption
    | .error _ => none
  else none

/-! ## What the client takes as it is -/

/-- The texts that the operation brings in. -/
def textsOf : StoreOp → List String
  | .saveBook book => savedTexts book
  | .removeBook _ => []

/-- Every piece of the id is plain, and the database takes the texts. -/
structure Accepted (op : StoreOp) : Prop where
  plain : ∀ key ∈ pieces (pathString op), Plain key
  taken : ∀ text ∈ textsOf op, lengthOfBytes text ≤ kFirebaseMaxLeafSize

instance decidableAccepted (op : StoreOp) : Decidable (Accepted op) :=
  decidable_of_iff ((∀ key ∈ pieces (pathString op), Plain key) ∧
    ∀ text ∈ textsOf op, lengthOfBytes text ≤ kFirebaseMaxLeafSize)
    ⟨fun h => ⟨h.1, h.2⟩, fun h => ⟨h.plain, h.taken⟩⟩

theorem Accepted.validateNode_eq {op : StoreOp} (h : Accepted op) :
    validateNode "setValue:" [] (newNode op) = .ok () := by
  cases op with
  | saveBook book => exact validateNode_bookToSaveDictionary_iff.mpr h.taken
  | removeBook id =>
    rw [newNode, PathTree.empty, validateNode, validateChildren]

theorem plain_fields (book : Book) : ∀ c ∈ (bookToSaveDictionary book).children, Plain c.1 := by
  have hkeys : (bookToSaveDictionary book).children.map Prod.fst =
      ["bookId", "bookIsbn", "bookTitle", "bookAuthor", "bookEditor", "bookYearOfEdition",
        "bookCover", "bookOwner", "bookIsAvailable", "bookType"] := rfl
  have hplain : ∀ key ∈ ["bookId", "bookIsbn", "bookTitle", "bookAuthor", "bookEditor",
      "bookYearOfEdition", "bookCover", "bookOwner", "bookIsAvailable", "bookType"],
      Plain key := by
    decide +kernel
  intro c hc
  have hmem := List.mem_map_of_mem (f := Prod.fst) hc
  rw [hkeys] at hmem
  exact hplain c.1 hmem

theorem plain_newNode (op : StoreOp) : ∀ c ∈ (newNode op).children, Plain c.1 := by
  cases op with
  | saveBook book => exact plain_fields book
  | removeBook id =>
    intro c hc
    cases hc

theorem wellKeyed_newNode (op : StoreOp) : (newNode op).WellKeyed := by
  cases op with
  | saveBook book => exact wellKeyed_bookToSaveDictionary book
  | removeBook id => exact PathTree.wellKeyed_empty

/-! ## The sorted children hold what the database holds -/

/-- The children are those of the list, which has no two keys that compare equal. -/
structure Holds (children : Children) (cs : List (String × FNode)) : Prop where
  mem_iff : ∀ c, c ∈ children.entries ↔ c ∈ cs
  nodup : (cs.map Prod.fst).Nodup
  plain : ∀ c ∈ cs, Plain c.1

theorem apart_of_plain {cs : List (String × FNode)} (hn : (cs.map Prod.fst).Nodup)
    (hp : ∀ c ∈ cs, Plain c.1) : Apart compareNames cs := by
  refine (List.pairwise_map.mp hn).imp_of_mem ?_
  intro a b _ hb hne hab
  exact hne ((hp b hb).eq_of_compare hab)

theorem Holds.entries_eq {children : Children} {cs : List (String × FNode)}
    (h : Holds children cs) : children.entries = sortEntries compareNames cs := by
  have hsorted := sorted_sortEntries_iff.mpr (apart_of_plain h.nodup h.plain)
  have hperm : (sortEntries compareNames cs).Perm cs := List.mergeSort_perm _ _
  refine children.sorted.eq_of_mem_iff hsorted fun c => ?_
  rw [h.mem_iff, hperm.mem_iff]

/-- A plain key leads to the same child in both. -/
theorem Holds.getImmediateChild_eq {children : Children} {t : FNode}
    (h : Holds children t.children) {k : String} (hk : Plain k) :
    getImmediateChild k children = t.child k := by
  rw [getImmediateChild, PathTree.child, children.get_eq]
  congr 1
  ext v
  rw [findEntry_eq_some_iff children.sorted, getKey_eq_some_iff h.nodup]
  constructor
  · rintro ⟨k', hcmp, hm⟩
    rw [← hk.eq_of_compare (OrientedCmp.eq_symm hcmp)]
    exact (h.mem_iff _).mp hm
  · intro hm
    exact ⟨k, ReflCmp.compare_self, (h.mem_iff _).mpr hm⟩

theorem mem_setKey_iff {k : String} {v : FNode} {c : String × FNode} {cs : List (String × FNode)}
    (hn : (cs.map Prod.fst).Nodup) :
    c ∈ setKey k v cs ↔ c = (k, v) ∨ c.1 ≠ k ∧ c ∈ cs := by
  obtain ⟨k', w⟩ := c
  rw [← getKey_eq_some_iff (nodup_keys_setKey k v hn)]
  by_cases hk : k' = k
  · subst hk
    simp [eq_comm]
  · rw [getKey_setKey_of_ne hk, getKey_eq_some_iff hn]
    simp [hk]

theorem mem_insertEntry_iff {k : String} {v : FNode} {c : String × FNode}
    {es : List (String × FNode)} (hs : Sorted compareNames es) (hk : Plain k) :
    c ∈ insertEntry compareNames k v es ↔ c = (k, v) ∨ c.1 ≠ k ∧ c ∈ es := by
  by_cases hck : compareNames k c.1 = .eq
  · have hc : c.1 = k := hk.eq_of_compare (OrientedCmp.eq_symm hck)
    have hfind := findEntry_eq_some_iff (k := k) (v := c.2) (hs.insertEntry k v)
    rw [findEntry_insertEntry_self] at hfind
    constructor
    · intro hm
      have hv : some v = some c.2 := hfind.mpr ⟨c.1, hck, hm⟩
      exact Or.inl (Prod.ext hc (Option.some.inj hv).symm)
    · rintro (rfl | ⟨hne, _⟩)
      · obtain ⟨k', hcmp, hm⟩ := hfind.mp rfl
        rwa [hk.eq_of_compare (OrientedCmp.eq_symm hcmp)] at hm
      · exact absurd hc hne
  · rw [mem_insertEntry_of_ne hck]
    constructor
    · intro hm
      exact Or.inr ⟨fun hc => hck (by rw [hc]; exact ReflCmp.compare_self), hm⟩
    · rintro (rfl | ⟨_, hm⟩)
      · exact absurd ReflCmp.compare_self hck
      · exact hm

theorem mem_eraseEntry_iff {k : String} {c : String × FNode} {es : List (String × FNode)}
    (hk : Plain k) : c ∈ eraseEntry compareNames k es ↔ c.1 ≠ k ∧ c ∈ es := by
  have hcmp : compareNames k c.1 = .eq ↔ c.1 = k := by
    constructor
    · intro h
      exact hk.eq_of_compare (OrientedCmp.eq_symm h)
    · intro h
      rw [h]
      exact ReflCmp.compare_self
  simp only [eraseEntry, List.mem_filter, decide_eq_true_eq, ne_eq, hcmp, and_comm]

/-- A write at a plain key keeps the two alike. -/
theorem holds_updateImmediateChild {children : Children} {t : FNode}
    (h : Holds children t.children) {k : String} (hk : Plain k) (n : FNode) :
    ∃ children', updateImmediateChild k n children = .ok children' ∧
      Holds children' (PathTree.setChild k n t).children := by
  unfold updateImmediateChild
  split_ifs with hn
  · rw [PathTree.isEmpty_iff.mp hn, PathTree.children_setChild_empty]
    refine ⟨_, rfl, fun c => ?_, nodup_keys_eraseKey k h.nodup, fun c hc => ?_⟩
    · rw [children.entries_removeKey, mem_eraseEntry_iff hk, h.mem_iff, eraseKey, List.mem_filter,
        decide_eq_true_eq, and_comm]
    · exact h.plain c (List.mem_of_mem_filter hc)
  · have hne : n ≠ .empty := fun he => hn (PathTree.isEmpty_iff.mpr he)
    obtain ⟨children', hins, hsame⟩ := children.exists_insertKey k n
    rw [PathTree.children_setChild hne]
    have hplain : ∀ c ∈ setKey k n t.children, Plain c.1 := by
      intro c hc
      rcases mem_setKey hc with rfl | hold
      · exact hk
      · exact h.plain c hold
    have hmem : ∀ c, c ∈ insertEntry compareNames k n children.entries ↔
        c ∈ setKey k n t.children := by
      intro c
      rw [mem_insertEntry_iff children.sorted hk, h.mem_iff, mem_setKey_iff h.nodup]
    refine ⟨children', hins, fun c => ?_, nodup_keys_setKey k n h.nodup, hplain⟩
    rw [hsame.eq fun d hd k' hk' => (hplain d ((hmem d).mp hd)).eq_of_compare hk', hmem]

theorem holds_updateChild {children : Children} {t : FNode} (h : Holds children t.children)
    {path : List String} (hpath : ∀ key ∈ path, Plain key) {n : FNode}
    (hwell : n.WellKeyed) (hfields : ∀ c ∈ n.children, Plain c.1) :
    ∃ children', updateChild path n children = .ok children' ∧
      Holds children' (PathTree.set path n t).children := by
  cases path with
  | nil =>
    have hnodup := hwell.nodup_children
    have hapart := apart_of_plain hnodup hfields
    obtain ⟨children', hok, hentries⟩ := FImmutableSortedDictionary.exists_fromDictionary hapart
    refine ⟨children', hok, fun c => ?_, hnodup, hfields⟩
    have hperm : (sortEntries compareNames n.children).Perm n.children := List.mergeSort_perm _ _
    rw [hentries, hperm.mem_iff]
    rfl
  | cons front rest =>
    have hfront := hpath front List.mem_cons_self
    rw [PathTree.set_cons, ← h.getImmediateChild_eq hfront]
    exact holds_updateImmediateChild h hfront _

/-! ## Runs -/

theorem step_iff {db db' : Database} {op : StoreOp} :
    step db op = some db' ↔ isValidPathString (pathString op) = true ∧
      db' = db.setValue { path := booksReference.path ++ pieces (pathString op) } (newNode op)
        (wellKeyed_newNode op) := by
  cases op with
  | saveBook book => exact step_saveBook_iff
  | removeBook id => exact step_removeBook_iff

theorem holds_step {children : Children} {db db' : Database} {op : StoreOp}
    (h : Holds children (db.children booksReference)) (hp : Accepted op)
    (hs : step db op = some db') :
    ∃ children', writeStep children op = some children' ∧
      Holds children' (db'.children booksReference) := by
  obtain ⟨hv, rfl⟩ := step_iff.mp hs
  obtain ⟨children', hok, hholds⟩ := holds_updateChild h hp.plain (wellKeyed_newNode op)
    (plain_newNode op)
  refine ⟨children', ?_, ?_⟩
  · simp only [writeStep, hv, hp.validateNode_eq, hok, if_true]
    rfl
  · have hget := PathTree.get_set_above booksReference.path (pieces (pathString op)) (newNode op)
      db.root
    change Holds children' (PathTree.get booksReference.path (PathTree.set _ _ _)).children
    rw [hget]
    exact hholds

theorem holds_run {children : Children} {db db' : Database} {ops : List StoreOp}
    (h : Holds children (db.children booksReference)) (hp : ∀ op ∈ ops, Accepted op)
    (hr : run step db ops = some db') :
    ∃ children', run writeStep children ops = some children' ∧
      Holds children' (db'.children booksReference) := by
  induction ops generalizing children db with
  | nil =>
    cases hr
    exact ⟨children, rfl, h⟩
  | cons op ops ih =>
    rw [run_cons] at hr
    obtain ⟨db1, hs, hrest⟩ := Option.bind_eq_some_iff.mp hr
    obtain ⟨children1, hw, h1⟩ := holds_step h (hp op List.mem_cons_self) hs
    obtain ⟨children', hrun, h'⟩ := ih h1 (fun op' ho => hp op' (List.mem_cons_of_mem _ ho)) hrest
    exact ⟨children', by rw [run_cons, hw, Option.bind_some, hrun], h'⟩

theorem holds_empty :
    Holds FImmutableSortedDictionary.dictionaryWithComparator
      (Database.empty.children booksReference) := by
  refine ⟨fun c => ?_, by decide, fun c hc => ?_⟩
  · exact Iff.rfl
  · cases hc

/-- The snapshot of a child. -/
def childSnapshot (c : String × FNode) : SnapshotChild := .dataSnapshot c.1 c.2

theorem snapshotOf_eq (children : Children) :
    snapshotOf children = children.entries.map childSnapshot := by
  have hkeys : children.enumerator none false = children.entries.map Prod.fst := by
    rw [children.enumerator_eq _ _ (by simp), fromStart_eq_self fun e _ => rfl]
    rfl
  rw [snapshotOf, hkeys, List.map_map]
  refine List.map_congr_left fun c hc => ?_
  have hget : children.get c.1 = some c.2 := by
    rw [children.get_eq, findEntry_eq_some_iff children.sorted]
    exact ⟨c.1, ReflCmp.compare_self, hc⟩
  simp only [Function.comp_apply, getImmediateChild, hget, Option.getD_some, childSnapshot]

theorem Holds.snapshotOf_eq {children : Children} {cs : List (String × FNode)}
    (h : Holds children cs) :
    snapshotOf children = (sortEntries compareNames cs).map childSnapshot := by
  rw [row_order.snapshotOf_eq, h.entries_eq]

/-- Whatever is saved and deleted, the client never raises on the way, and it holds
the records of the database in the order of their keys. -/
theorem the_client_holds_the_records_in_order (db : Database) (ops : List StoreOp)
    (hp : ∀ op ∈ ops, Accepted op) (hr : run step .empty ops = some db) :
    ∃ children, run writeStep .dictionaryWithComparator ops = some children ∧
      snapshotOf children =
        (sortEntries compareNames (db.children booksReference)).map childSnapshot := by
  obtain ⟨children, hrun, h⟩ := holds_run holds_empty hp hr
  exact ⟨children, hrun, h.snapshotOf_eq⟩

/-- Two records, the later one saved first. -/
def twoSaves : List StoreOp :=
  [.saveBook { Book.new "second title" "author" "2" with bookId := "uid2" },
    .saveBook { Book.new "first title" "author" "1" with bookId := "uid1" }]

theorem accepted_twoSaves : ∀ op ∈ twoSaves, Accepted op := by
  decide +kernel

theorem two_saves_are_held_in_order :
    ∃ db children, run step .empty twoSaves = some db ∧
      run writeStep .dictionaryWithComparator twoSaves = some children ∧
      snapshotOf children =
        (sortEntries compareNames (db.children booksReference)).map childSnapshot := by
  obtain ⟨db, hr⟩ : ∃ db, run step .empty twoSaves = some db :=
    Option.isSome_iff_exists.mp (by decide +kernel)
  obtain ⟨children, h⟩ := the_client_holds_the_records_in_order db twoSaves accepted_twoSaves hr
  exact ⟨db, children, hr, h⟩

end xellissime_book.row_order
