-- The node `books` of the database under saves and deletions. A save writes
-- where the id of the book leads, and a deletion follows the id that the list
-- read in a record, so the law here is that the two paths are the same.
import XellissimeBook.BookRecord
import XellissimeBook.Runs

open path_tree runs
open xellissime_book.database xellissime_book.book_record

namespace xellissime_book.book_store

/-! ## The operations -/

/-- The removal in `tableView(_:commit:forRowAt:)`. -/
def removeBook (db : Database) (bookIdToRemove : String) : Except NSException Database := do
  let ref ← booksReference.child bookIdToRemove
  return db.removeValue ref

inductive StoreOp where
  | saveBook (book : Book)
  | removeBook (bookIdToRemove : String)

/-- The operations on the tree. A save is its write, for texts that the database
takes. -/
def StoreOp.apply (db : Database) : StoreOp → Except NSException Database
  | .saveBook book => writeRecord db book
  | .removeBook bookIdToRemove => book_store.removeBook db bookIdToRemove

/-- One operation, refused where `child` raises. -/
def step (db : Database) (op : StoreOp) : Option Database := (op.apply db).toOption

/-- An operation on the reference of an id goes on where `child` does. -/
theorem toOption_child_iff {id : String} {f : DatabaseReference → Database} {db' : Database} :
    ((booksReference.child id).map f).toOption = some db' ↔
      isValidPathString id = true ∧ db' = f { path := booksReference.path ++ pieces id } := by
  by_cases hv : isValidPathString id = true
  · rw [child_ok hv]
    exact ⟨fun h => ⟨hv, (Option.some.inj h).symm⟩, fun h => congrArg some h.2.symm⟩
  · have hx : ∃ exception, booksReference.child id = .error exception := child_error hv
    obtain ⟨exception, hx⟩ := hx
    rw [hx]
    constructor
    · intro h
      cases h
    · intro h
      exact absurd h.1 hv

theorem step_saveBook_iff {db db' : Database} {book : Book} :
    step db (.saveBook book) = some db' ↔
      isValidPathString book.bookId = true ∧
        db' = db.setValue { path := booksReference.path ++ pieces book.bookId }
          (bookToSaveDictionary book) (wellKeyed_bookToSaveDictionary book) :=
  toOption_child_iff

theorem step_removeBook_iff {db db' : Database} {id : String} :
    step db (.removeBook id) = some db' ↔
      isValidPathString id = true ∧
        db' = db.removeValue { path := booksReference.path ++ pieces id } :=
  toOption_child_iff

/-! ## Where an id can stand -/

/-- An id in the record at a key of `books` is a path to that key. -/
def Located (db : Database) : Prop :=
  ∀ k id, PathTree.leafAt (booksReference.path ++ [k, "bookId"]) db.root = some (.string id) →
    isValidPathString id = true ∧ pieces id = [k]

theorem located_of_empty {db : Database} (h : getChild booksReference.path db.root = .empty) :
    Located db := by
  intro k id hleaf
  unfold getChild at h
  rw [PathTree.leafAt, PathTree.get_append, h, PathTree.get_empty] at hleaf
  cases hleaf

theorem located_saveBook {db : Database} (h : Located db) {book : Book}
    (hv : isValidPathString book.bookId = true) :
    Located (db.setValue { path := booksReference.path ++ pieces book.bookId }
      (bookToSaveDictionary book) (wellKeyed_bookToSaveDictionary book)) := by
  intro k id hleaf
  rcases PathTree.leafAt_set hleaf with ⟨r, hr, hnew⟩ | ⟨_, hold⟩
  · rw [List.append_assoc, List.append_cancel_left_eq] at hr
    -- the leaf is in the record that was written, so the path ends in it
    rcases hp : pieces book.bookId with _ | ⟨first, rest⟩
    · rw [hp, List.nil_append] at hr
      rw [← hr, leafAt_below_field] at hnew
      cases hnew
    · rw [hp, List.cons_append, List.cons.injEq] at hr
      obtain ⟨rfl, hr⟩ := hr
      rcases rest with _ | ⟨second, rest⟩
      · rw [List.nil_append] at hr
        rw [← hr, leafAt_bookId_bookToSaveDictionary] at hnew
        cases hnew
        exact ⟨hv, hp⟩
      · have hnil : r = [] := by
          have hlen := congrArg List.length hr
          simp only [List.length_cons, List.length_append, List.length_nil] at hlen
          apply List.eq_nil_of_length_eq_zero
          omega
        rw [hnil] at hnew
        cases hnew
  · exact h k id hold

theorem located_removeBook {db : Database} (h : Located db) (ref : DatabaseReference) :
    Located (db.removeValue ref) := by
  intro k id hleaf
  rcases PathTree.leafAt_set hleaf with ⟨r, _, hnew⟩ | ⟨_, hold⟩
  · rw [PathTree.leafAt, PathTree.get_empty] at hnew
    cases hnew
  · exact h k id hold

theorem located_step (db : Database) (op : StoreOp) (db' : Database) (h : Located db)
    (hs : step db op = some db') : Located db' := by
  cases op with
  | saveBook book =>
    obtain ⟨hv, rfl⟩ := step_saveBook_iff.mp hs
    exact located_saveBook h hv
  | removeBook id =>
    obtain ⟨_, rfl⟩ := step_removeBook_iff.mp hs
    exact located_removeBook h _

/-- The id that the list reads in a child leads back to the child. -/
theorem Located.of_decodeBook {db : Database} (h : Located db) {k : String} {value : FNode}
    {book : Book} (hk : (k, value) ∈ db.children booksReference)
    (hd : decodeBook (.dataSnapshot k value) = some book) :
    isValidPathString book.bookId = true ∧ pieces book.bookId = [k] := by
  apply h k book.bookId
  have hchild := Database.childAt_of_mem hk
  rw [Database.childAt_eq_get] at hchild
  rw [PathTree.leafAt, List.append_cons, PathTree.get_append, hchild]
  exact leafAt_bookId_of_decodeBook hd

/-! ## The law -/

/-- A deletion removes exactly the record that its row was read from. -/
theorem a_deletion_removes_the_record_of_its_row (db0 db : Database) (ops : List StoreOp)
    (k : String) (value : FNode) (book : Book)
    (h0 : getChild booksReference.path db0.root = .empty)
    (hr : run step db0 ops = some db) (hk : (k, value) ∈ db.children booksReference)
    (hd : decodeBook (.dataSnapshot k value) = some book) :
    booksReference.child book.bookId = .ok { path := booksReference.path ++ [k] } ∧
      ∃ db', removeBook db book.bookId = .ok db' ∧
        db'.children booksReference = (db.children booksReference).filter (·.1 ≠ k) := by
  have hl := always_of_run Located located_step (located_of_empty h0) hr
  obtain ⟨hv, hp⟩ := hl.of_decodeBook hk hd
  have hchild : booksReference.child book.bookId = .ok { path := booksReference.path ++ [k] } := by
    rw [child_ok hv, hp]
  refine ⟨hchild, db.removeValue { path := booksReference.path ++ [k] }, ?_, ?_⟩
  · unfold removeBook
    rw [hchild]
    rfl
  · exact db.children_removeValue rfl

/-- A record, and a second one that nests below it. -/
def nestedSaves : List StoreOp :=
  [.saveBook { Book.new "first title" "author" "978" with bookId := "uid1978" },
    .saveBook { Book.new "second title" "author" "978/2" with bookId := "uid1978//2/" }]

theorem a_deletion_removes_the_record_of_a_nested_save :
    ∃ db value book, run step .empty nestedSaves = some db ∧
      ("uid1978", value) ∈ db.children booksReference ∧
      decodeBook (.dataSnapshot "uid1978" value) = some book ∧
      booksReference.child book.bookId = .ok { path := booksReference.path ++ ["uid1978"] } ∧
      ∃ db', removeBook db book.bookId = .ok db' ∧
        db'.children booksReference =
          (db.children booksReference).filter (·.1 ≠ "uid1978") := by
  have hrun : (run step .empty nestedSaves).map (fun db => (db.children booksReference).map
      fun c => (c.1, (decodeBook (.dataSnapshot c.1 c.2)).isSome)) =
        some [("uid1978", true)] := by
    decide +kernel
  obtain ⟨db, hr, hchildren⟩ := Option.map_eq_some_iff.mp hrun
  obtain ⟨⟨k, value⟩, rest, hdb, hc, _⟩ := List.map_eq_cons_iff.mp hchildren
  obtain ⟨rfl, hsome⟩ := Prod.mk.inj hc
  obtain ⟨book, hd⟩ := Option.isSome_iff_exists.mp hsome
  have hk : ("uid1978", value) ∈ db.children booksReference := by
    rw [hdb]
    exact List.mem_cons_self
  exact ⟨db, value, book, hr, hk, hd,
    a_deletion_removes_the_record_of_its_row .empty db nestedSaves "uid1978" value book rfl hr hk
      hd⟩

end xellissime_book.book_store
