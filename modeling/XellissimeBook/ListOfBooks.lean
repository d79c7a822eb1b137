-- The list of books (Controller/ListOfBooksTableViewController.swift): the
-- observer that fills it, its table, and the deletion of a row. The last
-- section is about the observer: each snapshot adds to the list.
import XellissimeBook.BookRecord
import XellissimeBook.Runs

open runs
open xellissime_book.database xellissime_book.book_record

namespace xellissime_book.list_of_books

/-! ## The state -/

/-- The children of the node `books`, in the order of the snapshot. -/
abbrev Snapshot := List SnapshotChild

/-- A deletion, as its completion block captures it: the row of the index
path, and the id whose record it removes. -/
structure DeleteRequest where
  id : Nat
  row : Nat
  bookIdToRemove : String
  deriving DecidableEq

/-- What the screen does to the database and to its own list. -/
inductive Effect where
  | removeValue (request : DeleteRequest)
  /-- The deferred block of the request takes the book out of the list. -/
  | removedBook (request : DeleteRequest) (book : Book)
  deriving DecidableEq

/-- What ends the app. -/
inductive Fault where
  | exception (exception : NSException)
  | indexOutOfRange
  /-- UIKit finds another number of rows than the deletion leaves. -/
  | invalidUpdate
  deriving DecidableEq

/-- The controller, with the removals that the database works on and the
blocks that the main queue holds. -/
structure ListOfBooks where
  collectionBooks : List Book
  /-- The number of rows that the table loaded last. -/
  tableRows : Nat
  /-- The observer of `books` is registered. -/
  observing : Bool
  removals : List DeleteRequest
  mainQueue : List DeleteRequest
  nextRequest : Nat
  /-- The effects so far, oldest first. -/
  log : List Effect
  fault : Option Fault

/-- The screen before its view is loaded. -/
def ListOfBooks.initial : ListOfBooks where
  collectionBooks := []
  tableRows := 0
  observing := false
  removals := []
  mainQueue := []
  nextRequest := 0
  log := []
  fault := none

/-- The loaded screen with the books on display. -/
def ListOfBooks.showing (books : List Book) : ListOfBooks :=
  { ListOfBooks.initial with
    collectionBooks := books
    tableRows := books.length
    observing := true }

def ListOfBooks.emit (s : ListOfBooks) (effect : Effect) : ListOfBooks :=
  { s with log := s.log ++ [effect] }

/-- `tableView.reloadData()`. -/
def ListOfBooks.reloadData (s : ListOfBooks) : ListOfBooks :=
  { s with tableRows := s.collectionBooks.length }

/-- `tableView.deleteRows(at:with:)`, for one row. -/
def ListOfBooks.deleteRows (s : ListOfBooks) (row : Nat) : ListOfBooks :=
  if row < s.tableRows ∧ s.collectionBooks.length + 1 = s.tableRows then s.reloadData
  else { s with fault := some .invalidUpdate }

/-! ## The observer -/

/-- `createBookListFromFirebase`. -/
def ListOfBooks.createBookListFromFirebase (s : ListOfBooks) : ListOfBooks :=
  { s with collectionBooks := [], observing := true }

/-- The loop over the children. A child that fails a guard leaves the whole
block, so the flag says if the loop came to its end. -/
def appendChildren : Snapshot → List Book → List Book × Bool
  | [], collectionBooks => (collectionBooks, true)
  | mychild :: rest, collectionBooks =>
    match decodeBook mychild with
    | none => (collectionBooks, false)
    | some bookFromFireBase => appendChildren rest (collectionBooks ++ [bookFromFireBase])

/-- The block of the observer. -/
def ListOfBooks.observe (s : ListOfBooks) (snapshot : Snapshot) : ListOfBooks :=
  let (collectionBooks, ended) := appendChildren snapshot s.collectionBooks
  let s := { s with collectionBooks }
  if ended then s.reloadData else s

/-! ## The deletion -/

/-- `tableView(_:commit:forRowAt:)` with the style `delete`. -/
def ListOfBooks.commitDelete (s : ListOfBooks) (row : Nat) : ListOfBooks :=
  match s.collectionBooks[row]? with
  | none => { s with fault := some .indexOutOfRange }
  | some book =>
    match booksReference.child book.bookId with
    | .error exception => { s with fault := some (.exception exception) }
    | .ok _ =>
      let request := { id := s.nextRequest, row, bookIdToRemove := book.bookId }
      { s.emit (.removeValue request) with
        removals := s.removals ++ [request]
        nextRequest := s.nextRequest + 1 }

/-- The completion block of `removeValue`. -/
def ListOfBooks.removed (s : ListOfBooks) (request : DeleteRequest) (error : Option String) :
    ListOfBooks :=
  let s := { s with removals := s.removals.filter (·.id ≠ request.id) }
  if error.isSome then s else { s with mainQueue := s.mainQueue ++ [request] }

/-- The block that the completion defers to the main queue. -/
def ListOfBooks.removeRow (s : ListOfBooks) (request : DeleteRequest) : ListOfBooks :=
  match s.collectionBooks[request.row]? with
  | none => { s with fault := some .indexOutOfRange }
  | some book =>
    { s.emit (.removedBook request book) with
      collectionBooks := s.collectionBooks.eraseIdx request.row }.deleteRows request.row

/-! ## The steps -/

inductive Event where
  | viewDidLoad
  | viewWillAppear
  | value (snapshot : Snapshot)
  | commitDelete (row : Nat)
  | completion (id : Nat) (error : Option String)
  /-- The main queue runs its first block. -/
  | mainAsync

/-- One step. The view loads once, a displayed row can be deleted, a removal
in flight can complete, and nothing happens after a fault. -/
def step (s : ListOfBooks) (event : Event) : Option ListOfBooks :=
  if s.fault.isSome then none
  else
    match event with
    | .viewDidLoad =>
      if s.observing then none else some s.createBookListFromFirebase.reloadData
    | .viewWillAppear => if s.observing then some s.reloadData else none
    | .value snapshot => if s.observing then some (s.observe snapshot) else none
    | .commitDelete row => if row < s.tableRows then some (s.commitDelete row) else none
    | .completion id error =>
      (s.removals.find? (·.id = id)).map fun request => s.removed request error
    | .mainAsync =>
      match s.mainQueue with
      | [] => none
      | request :: rest => some ({ s with mainQueue := rest }.removeRow request)

/-! ## What the observer adds -/

/-- Every child passes the guards. -/
def AllDecode (snapshot : Snapshot) : Prop := ∀ mychild ∈ snapshot, (decodeBook mychild).isSome

/-- The books of the children that pass the guards, in order. -/
def decoded (snapshot : Snapshot) : List Book := snapshot.filterMap decodeBook

theorem appendChildren_of_allDecode {snapshot : Snapshot} (h : AllDecode snapshot)
    (books : List Book) : appendChildren snapshot books = (books ++ decoded snapshot, true) := by
  unfold decoded
  induction snapshot generalizing books with
  | nil => simp [appendChildren]
  | cons mychild rest ih =>
    obtain ⟨book, hb⟩ := Option.isSome_iff_exists.mp (h mychild List.mem_cons_self)
    have hrest : AllDecode rest := fun c hc => h c (List.mem_cons_of_mem _ hc)
    simp only [appendChildren, hb]
    rw [ih hrest, List.filterMap_cons_some hb, List.append_assoc]
    rfl

/-- The observer never takes a book out. -/
theorem prefix_appendChildren (snapshot : Snapshot) (books : List Book) :
    books <+: (appendChildren snapshot books).1 := by
  induction snapshot generalizing books with
  | nil => exact List.prefix_refl books
  | cons mychild rest ih =>
    unfold appendChildren
    cases decodeBook mychild with
    | none => exact List.prefix_refl books
    | some book => exact (List.prefix_append books [book]).trans (ih (books ++ [book]))

theorem prefix_observe (s : ListOfBooks) (snapshot : Snapshot) :
    s.collectionBooks <+: (s.observe snapshot).collectionBooks := by
  have h := prefix_appendChildren snapshot s.collectionBooks
  unfold ListOfBooks.observe
  dsimp only
  split
  · exact h
  · exact h

/-- Whole snapshots pile up behind the books of the list. -/
theorem run_value {snapshots : List Snapshot} (h : ∀ snapshot ∈ snapshots, AllDecode snapshot)
    {s : ListOfBooks} (ho : s.observing = true) (hf : s.fault = none) :
    ∃ s', run step s (snapshots.map .value) = some s' ∧
      s'.collectionBooks = s.collectionBooks ++ snapshots.flatMap decoded := by
  induction snapshots generalizing s with
  | nil => exact ⟨s, rfl, by simp⟩
  | cons snapshot rest ih =>
    have hall := h snapshot List.mem_cons_self
    have hrest : ∀ snapshot ∈ rest, AllDecode snapshot :=
      fun snap hs => h snap (List.mem_cons_of_mem _ hs)
    have hstep : step s (.value snapshot) = some (s.observe snapshot) := by
      simp [step, hf, ho]
    have hobs : s.observe snapshot =
        { s with collectionBooks := s.collectionBooks ++ decoded snapshot }.reloadData := by
      unfold ListOfBooks.observe
      rw [appendChildren_of_allDecode hall]
      rfl
    obtain ⟨s', hr, hbooks⟩ := ih hrest (s := s.observe snapshot) (by rw [hobs]; exact ho)
      (by rw [hobs]; exact hf)
    refine ⟨s', ?_, ?_⟩
    · rw [List.map_cons, run_cons, hstep, Option.bind_some, hr]
    · rw [hbooks, hobs, List.flatMap_cons, ← List.append_assoc]
      rfl

/-! ## The laws of the observer -/

/-- The list that the screen shows after the snapshots, from its load on. -/
def listAfter (snapshots : List Snapshot) : Option (List Book) :=
  (run step .initial (.viewDidLoad :: snapshots.map .value)).map (·.collectionBooks)

/-- After each snapshot, the list is what that snapshot decodes to. -/
def Synchronised (snapshots : List Snapshot) : Prop :=
  EachAfter (fun before latest => listAfter (before ++ [latest]) = some (decoded latest)) snapshots

theorem listAfter_of_allDecode {snapshots : List Snapshot}
    (h : ∀ snapshot ∈ snapshots, AllDecode snapshot) :
    listAfter snapshots = some (snapshots.flatMap decoded) := by
  have hload : step .initial .viewDidLoad =
      some ListOfBooks.initial.createBookListFromFirebase.reloadData := rfl
  obtain ⟨s, hr, hbooks⟩ :=
    run_value h (s := ListOfBooks.initial.createBookListFromFirebase.reloadData) rfl rfl
  rw [listAfter, run_cons, hload, Option.bind_some, hr, Option.map_some, hbooks]
  rfl

theorem eq_nil_of_decoded {snapshot : Snapshot} (h : AllDecode snapshot)
    (hn : decoded snapshot = []) : snapshot = [] := by
  rw [List.eq_nil_iff_forall_not_mem]
  intro mychild hc
  have hsome := h mychild hc
  have hnone := List.filterMap_eq_nil_iff.mp hn mychild hc
  rw [hnone] at hsome
  cases hsome

/-- The list is the latest snapshot exactly when every earlier snapshot was
empty, since only the load empties the list. -/
theorem the_list_is_the_latest_snapshot_iff (snapshots : List Snapshot)
    (hd : ∀ snapshot ∈ snapshots, AllDecode snapshot) :
    Synchronised snapshots ↔ ∀ snapshot ∈ snapshots.dropLast, snapshot = [] := by
  constructor
  · intro h snapshot hs
    rcases List.eq_nil_or_concat' snapshots with rfl | ⟨before, latest, rfl⟩
    · cases hs
    · rw [List.dropLast_concat] at hs
      have hlist : listAfter (before ++ [latest]) = some (decoded latest) := h before latest [] rfl
      rw [listAfter_of_allDecode hd] at hlist
      have hnone : before.flatMap decoded = [] := by simpa using hlist
      apply eq_nil_of_decoded (hd snapshot (List.mem_append_left _ hs))
      exact List.flatMap_eq_nil_iff.mp hnone snapshot hs
  · intro h before latest after hsplit
    have hbefore : ∀ snapshot ∈ before, snapshot = [] := by
      intro snapshot hs
      apply h snapshot
      rw [hsplit, List.dropLast_append_of_ne_nil (List.cons_ne_nil latest after)]
      exact List.mem_append_left _ hs
    have hall : ∀ snapshot ∈ before ++ [latest], AllDecode snapshot := by
      intro snapshot hs
      apply hd snapshot
      rw [hsplit, List.append_cons]
      exact List.mem_append_left _ hs
    have hnone : before.flatMap decoded = [] := by
      rw [List.flatMap_eq_nil_iff]
      intro snapshot hs
      rw [hbefore snapshot hs]
      rfl
    change listAfter (before ++ [latest]) = some (decoded latest)
    rw [listAfter_of_allDecode hall, List.flatMap_append, hnone]
    simp

/-- A snapshot with the one record of the book. -/
def oneRecord (book : Book) : Snapshot := [.dataSnapshot book.bookId (bookToSaveDictionary book)]

def firstBook : Book :=
  { Book.new "first title" "author" "978" with bookId := "uid1978", bookOwner := "uid1" }

theorem allDecode_oneRecord (book : Book) : AllDecode (oneRecord book) := by
  intro mychild hc
  rw [oneRecord, List.mem_singleton] at hc
  rw [hc, decodeBook_bookToSaveDictionary]
  rfl

theorem decoded_oneRecord (book : Book) : decoded (oneRecord book) = [readBack book] := by
  unfold decoded oneRecord
  rw [List.filterMap_cons_some (decodeBook_bookToSaveDictionary book.bookId book)]
  rfl

/-- The first snapshot of a store with no book, then its first book. -/
theorem the_first_record_is_synchronised : Synchronised [[], oneRecord firstBook] := by
  apply (the_list_is_the_latest_snapshot_iff [[], oneRecord firstBook] ?_).mpr
  · intro snapshot hs
    exact List.mem_singleton.mp hs
  · intro snapshot hs
    rcases List.mem_cons.mp hs with rfl | hs
    · intro mychild hc
      cases hc
    · rw [List.mem_singleton.mp hs]
      exact allDecode_oneRecord firstBook

/-- The observer fires twice on one record, and the book is listed twice. -/
theorem a_second_snapshot_lists_a_book_twice :
    (∀ snapshot ∈ [oneRecord firstBook, oneRecord firstBook], AllDecode snapshot) ∧
      ¬ Synchronised [oneRecord firstBook, oneRecord firstBook] := by
  have hall : ∀ snapshot ∈ [oneRecord firstBook, oneRecord firstBook], AllDecode snapshot := by
    intro snapshot hs
    have he : snapshot = oneRecord firstBook := by simpa using hs
    rw [he]
    exact allDecode_oneRecord firstBook
  refine ⟨hall, fun h => ?_⟩
  have hlist : listAfter [oneRecord firstBook, oneRecord firstBook] =
      some (decoded (oneRecord firstBook)) :=
    h [oneRecord firstBook] (oneRecord firstBook) [] rfl
  rw [listAfter_of_allDecode hall] at hlist
  simp [decoded_oneRecord] at hlist

end xellissime_book.list_of_books
