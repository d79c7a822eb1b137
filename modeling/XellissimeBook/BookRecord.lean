-- The record of a book: what `saveBook` writes (Model/BookStruct.swift) and
-- what the list screen reads back (ListOfBooksTableViewController.swift). The
-- two sides name the ten keys apart, so the round trip is a law here.
import XellissimeBook.Database
import XellissimeBook.Text

open path_tree
open xellissime_book.database xellissime_book.text

namespace xellissime_book.book_record

/-! ## The book -/

/-- `Book`. The loan dates and the `BookType` case are left out: nothing writes
or reads them. -/
structure Book where
  bookId : String := ""
  bookIsbn : String
  bookTitle : String
  bookAuthor : String
  bookEditor : Option String := none
  bookYearOfEdition : Option String := none
  bookCoverURL : String := ""
  bookOwner : String := ""
  bookIsAvailable : Bool := false
  bookTypeString : Option String := none
  deriving DecidableEq

/-- `Book.init(title:author:isbn:)`. -/
def Book.new (title author isbn : String) : Book :=
  { bookIsbn := isbn, bookTitle := title, bookAuthor := author }

/-! ## The save side -/

def stringNode (s : String) : FNode := .leaf (.string s)

/-- The dictionary `bookToSaveDictionary` of `saveBook`, as the node that
`setValue` makes of it. -/
def bookToSaveDictionary (book : Book) : FNode :=
  .branch
    [("bookId", stringNode book.bookId),
      ("bookIsbn", stringNode book.bookIsbn),
      ("bookTitle", stringNode book.bookTitle),
      ("bookAuthor", stringNode book.bookAuthor),
      ("bookEditor", stringNode (book.bookEditor.getD "unknown")),
      ("bookYearOfEdition", stringNode (book.bookYearOfEdition.getD "N/A")),
      ("bookCover", stringNode book.bookCoverURL),
      ("bookOwner", stringNode book.bookOwner),
      ("bookIsAvailable", .leaf (.boolean book.bookIsAvailable)),
      ("bookType", stringNode (book.bookTypeString.getD "unknown"))]

theorem wellKeyed_bookToSaveDictionary (book : Book) :
    (bookToSaveDictionary book).WellKeyed := by
  refine .branch _ (by simp) ?_
  intro c hc
  simp only [List.mem_cons, List.not_mem_nil, or_false] at hc
  rcases hc with rfl | rfl | rfl | rfl | rfl | rfl | rfl | rfl | rfl | rfl <;> exact .leaf _

/-- The write of `saveBook`, without the check of the values: the record replaces
whatever stands at the path of the id. -/
def writeRecord (db : Database) (book : Book) : Except NSException Database := do
  let ref ← booksReference.child book.bookId
  return db.setValue ref (bookToSaveDictionary book) (wellKeyed_bookToSaveDictionary book)

/-- What `saveBook` does before the write: `child` and the checks of `setValue`. -/
def recordReference (book : Book) : Except NSException DatabaseReference := do
  let ref ← booksReference.child book.bookId
  validateNode "setValue:" [] (bookToSaveDictionary book)
  return ref

/-- `saveBook`. -/
def saveBook (db : Database) (book : Book) : Except NSException Database := do
  let ref ← recordReference book
  return db.setValue ref (bookToSaveDictionary book) (wellKeyed_bookToSaveDictionary book)

/-! ## What is refused -/

/-- The texts of the record. -/
def savedTexts (book : Book) : List String :=
  [book.bookId, book.bookIsbn, book.bookTitle, book.bookAuthor,
    book.bookEditor.getD "unknown", book.bookYearOfEdition.getD "N/A", book.bookCoverURL,
    book.bookOwner, book.bookTypeString.getD "unknown"]

/-- The database takes every text of the record. -/
def ShortTexts (book : Book) : Prop :=
  ∀ text ∈ savedTexts book, lengthOfBytes text ≤ kFirebaseMaxLeafSize

instance decidableShortTexts (book : Book) : Decidable (ShortTexts book) :=
  inferInstanceAs (Decidable (∀ text ∈ savedTexts book, _))

theorem validateNode_bookToSaveDictionary_iff {fn : String} {book : Book} :
    validateNode fn [] (bookToSaveDictionary book) = .ok () ↔ ShortTexts book := by
  have hbool : ∀ path b, validateNode fn path (.leaf (.boolean b)) = .ok () := by
    intro path b
    simp [validateNode, validateLeafValue]
  have htext : ∀ path s, validateNode fn path (stringNode s) = .ok () ↔
      lengthOfBytes s ≤ kFirebaseMaxLeafSize := by
    intro path s
    rw [stringNode, validateNode, validateLeafValue_string_iff]
  rw [bookToSaveDictionary, validateNode, validateChildren_iff]
  simp [hbool, htext, ShortTexts, savedTexts]

theorem recordReference_eq_ok_iff {book : Book} {ref : DatabaseReference} :
    recordReference book = .ok ref ↔ booksReference.child book.bookId = .ok ref ∧
      ShortTexts book := by
  have hcheck : validateNode "setValue:" [] (bookToSaveDictionary book) = .ok () ↔
      ShortTexts book := validateNode_bookToSaveDictionary_iff
  rw [← hcheck, recordReference]
  cases booksReference.child book.bookId with
  | error exception => simp [bind, Except.bind]
  | ok ref' =>
    cases validateNode "setValue:" [] (bookToSaveDictionary book) with
    | error exception => simp [bind, Except.bind]
    | ok u => simp [bind, Except.bind, pure, Except.pure]

/-- A save that goes through writes the record. -/
theorem saveBook_eq_ok_iff {db db' : Database} {book : Book} :
    saveBook db book = .ok db' ↔ writeRecord db book = .ok db' ∧ ShortTexts book := by
  have hreference : ∀ ref, recordReference book = .ok ref ↔
      booksReference.child book.bookId = .ok ref ∧ ShortTexts book :=
    fun _ => recordReference_eq_ok_iff
  rw [saveBook, writeRecord]
  cases hchild : booksReference.child book.bookId with
  | error exception =>
    cases hcheck : recordReference book with
    | error exception' => simp [bind, Except.bind]
    | ok ref =>
      have hok := ((hreference ref).mp hcheck).1
      rw [hchild] at hok
      cases hok
  | ok ref =>
    by_cases hshort : ShortTexts book
    · rw [(hreference ref).mpr ⟨hchild, hshort⟩]
      simp [hshort]
    · cases hcheck : recordReference book with
      | error exception => simp [bind, Except.bind, hshort]
      | ok ref' => exact absurd ((hreference ref').mp hcheck).2 hshort

/-! ## The list side -/

/-- An object that `snapshot.children` enumerates: the snapshot of a child, or
an object of another class. The client only makes snapshots. -/
inductive SnapshotChild where
  | dataSnapshot (key : String) (value : FNode)
  | other

/-- `mychild as? DataSnapshot`, as its value. -/
def SnapshotChild.value : SnapshotChild → Option FNode
  | .dataSnapshot _ value => some value
  | .other => none

/-- `values[key]`, with a cast. -/
def field {γ : Type} (values : List (String × FNode)) (cast : FNode → Option γ) (key : String) :
    Option γ :=
  (getKey key values).bind cast

theorem field_cons {γ : Type} (k key : String) (n : FNode) (rest : List (String × FNode))
    (cast : FNode → Option γ) :
    field ((k, n) :: rest) cast key = if k = key then cast n else field rest cast key := by
  simp only [field, getKey]
  split <;> rfl

/-- The guards of the observer of the list and the book that they make. `none`
where a guard fails. -/
def decodeBook (mychild : SnapshotChild) : Option Book := do
  let childTest ← mychild.value
  let values ← asDictionary childTest
  let bookId ← field values asString "bookId"
  let bookIsbn ← field values asString "bookIsbn"
  let bookAuthor ← field values asString "bookAuthor"
  let bookCoverURL ← field values asString "bookCover"
  let bookEditor ← field values asString "bookEditor"
  let bookIsAvailable ← field values asBool "bookIsAvailable"
  -- the source reads the owner at the key of the ISBN
  let bookOwner ← field values asString "bookIsbn"
  let bookTitle ← field values asString "bookTitle"
  let bookTypeString ← field values asString "bookType"
  let bookYearOfEdition ← field values asString "bookYearOfEdition"
  return { Book.new bookTitle bookAuthor bookIsbn with
    bookId
    bookCoverURL := removeFirstAndLastAndDoubleWhitespace bookCoverURL
    bookEditor := some bookEditor
    bookIsAvailable
    bookOwner
    bookTypeString := some bookTypeString
    bookYearOfEdition := some bookYearOfEdition }

/-- What the list reads back of a book that was saved. -/
def readBack (book : Book) : Book :=
  { book with
    bookCoverURL := removeFirstAndLastAndDoubleWhitespace book.bookCoverURL
    bookEditor := some (book.bookEditor.getD "unknown")
    bookOwner := book.bookIsbn
    bookTypeString := some (book.bookTypeString.getD "unknown")
    bookYearOfEdition := some (book.bookYearOfEdition.getD "N/A") }

/-- The list decodes every record that `saveBook` writes. -/
theorem decodeBook_bookToSaveDictionary (key : String) (book : Book) :
    decodeBook (.dataSnapshot key (bookToSaveDictionary book)) = some (readBack book) := by
  unfold decodeBook bookToSaveDictionary
  simp [SnapshotChild.value, asDictionary, field_cons, stringNode, asString, asBool, readBack,
    Book.new]

theorem leafAt_bookId_bookToSaveDictionary (book : Book) :
    PathTree.leafAt ["bookId"] (bookToSaveDictionary book) = some (.string book.bookId) := rfl

/-- The fields of a record have nothing below them. -/
theorem leafAt_below_field (k k' : String) (book : Book) :
    PathTree.leafAt [k, k'] (bookToSaveDictionary book) = none := by
  have hleaf : ∀ c ∈ (bookToSaveDictionary book).children, ∃ v, c.2 = .leaf v := by
    intro c hc
    simp only [bookToSaveDictionary, PathTree.children, List.mem_cons, List.not_mem_nil,
      or_false] at hc
    rcases hc with rfl | rfl | rfl | rfl | rfl | rfl | rfl | rfl | rfl | rfl <;> exact ⟨_, rfl⟩
  have hchild : (PathTree.child k (bookToSaveDictionary book)).child k' = .empty := by
    unfold PathTree.child
    cases hk : getKey k (bookToSaveDictionary book).children with
    | none => rfl
    | some n =>
      obtain ⟨v, hv⟩ := hleaf (k, n) (mem_of_getKey hk)
      rw [Option.getD_some, show n = .leaf v from hv]
      rfl
  unfold PathTree.leafAt PathTree.get PathTree.get PathTree.get
  rw [hchild]
  rfl

/-- A child that decodes has its id at the key `bookId`. -/
theorem leafAt_bookId_of_decodeBook {key : String} {value : FNode} {book : Book}
    (h : decodeBook (.dataSnapshot key value) = some book) :
    PathTree.leafAt ["bookId"] value = some (.string book.bookId) := by
  simp only [decodeBook, SnapshotChild.value, Option.bind_eq_bind, Option.bind_some,
    Option.bind_eq_some_iff] at h
  obtain ⟨values, hv, id, hid, _, _, _, _, _, _, _, _, _, _, _, _, _, _, _, _, _, _, hb⟩ := h
  have hbook : book.bookId = id := by
    cases hb
    rfl
  rw [hbook]
  unfold asDictionary at hv
  split at hv
  · rename_i c cs
    cases hv
    obtain ⟨n, hn, hs⟩ := Option.bind_eq_some_iff.mp hid
    have hleaf : n = .leaf (.string id) := by
      unfold asString at hs
      split at hs
      · cases hs
        rfl
      · cases hs
    simp only [PathTree.leafAt, PathTree.get, PathTree.child, PathTree.children, hn,
      Option.getD_some, hleaf]
  · cases hv

/-! ## The laws -/

/-- What the list promises of a saved book: every field as it was, the written
default where an optional field is nil, and the cleaned cover URL. -/
structure ComesBackAs (book read : Book) : Prop where
  bookId : read.bookId = book.bookId
  bookIsbn : read.bookIsbn = book.bookIsbn
  bookTitle : read.bookTitle = book.bookTitle
  bookAuthor : read.bookAuthor = book.bookAuthor
  bookOwner : read.bookOwner = book.bookOwner
  bookIsAvailable : read.bookIsAvailable = book.bookIsAvailable
  bookEditor : read.bookEditor = some (book.bookEditor.getD "unknown")
  bookYearOfEdition : read.bookYearOfEdition = some (book.bookYearOfEdition.getD "N/A")
  bookTypeString : read.bookTypeString = some (book.bookTypeString.getD "unknown")
  bookCoverURL : read.bookCoverURL = removeFirstAndLastAndDoubleWhitespace book.bookCoverURL

/-- A saved book comes back from the list exactly when its owner is its ISBN,
since the list reads the owner at the key of the ISBN. -/
theorem a_saved_book_comes_back_iff_its_owner_is_its_isbn (key : String) (book : Book) :
    (∃ read, decodeBook (.dataSnapshot key (bookToSaveDictionary book)) = some read ∧
      ComesBackAs book read) ↔ book.bookOwner = book.bookIsbn := by
  rw [decodeBook_bookToSaveDictionary]
  constructor
  · rintro ⟨read, hread, h⟩
    cases hread
    exact h.bookOwner.symm
  · intro h
    exact ⟨_, rfl, rfl, rfl, rfl, rfl, h.symm, rfl, rfl, rfl, rfl, rfl⟩

/-- A book of the owner `uid1` does not come back with its owner. -/
theorem a_saved_book_loses_its_owner :
    ¬ ∃ read, decodeBook (.dataSnapshot "uid1978" (bookToSaveDictionary
        { Book.new "first title" "author" "978" with bookId := "uid1978", bookOwner := "uid1" })) =
          some read ∧
      ComesBackAs
        { Book.new "first title" "author" "978" with bookId := "uid1978", bookOwner := "uid1" }
        read := by
  rw [decodeBook_bookToSaveDictionary]
  rintro ⟨read, hread, h⟩
  cases hread
  have howner := h.bookOwner
  simp [readBack, Book.new] at howner

end xellissime_book.book_record
