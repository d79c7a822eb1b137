-- The laws of the saved records. What the users mean is a map from the owner
-- and the ISBN to a book. The app joins the two texts to one id and writes at
-- the path that the id makes, so the law says when the two agree.
import XellissimeBook.AddMenu
import XellissimeBook.BookStore

open path_tree runs
open xellissime_book.database xellissime_book.book_record xellissime_book.book_store
open xellissime_book.add_menu (AddMenu bookOfFields saveBookInDatabase_of_ok
  saveBookInDatabase_of_error)

namespace xellissime_book.saved_records

/-! ## The saves -/

/-- A uid of the authentication: a key of the database. -/
def LegalUid (userId : String) : Prop :=
  isValidPathString userId = true ∧ '/' ∉ userId.toList

instance decidableLegalUid (userId : String) : Decidable (LegalUid userId) :=
  inferInstanceAs (Decidable (_ ∧ _))

/-- A press on the save button that goes on to the save. -/
structure SaveCall where
  form : AddMenu
  userId : String
  legal : LegalUid userId
  filled : ¬ (form.titleTextField = "" ∨ form.authorTextField = "" ∨ form.isbnTextField = "")

/-- The book that the call saves. -/
def SaveCall.book (c : SaveCall) : Book :=
  bookOfFields c.userId c.form.titleTextField c.form.authorTextField c.form.isbnTextField
    c.form.bookToSave

/-- The form hands the book of the call to the store, which writes it, or it raises
where `saveBook` does. -/
theorem saveBookInDatabase_call (c : SaveCall) (db : Database) :
    (∃ db', saveBook db c.book = .ok db' ∧ step db (.saveBook c.book) = some db' ∧
      (c.form.saveBookInDatabase (some c.userId)).log =
        c.form.log ++ [.storeCoverImage c.book] ++ [.saveBook c.book]) ∨
    ∃ exception, saveBook db c.book = .error exception ∧
      (c.form.saveBookInDatabase (some c.userId)).raised = some exception := by
  cases hreference : recordReference c.book with
  | ok ref =>
    have hsave : saveBook db c.book = .ok (db.setValue ref (bookToSaveDictionary c.book)
        (wellKeyed_bookToSaveDictionary c.book)) := by
      unfold saveBook
      rw [hreference]
      rfl
    have hwrite := (saveBook_eq_ok_iff.mp hsave).1
    refine Or.inl ⟨_, hsave, ?_, ?_⟩
    · simp only [step, StoreOp.apply, hwrite, Except.toOption]
    · rw [saveBookInDatabase_of_ok c.filled rfl hreference]
      rfl
  | error exception =>
    have hsave : saveBook db c.book = .error exception := by
      unfold saveBook
      rw [hreference]
      rfl
    refine Or.inr ⟨exception, hsave, ?_⟩
    rw [saveBookInDatabase_of_error c.filled rfl hreference]

/-! ## The map that the users mean -/

/-- The owner and the cleaned ISBN. -/
def ownerAndIsbn (book : Book) : String × String := (book.bookOwner, book.bookIsbn)

/-- The last book of each owner and ISBN. -/
def lastSaved (books : List Book) : List ((String × String) × Book) :=
  ofEntries (books.map fun book => (ownerAndIsbn book, book))

/-- The records that the list decodes. -/
def listedRecords (db : Database) : List FNode :=
  ((db.children booksReference).filter fun c =>
    (decodeBook (.dataSnapshot c.1 c.2)).isSome).map Prod.snd

/-- No save raises, and the list decodes one record for each owner and ISBN:
that of the last save. -/
def RefinesMap (books : List Book) : Prop :=
  ∃ db, run step .empty (books.map .saveBook) = some db ∧
    (listedRecords db).Perm ((lastSaved books).map fun e => bookToSaveDictionary e.2)

/-! ## The ids -/

/-- The id is the owner and the ISBN, joined. -/
def Joined (book : Book) : Prop := book.bookId = book.bookOwner ++ book.bookIsbn

/-- Each id is one legal key, and two owners and ISBNs never make the same. -/
structure KeysApart (books : List Book) : Prop where
  valid : ∀ book ∈ books, isValidPathString book.bookId = true
  single : ∀ book ∈ books, (pieces book.bookId).length = 1
  apart : ∀ book ∈ books, ∀ other ∈ books, pieces book.bookId = pieces other.bookId →
    ownerAndIsbn book = ownerAndIsbn other

theorem joined_calls (calls : List SaveCall) : ∀ book ∈ calls.map SaveCall.book, Joined book := by
  intro book hb
  obtain ⟨c, _, rfl⟩ := List.mem_map.mp hb
  rfl

theorem bookId_eq_of_ownerAndIsbn {book other : Book} (hb : Joined book) (ho : Joined other)
    (h : ownerAndIsbn book = ownerAndIsbn other) : book.bookId = other.bookId := by
  obtain ⟨howner, hisbn⟩ := Prod.mk.inj h
  rw [hb, ho, howner, hisbn]

/-- An entry of the map is a book that was saved, under its own key. -/
theorem mem_lastSaved {books : List Book} {e : (String × String) × Book}
    (h : e ∈ lastSaved books) : e.1 = ownerAndIsbn e.2 ∧ e.2 ∈ books := by
  obtain ⟨book, hb, rfl⟩ := List.mem_map.mp (mem_of_mem_ofEntries h)
  exact ⟨rfl, hb⟩

theorem exists_mem_lastSaved {books : List Book} {book : Book} (h : book ∈ books) :
    ∃ last, (ownerAndIsbn book, last) ∈ lastSaved books :=
  exists_mem_ofEntries (List.mem_map.mpr ⟨book, h, rfl⟩)

/-- A record tells its owner and its ISBN. -/
theorem ownerAndIsbn_of_record {book other : Book}
    (h : bookToSaveDictionary book = bookToSaveDictionary other) :
    ownerAndIsbn book = ownerAndIsbn other := by
  simp only [bookToSaveDictionary, stringNode, PathTree.branch.injEq, List.cons.injEq,
    Prod.mk.injEq, PathTree.leaf.injEq, LeafValue.string.injEq, true_and, and_true] at h
  simp [ownerAndIsbn, h]

/-! ## Keys that agree with the map -/

theorem valid_of_run {books : List Book} {db0 db : Database}
    (h : run step db0 (books.map .saveBook) = some db) :
    ∀ book ∈ books, isValidPathString book.bookId = true := by
  induction books generalizing db0 with
  | nil => simp
  | cons first rest ih =>
    rw [List.map_cons, run_cons] at h
    obtain ⟨db1, hstep, hrest⟩ := Option.bind_eq_some_iff.mp h
    intro book hb
    rcases List.mem_cons.mp hb with rfl | hb
    · exact (step_saveBook_iff.mp hstep).1
    · exact ih hrest book hb

/-- Where the store refines the map, a saved book has a child of its own. -/
theorem child_of_refines {books : List Book} {db : Database} (hj : ∀ book ∈ books, Joined book)
    (hr : run step .empty (books.map .saveBook) = some db)
    (hp : (listedRecords db).Perm ((lastSaved books).map fun e => bookToSaveDictionary e.2))
    {book : Book} (hb : book ∈ books) :
    ∃ k last, pieces book.bookId = [k] ∧ ownerAndIsbn last = ownerAndIsbn book ∧
      (k, bookToSaveDictionary last) ∈ db.children booksReference := by
  obtain ⟨last, hlast⟩ := exists_mem_lastSaved hb
  obtain ⟨hkey, hmem⟩ := mem_lastSaved hlast
  have hrecord : bookToSaveDictionary last ∈ listedRecords db :=
    hp.mem_iff.mpr (List.mem_map.mpr ⟨_, hlast, rfl⟩)
  obtain ⟨⟨k, value⟩, hchild, hvalue⟩ := List.mem_map.mp hrecord
  have hchild := List.mem_of_mem_filter hchild
  rw [show value = bookToSaveDictionary last from hvalue] at hchild
  have hl : Located db := always_of_run Located located_step (located_of_empty rfl) hr
  obtain ⟨_, hpieces⟩ := hl.of_decodeBook hchild (decodeBook_bookToSaveDictionary k last)
  refine ⟨k, last, ?_, hkey.symm, hchild⟩
  rw [bookId_eq_of_ownerAndIsbn (hj book hb) (hj last hmem) hkey]
  exact hpieces

theorem keysApart_of_refinesMap {books : List Book} (hj : ∀ book ∈ books, Joined book)
    (h : RefinesMap books) : KeysApart books := by
  obtain ⟨db, hr, hp⟩ := h
  refine ⟨valid_of_run hr, ?_, ?_⟩
  · intro book hb
    obtain ⟨k, _, hk, _⟩ := child_of_refines hj hr hp hb
    rw [hk]
    rfl
  · intro book hb other ho heq
    obtain ⟨k, last, hk, hlast, hchild⟩ := child_of_refines hj hr hp hb
    obtain ⟨k', last', hk', hlast', hchild'⟩ := child_of_refines hj hr hp ho
    rw [hk, hk'] at heq
    cases heq
    have hnode := Database.childAt_of_mem hchild
    have hnode' := Database.childAt_of_mem hchild'
    rw [← hlast, ← hlast']
    exact ownerAndIsbn_of_record (hnode.symm.trans hnode')

/-! ## The map at the keys -/

/-- The key that an owner and an ISBN make. -/
def keyOf (key : String × String) : String := (pieces (key.1 ++ key.2)).headD ""

theorem pieces_eq_keyOf {books : List Book} (hk : KeysApart books) {book : Book}
    (hb : book ∈ books) (hj : Joined book) : pieces book.bookId = [keyOf (ownerAndIsbn book)] := by
  obtain ⟨k, hpieces⟩ := List.length_eq_one_iff.mp (hk.single book hb)
  unfold Joined at hj
  simp only [keyOf, ownerAndIsbn]
  rw [← hj, hpieces]
  rfl

/-- The child of an entry of the map. -/
def childOf (e : (String × String) × Book) : String × FNode :=
  (keyOf e.1, bookToSaveDictionary e.2)

/-- A save at one key writes the child there. -/
theorem step_saveBook_of_key (db : Database) {book : Book} {k : String}
    (hv : isValidPathString book.bookId = true) (hp : pieces book.bookId = [k]) :
    ∃ db', step db (.saveBook book) = some db' ∧
      db'.children booksReference =
        setKey k (bookToSaveDictionary book) (db.children booksReference) := by
  refine ⟨_, step_saveBook_iff.mpr ⟨hv, rfl⟩, ?_⟩
  have hne : bookToSaveDictionary book ≠ .empty := by
    simp [bookToSaveDictionary, PathTree.empty]
  apply db.children_setValue _ hne
  rw [hp]

/-- With the keys apart, the children of `books` are the entries of the map,
each at its key. -/
theorem children_of_keysApart {books : List Book} (hj : ∀ book ∈ books, Joined book)
    (hk : KeysApart books) :
    ∃ db, run step .empty (books.map .saveBook) = some db ∧
      db.children booksReference = (lastSaved books).map childOf := by
  induction books using List.reverseRecOn with
  | nil => exact ⟨.empty, rfl, rfl⟩
  | append_singleton books book ih =>
    have hin : ∀ other ∈ books, other ∈ books ++ [book] := fun _ h => List.mem_append_left _ h
    have hbook : book ∈ books ++ [book] := List.mem_append_right _ List.mem_cons_self
    have hkbooks : KeysApart books :=
      ⟨fun b hb => hk.valid b (hin b hb), fun b hb => hk.single b (hin b hb),
        fun b hb o ho => hk.apart b (hin b hb) o (hin o ho)⟩
    obtain ⟨db, hr, hchildren⟩ := ih (fun b hb => hj b (hin b hb)) hkbooks
    have hpieces := pieces_eq_keyOf hk hbook (hj book hbook)
    obtain ⟨db', hstep, hdb'⟩ := step_saveBook_of_key db (hk.valid book hbook) hpieces
    refine ⟨db', ?_, ?_⟩
    · rw [List.map_append, List.map_singleton, run_snoc hr, hstep]
    · rw [hdb', hchildren]
      unfold lastSaved
      rw [List.map_append, List.map_singleton, ofEntries_snoc]
      apply setKey_map bookToSaveDictionary
      intro e he hkey
      obtain ⟨hown, hmem⟩ := mem_lastSaved he
      have hpieces' := pieces_eq_keyOf hk (hin e.2 hmem) (hj e.2 (hin e.2 hmem))
      rw [hown] at hkey ⊢
      apply hk.apart e.2 (hin e.2 hmem) book hbook
      rw [hpieces, hpieces', hkey]

theorem refinesMap_of_keysApart {books : List Book} (hj : ∀ book ∈ books, Joined book)
    (hk : KeysApart books) : RefinesMap books := by
  obtain ⟨db, hr, hchildren⟩ := children_of_keysApart hj hk
  refine ⟨db, hr, ?_⟩
  have hall : (db.children booksReference).filter (fun c =>
      (decodeBook (.dataSnapshot c.1 c.2)).isSome) = db.children booksReference := by
    rw [List.filter_eq_self, hchildren]
    intro c hc
    obtain ⟨e, _, rfl⟩ := List.mem_map.mp hc
    simp only [childOf]
    rw [decodeBook_bookToSaveDictionary]
    rfl
  unfold listedRecords
  rw [hall, hchildren, List.map_map]
  exact List.Perm.refl _

/-! ## The laws -/

/-- The store refines the map from owner and ISBN to book exactly when each id
is one legal key and no two owners and ISBNs make the same key. -/
theorem the_store_refines_the_map_iff_the_keys_are_apart (calls : List SaveCall) :
    RefinesMap (calls.map SaveCall.book) ↔ KeysApart (calls.map SaveCall.book) := by
  have hj := joined_calls calls
  exact ⟨keysApart_of_refinesMap hj, refinesMap_of_keysApart hj⟩

/-- A filled form with the ISBN. -/
def filledForm (isbn : String) : AddMenu :=
  { AddMenu.initial "" with
    titleTextField := "first title", authorTextField := "author", isbnTextField := isbn }

def dottedCall : SaveCall := ⟨filledForm "978.2", "uid1", by decide +kernel, by decide⟩

def slashedCall : SaveCall := ⟨filledForm "978/2", "uid1", by decide +kernel, by decide⟩

def shortUidCall : SaveCall := ⟨filledForm "2978", "uid1", by decide +kernel, by decide⟩

def longUidCall : SaveCall := ⟨filledForm "978", "uid12", by decide +kernel, by decide⟩

/-- A dot in the ISBN raises, a slash hides the record below another node, and
two users can meet at one id. -/
theorem three_runs_that_lose_a_record :
    ¬ RefinesMap ([dottedCall].map SaveCall.book) ∧
      ¬ RefinesMap ([slashedCall].map SaveCall.book) ∧
      ¬ RefinesMap ([shortUidCall, longUidCall].map SaveCall.book) := by
  refine ⟨fun h => ?_, fun h => ?_, fun h => ?_⟩
  · have hvalid := (keysApart_of_refinesMap (joined_calls _) h).valid dottedCall.book (by simp)
    exact absurd hvalid (by decide +kernel)
  · have hsingle := (keysApart_of_refinesMap (joined_calls _) h).single slashedCall.book (by simp)
    exact absurd hsingle (by decide +kernel)
  · have hapart := (keysApart_of_refinesMap (joined_calls _) h).apart shortUidCall.book (by simp)
      longUidCall.book (by simp) (by decide +kernel)
    exact absurd hapart (by decide +kernel)

end xellissime_book.saved_records
