-- The add-book form (Controller/AddMenuViewController.swift): its fields and
-- buttons, the chain of three lookups that a search starts, and the save.
import XellissimeBook.Lookup
import XellissimeBook.Runs

open xellissime_book.database xellissime_book.text
open xellissime_book.book_record xellissime_book.lookup

namespace xellissime_book.add_menu

variable {Data : Type}

/-! ## The state -/

inductive AlertCase where
  | googleBookAPIProblemWithUrl
  | needAllFieldsCompleted
  deriving DecidableEq

/-- What the form does to the world outside its own fields. -/
inductive Effect where
  | request (provider : Provider) (isbn : String) (fullUrl : URL)
  /-- A lookup for the ISBN calls back with the book. -/
  | delivered (isbn : String) (book : Book)
  | alert (alertCase : AlertCase)
  | notFoundDialog
  | storeCoverImage (fromBook : Book)
  | saveBook (book : Book)
  deriving DecidableEq

/-- The controller, with the two globals that it shares with the scanner and
the lookups that it started. Colours, corners and the place of the popover are
left out. So a button can be pressed here with the popover closed too. -/
structure AddMenu where
  indicatorAddHidden : Bool
  indicatorSearchHidden : Bool
  addToDatabaseEnabled : Bool
  searchEnabled : Bool
  titleTextField : String
  authorTextField : String
  isbnTextField : String
  bookToSave : Option Book
  scannedIsbn : String
  comeFromAdd : Bool
  network : NetworkManager
  /-- The effects so far, oldest first. -/
  log : List Effect
  /-- The exception that ended the app. -/
  raised : Option NSException

/-- The form as the storyboard makes it. -/
def AddMenu.initial (scannedIsbn : String) : AddMenu where
  indicatorAddHidden := false
  indicatorSearchHidden := false
  addToDatabaseEnabled := true
  searchEnabled := true
  titleTextField := ""
  authorTextField := ""
  isbnTextField := ""
  bookToSave := none
  scannedIsbn
  comeFromAdd := false
  network := NetworkManager.shared
  log := []
  raised := none

def AddMenu.emit (f : AddMenu) (effect : Effect) : AddMenu := { f with log := f.log ++ [effect] }

/-- `toggleIndicator(shown:)`. -/
def AddMenu.toggleIndicator (f : AddMenu) (shown : Bool) : AddMenu :=
  { f with
    indicatorAddHidden := shown
    indicatorSearchHidden := shown
    addToDatabaseEnabled := shown
    searchEnabled := shown }

/-- `showPopover`, for the field that it fills. -/
def AddMenu.showPopover (f : AddMenu) : AddMenu := { f with isbnTextField := f.scannedIsbn }

/-- `removePopover`. -/
def AddMenu.removePopover (f : AddMenu) : AddMenu := { f with scannedIsbn := "" }

/-- The ISBN that a call reads from the field. -/
def AddMenu.isbnFromTextField (f : AddMenu) : String :=
  removeFirstAndLastAndDoubleWhitespace f.isbnTextField

/-! ## The search -/

/-- `bookToSave = Book(title: "", author: "", isbn: "")`, so that no data
remains in the object. -/
def AddMenu.emptyBook (f : AddMenu) : AddMenu :=
  { f with bookToSave := some (Book.new "" "" "") }

/-- The body that the three calls share: empty `bookToSave`, read the field,
build the URL of the provider and start its lookup. -/
def AddMenu.providerCall (P : Platform Data) (provider : Provider) (f : AddMenu) : AddMenu :=
  let f := f.emptyBook
  match provider.fullUrl P f.isbnFromTextField with
  | none => f.emit (.alert .googleBookAPIProblemWithUrl)
  | some fullUrl =>
    { f.emit (.request provider f.isbnFromTextField fullUrl) with
      network := f.network.start provider fullUrl f.isbnFromTextField }

/-- `googleBookCall`. Only this one disables the buttons. -/
def AddMenu.googleBookCall (P : Platform Data) (f : AddMenu) : AddMenu :=
  (f.toggleIndicator false).providerCall P .googleBooks

/-- `openLibraryCall`. -/
def AddMenu.openLibraryCall (P : Platform Data) (f : AddMenu) : AddMenu :=
  f.providerCall P .openLibrary

/-- `goodReadsCall`. -/
def AddMenu.goodReadsCall (P : Platform Data) (f : AddMenu) : AddMenu :=
  f.providerCall P .goodReads

/-- The three callbacks with a book. -/
def AddMenu.showBook (f : AddMenu) (book : Book) : AddMenu :=
  { f with
    titleTextField := book.bookTitle
    authorTextField := book.bookAuthor
    bookToSave := some book }.toggleIndicator true

/-- The three callbacks with no book. -/
def AddMenu.tryNext (P : Platform Data) (f : AddMenu) : Provider → AddMenu
  | .googleBooks => f.openLibraryCall P
  | .openLibrary => f.goodReadsCall P
  | .goodReads => (f.toggleIndicator true).emit .notFoundDialog

/-- The provider that a failure hands over to. -/
def next : Provider → Option Provider
  | .googleBooks => some .openLibrary
  | .openLibrary => some .goodReads
  | .goodReads => none

theorem tryNext_eq (P : Platform Data) (f : AddMenu) (provider : Provider) :
    f.tryNext P provider =
      match next provider with
      | some provider' => f.providerCall P provider'
      | none => (f.toggleIndicator true).emit .notFoundDialog := by
  cases provider <;> rfl

/-- `callBack` of the lookup. -/
def AddMenu.callBack (P : Platform Data) (t : DataTask) (f : AddMenu) (answer : Answer) :
    AddMenu :=
  match answer.2 with
  | some book => (f.emit (.delivered t.isbn book)).showBook book
  | none => f.tryNext P t.provider

/-! ## The save -/

/-- The book that `saveBookInDatabase` makes of the fields, for a signed-in
user. -/
def bookOfFields (userId title author isbn : String) (bookToSave : Option Book) : Book :=
  let isbn := removeFirstAndLastAndDoubleWhitespace isbn
  { Book.new (removeFirstAndLastAndDoubleWhitespace title)
      (removeFirstAndLastAndDoubleWhitespace author) isbn with
    bookId := userId ++ isbn
    bookOwner := userId
    bookEditor := bookToSave.bind (·.bookEditor)
    bookCoverURL :=
      match bookToSave with
      | some book => if book.bookCoverURL ≠ "" then book.bookCoverURL else ""
      | none => "" }

/-- `saveBookInDatabase`, with the uid of the current user. -/
def AddMenu.saveBookInDatabase (f : AddMenu) (uid : Option String) : AddMenu :=
  if f.titleTextField = "" ∨ f.authorTextField = "" ∨ f.isbnTextField = "" then
    f.emit (.alert .needAllFieldsCompleted)
  else
    match uid with
    | none => f
    | some userId =>
      let book :=
        bookOfFields userId f.titleTextField f.authorTextField f.isbnTextField f.bookToSave
      let f := f.emit (.storeCoverImage book)
      -- what `saveBook` raises, and else what it hands over
      match recordReference book with
      | .error exception => { f with raised := some exception }
      | .ok _ => { f.emit (.saveBook book) with scannedIsbn := "", comeFromAdd := true }

theorem saveBookInDatabase_of_empty {f : AddMenu} {uid : Option String}
    (hf : f.titleTextField = "" ∨ f.authorTextField = "" ∨ f.isbnTextField = "") :
    f.saveBookInDatabase uid = f.emit (.alert .needAllFieldsCompleted) :=
  if_pos hf

section Filled

variable {f : AddMenu} {userId : String} {book : Book}
  (hf : ¬ (f.titleTextField = "" ∨ f.authorTextField = "" ∨ f.isbnTextField = ""))
include hf

theorem saveBookInDatabase_of_no_user : f.saveBookInDatabase none = f :=
  if_neg hf

variable (hbook : bookOfFields userId f.titleTextField f.authorTextField f.isbnTextField
  f.bookToSave = book)
include hbook

theorem saveBookInDatabase_of_ok {ref : DatabaseReference}
    (hreference : recordReference book = .ok ref) :
    f.saveBookInDatabase (some userId) =
      { (f.emit (.storeCoverImage book)).emit (.saveBook book) with
        scannedIsbn := "", comeFromAdd := true } := by
  subst hbook
  unfold AddMenu.saveBookInDatabase
  rw [if_neg hf]
  simp only [hreference]

/-- The cover goes out even where the book is not saved. -/
theorem saveBookInDatabase_of_error {exception : NSException}
    (hreference : recordReference book = .error exception) :
    f.saveBookInDatabase (some userId) =
      { f.emit (.storeCoverImage book) with raised := some exception } := by
  subst hbook
  unfold AddMenu.saveBookInDatabase
  rw [if_neg hf]
  simp only [hreference]

end Filled

/-! ## The steps -/

inductive Event (Data : Type) where
  | viewDidLoad
  | viewWillAppear
  | editTitle (text : String)
  | editAuthor (text : String)
  | editIsbn (text : String)
  /-- `ScanRunningViewController.found(code:)`. -/
  | scan (code : String)
  | addManually
  | search
  | save (uid : Option String)
  | response (id : Nat) (completion : Completion Data)
  /-- The action `Cancel` of the not-found dialog. -/
  | cancelDialog

/-- One step. A button acts while it is enabled, a response comes for a lookup
in flight, and nothing happens after an exception. -/
def step (P : Platform Data) (f : AddMenu) (event : Event Data) : Option AddMenu :=
  if f.raised.isSome then none
  else
    match event with
    | .viewDidLoad =>
      some { f.toggleIndicator true with isbnTextField := f.scannedIsbn }
    | .viewWillAppear => some (if f.scannedIsbn ≠ "" then f.showPopover else f)
    | .editTitle text => some { f with titleTextField := text }
    | .editAuthor text => some { f with authorTextField := text }
    | .editIsbn text => some { f with isbnTextField := text }
    | .scan code => some { f with scannedIsbn := code }
    | .addManually => some f.showPopover
    | .search => if f.searchEnabled then some (f.googleBookCall P) else none
    | .save uid => if f.addToDatabaseEnabled then some (f.saveBookInDatabase uid) else none
    | .response id completion =>
      (f.network.finish id completion).map fun (t, network) =>
        (t.provider.complete P t.isbn completion).foldl (AddMenu.callBack P t) { f with network }
    | .cancelDialog => some f.removePopover

/-! ## What one step does -/

theorem providerCall_of_url {P : Platform Data} {provider : Provider} {f : AddMenu} {fullUrl : URL}
    (h : provider.fullUrl P f.isbnFromTextField = some fullUrl) :
    f.providerCall P provider =
      { f.emptyBook.emit (.request provider f.isbnFromTextField fullUrl) with
        network := f.network.start provider fullUrl f.isbnFromTextField } := by
  have hu : provider.fullUrl P f.emptyBook.isbnFromTextField = some fullUrl := h
  simp only [AddMenu.providerCall, hu]
  rfl

theorem providerCall_of_no_url {P : Platform Data} {provider : Provider} {f : AddMenu}
    (h : provider.fullUrl P f.isbnFromTextField = none) :
    f.providerCall P provider = f.emptyBook.emit (.alert .googleBookAPIProblemWithUrl) := by
  have hu : provider.fullUrl P f.emptyBook.isbnFromTextField = none := h
  simp only [AddMenu.providerCall, hu]

/-- The provider that a response hands over to: the next one, after a failure. -/
def handsOver (P : Platform Data) (f : AddMenu) : Event Data → Option Provider
  | .response id completion =>
    (f.network.finish id completion).bind fun (t, _) =>
      if t.provider.complete P t.isbn completion = [failed] then next t.provider else none
  | _ => none

/-- A response answers one lookup in flight. The answer is nothing, at a
missing identifier, or a book, or the last failure, or a failure that hands
over. -/
theorem response_cases {P : Platform Data} {f f' : AddMenu} {id : Nat}
    {completion : Completion Data} (h : step P f (.response id completion) = some f') :
    ∃ t network, f.network.finish id completion = some (t, network) ∧
      ((t.provider = .googleBooks ∧ MissingIdentifier P completion ∧
          handsOver P f (.response id completion) = none ∧ f' = { f with network }) ∨
        (∃ book, t.provider.complete P t.isbn completion = [found book] ∧
          handsOver P f (.response id completion) = none ∧
          f' = ({ f with network }.emit (.delivered t.isbn book)).showBook book) ∨
        (t.provider.complete P t.isbn completion = [failed] ∧
          handsOver P f (.response id completion) = none ∧
          f' = ({ f with network }.toggleIndicator true).emit .notFoundDialog) ∨
        ∃ provider, t.provider.complete P t.isbn completion = [failed] ∧
          handsOver P f (.response id completion) = some provider ∧
          f' = { f with network }.providerCall P provider) := by
  simp only [step] at h
  split at h
  · cases h
  · obtain ⟨⟨t, network⟩, hfin, hf⟩ := Option.map_eq_some_iff.mp h
    refine ⟨t, network, hfin, ?_⟩
    dsimp only at hf
    simp only [handsOver, hfin, Option.bind_some]
    rcases complete_answers P t.provider t.isbn completion with
      ⟨hans, hg, hm⟩ | ⟨hans | ⟨book, hans⟩, _⟩
    · rw [hans] at hf ⊢
      exact Or.inl ⟨hg, hm, rfl, hf.symm⟩
    · rw [hans, List.foldl_cons, List.foldl_nil] at hf
      change ({ f with network } : AddMenu).tryNext P t.provider = f' at hf
      rw [tryNext_eq] at hf
      rw [hans, if_pos rfl]
      cases hn : next t.provider with
      | none =>
        rw [hn] at hf
        exact Or.inr (Or.inr (Or.inl ⟨rfl, rfl, hf.symm⟩))
      | some provider =>
        rw [hn] at hf
        exact Or.inr (Or.inr (Or.inr ⟨provider, rfl, rfl, hf.symm⟩))
    · have hne : [found book] ≠ [failed] := by simp [found, failed]
      rw [hans] at hf ⊢
      exact Or.inr (Or.inl ⟨book, rfl, if_neg hne, hf.symm⟩)

/-- The texts that the fields, the user and the lookup bring into the record. -/
def AddMenu.textsToSave (f : AddMenu) (userId : String) : List String :=
  [userId ++ f.isbnFromTextField, removeFirstAndLastAndDoubleWhitespace f.titleTextField,
    removeFirstAndLastAndDoubleWhitespace f.authorTextField,
    (f.bookToSave.bind (·.bookEditor)).getD "", (f.bookToSave.map (·.bookCoverURL)).getD ""]

/-- The database takes all of them. -/
def AddMenu.TakenTexts (f : AddMenu) (userId : String) : Prop :=
  ∀ text ∈ f.textsToSave userId, lengthOfBytes text ≤ kFirebaseMaxLeafSize

instance decidableTakenTexts (f : AddMenu) (userId : String) : Decidable (f.TakenTexts userId) :=
  inferInstanceAs (Decidable (∀ text ∈ f.textsToSave userId, _))

/-- The other texts of the record are defaults, or parts of these. -/
theorem shortTexts_bookOfFields_iff (f : AddMenu) (userId : String) :
    ShortTexts (bookOfFields userId f.titleTextField f.authorTextField f.isbnTextField
      f.bookToSave) ↔ f.TakenTexts userId := by
  have hid := lengthOfBytes_append userId f.isbnFromTextField
  have hdefaults : ∀ text ∈ ["", "unknown", "N/A"],
      lengthOfBytes text ≤ kFirebaseMaxLeafSize := by
    decide +kernel
  simp only [List.forall_mem_cons] at hdefaults
  obtain ⟨hempty, hunknown, hyear, _⟩ := hdefaults
  have heditor : lengthOfBytes ((f.bookToSave.bind (·.bookEditor)).getD "unknown") ≤
      kFirebaseMaxLeafSize ↔
      lengthOfBytes ((f.bookToSave.bind (·.bookEditor)).getD "") ≤ kFirebaseMaxLeafSize := by
    cases f.bookToSave.bind (·.bookEditor) with
    | none => exact iff_of_true hunknown hempty
    | some editor => exact Iff.rfl
  have hcover : (bookOfFields userId f.titleTextField f.authorTextField f.isbnTextField
      f.bookToSave).bookCoverURL = (f.bookToSave.map (·.bookCoverURL)).getD "" := by
    cases f.bookToSave with
    | none => rfl
    | some book => simp [bookOfFields]
  unfold AddMenu.TakenTexts AddMenu.textsToSave ShortTexts savedTexts
  rw [hcover]
  unfold AddMenu.isbnFromTextField at *
  simp only [List.forall_mem_cons, bookOfFields, Book.new, heditor, Option.getD_none, hunknown,
    hyear, true_and]
  constructor
  · rintro ⟨hjoined, _, htitle, hauthor, hed, hcov, _⟩
    exact ⟨hjoined, htitle, hauthor, hed, hcov, by simp⟩
  · rintro ⟨hjoined, htitle, hauthor, hed, hcov, _⟩
    exact ⟨hjoined, by omega, htitle, hauthor, hed, hcov, by omega, by simp⟩

/-- A save goes on to the write: the fields are filled, the id is a path and the
database takes the texts. -/
def AddMenu.CanSave (f : AddMenu) (userId : String) : Prop :=
  f.titleTextField ≠ "" ∧ f.authorTextField ≠ "" ∧ f.isbnTextField ≠ "" ∧
    isValidPathString (userId ++ f.isbnFromTextField) = true ∧ f.TakenTexts userId

instance decidableCanSave (f : AddMenu) (userId : String) : Decidable (f.CanSave userId) :=
  inferInstanceAs (Decidable (_ ∧ _))

/-- A save that cannot write shows an alert, does nothing or raises. Another
one writes one record. -/
theorem save_cases {P : Platform Data} {f f' : AddMenu} {uid : Option String}
    (h : step P f (.save uid) = some f') :
    ((∀ userId ∈ uid, ¬ f.CanSave userId) ∧
      (f' = f.emit (.alert .needAllFieldsCompleted) ∨ f' = f ∨
        ∃ book exception, f' = { f.emit (.storeCoverImage book) with raised := some exception })) ∨
    ∃ userId ∈ uid, f.CanSave userId ∧
      let book :=
        bookOfFields userId f.titleTextField f.authorTextField f.isbnTextField f.bookToSave
      f' = { (f.emit (.storeCoverImage book)).emit (.saveBook book) with
        scannedIsbn := "", comeFromAdd := true } := by
  simp only [step] at h
  split at h
  · cases h
  · split at h
    · cases h
      by_cases hf : f.titleTextField = "" ∨ f.authorTextField = "" ∨ f.isbnTextField = ""
      · refine Or.inl ⟨?_, Or.inl (saveBookInDatabase_of_empty hf)⟩
        rintro userId _ ⟨ht, ha, hi, _⟩
        rcases hf with he | he | he
        · exact ht he
        · exact ha he
        · exact hi he
      · cases uid with
        | none =>
          refine Or.inl ⟨?_, Or.inr (Or.inl (saveBookInDatabase_of_no_user hf))⟩
          intro _ hu
          cases hu
        | some userId =>
          cases hreference : recordReference (bookOfFields userId f.titleTextField
            f.authorTextField f.isbnTextField f.bookToSave) with
          | error exception =>
            have hsave := saveBookInDatabase_of_error hf rfl hreference
            refine Or.inl ⟨?_, Or.inr (Or.inr ⟨_, exception, hsave⟩)⟩
            rintro _ hu ⟨_, _, _, hv, htexts⟩
            cases hu
            have hok := recordReference_eq_ok_iff.mpr
              ⟨child_ok hv, (shortTexts_bookOfFields_iff f userId).mpr htexts⟩
            cases hreference.symm.trans hok
          | ok ref =>
            refine Or.inr ⟨userId, rfl, ?_, saveBookInDatabase_of_ok hf rfl hreference⟩
            obtain ⟨hchild, hshort⟩ := recordReference_eq_ok_iff.mp hreference
            have hv := (child_eq_ok_iff.mp hchild).1
            push Not at hf
            exact ⟨hf.1, hf.2.1, hf.2.2, hv, (shortTexts_bookOfFields_iff f userId).mp hshort⟩
    · cases h

def ButtonsEnabled (f : AddMenu) : Prop :=
  f.searchEnabled = true ∧ f.addToDatabaseEnabled = true

/-- The step changes texts, and enables the buttons or leaves them. -/
structure OnlyFields (f f' : AddMenu) : Prop where
  network : f'.network = f.network
  log : f'.log = f.log
  bookToSave : f'.bookToSave = f.bookToSave
  buttons : ButtonsEnabled f → ButtonsEnabled f'

theorem search_eq {P : Platform Data} {f f' : AddMenu} (h : step P f .search = some f') :
    f' = f.googleBookCall P := by
  simp only [step] at h
  split at h
  · cases h
  · split at h
    · cases h
      rfl
    · cases h

/-- Only a search, a response and a save do more than change the fields. -/
theorem step_cases {P : Platform Data} {f f' : AddMenu} {event : Event Data}
    (h : step P f event = some f') :
    (event = .search ∧ f' = f.googleBookCall P) ∨
      (∃ id completion, event = .response id completion) ∨ (∃ uid, event = .save uid) ∨
      OnlyFields f f' := by
  cases event with
  | response id completion => exact Or.inr (Or.inl ⟨id, completion, rfl⟩)
  | save uid => exact Or.inr (Or.inr (Or.inl ⟨uid, rfl⟩))
  | search => exact Or.inl ⟨rfl, search_eq h⟩
  | viewDidLoad =>
    simp only [step] at h
    split at h
    · cases h
    · cases h
      exact Or.inr (Or.inr (Or.inr ⟨rfl, rfl, rfl, fun _ => ⟨rfl, rfl⟩⟩))
  | viewWillAppear =>
    simp only [step] at h
    split at h
    · cases h
    · cases h
      refine Or.inr (Or.inr (Or.inr ?_))
      split
      · exact ⟨rfl, rfl, rfl, fun hb => hb⟩
      · exact ⟨rfl, rfl, rfl, fun hb => hb⟩
  | editTitle text | editAuthor text | editIsbn text | scan code | addManually | cancelDialog =>
    simp only [step] at h
    split at h
    · cases h
    · cases h
      exact Or.inr (Or.inr (Or.inr ⟨rfl, rfl, rfl, fun hb => hb⟩))

end xellissime_book.add_menu
