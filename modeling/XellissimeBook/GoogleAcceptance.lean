-- The laws of the Google answer. The loop over the identifiers keeps the last
-- one of 13 Characters, and the answer depends on that one only.
import XellissimeBook.Lookup

open xellissime_book.book_record

namespace xellissime_book.lookup

variable {Data : Type}

/-! ## The identifiers -/

/-- The identifiers of 13 Characters, in the order of the list. -/
def isbns13 (items : List IndustryIdentifier) : List String :=
  (items.filterMap (·.identifier)).filter (·.length = 13)

/-- With no identifier missing, the loop ends with the last one of 13
Characters. -/
theorem identifierLoop_eq_last {items : List IndustryIdentifier}
    (h : ∀ item ∈ items, item.identifier.isSome) (isbnEmpty : String) :
    identifierLoop items isbnEmpty = some ((isbns13 items).getLast?.getD isbnEmpty) := by
  induction items generalizing isbnEmpty with
  | nil => rfl
  | cons item rest ih =>
    obtain ⟨isbnFromFile, hi⟩ := Option.isSome_iff_exists.mp (h item List.mem_cons_self)
    have hrest := ih fun other ho => h other (List.mem_cons_of_mem item ho)
    unfold identifierLoop isbns13
    rw [List.filterMap_cons_some hi]
    simp only [hi]
    by_cases hlen : isbnFromFile.length = 13
    · rw [if_pos hlen, hrest, List.filter_cons_of_pos (by simpa using hlen), List.getLast?_cons]
      rfl
    · rw [if_neg hlen, hrest, List.filter_cons_of_neg (by simpa using hlen)]
      rfl

/-! ## The answer -/

/-- A response with status 200 whose first item has a title, an author, a
publisher and a list of identifiers with none missing. -/
def CompleteItem (P : Platform Data) (completion : Completion Data) (read : GoogleRead) : Prop :=
  ∃ data responseJson info, completion.okData = some data ∧
    P.bookResponse data = some responseJson ∧ firstVolumeInfo responseJson = some info ∧
    info.title = some read.title ∧ info.authors.bind (·.head?) = some read.author ∧
    info.publisher = some read.editor ∧ info.industryIdentifiers = some read.tempsId ∧
    read.coverTemp = (info.imageLinks.bind (·.thumbnail)).getD "" ∧
    ∀ item ∈ read.tempsId, item.identifier.isSome

/-- The book of the item, with the ISBN. -/
def GoogleRead.book (read : GoogleRead) (isbn : String) : Book :=
  { Book.new read.title read.author isbn with
    bookCoverURL := read.coverTemp, bookEditor := some read.editor }

/-- A list with an identifier is accepted for its last ISBN-13, and for the
empty ISBN when it has none. -/
theorem getBookInfo_of_completeItem {P : Platform Data} {completion : Completion Data}
    {read : GoogleRead} (h : CompleteItem P completion read) (isbn : String) :
    getBookInfo P isbn completion =
      if read.tempsId ≠ [] ∧ isbn = (isbns13 read.tempsId).getLast?.getD "" then
        [found (read.book isbn)]
      else [failed] := by
  obtain ⟨data, json, info, hd, hj, hi, ht, ha, he, hids, hc, hall⟩ := h
  unfold getBookInfo
  by_cases hne : read.tempsId = []
  · have hnone : googleGuards P completion = none := by
      rw [Option.eq_none_iff_forall_ne_some]
      intro read' hread'
      obtain ⟨data', json', info', hd', hj', hi', _, _, _, hids', hne', _⟩ :=
        (googleGuards_eq_some_iff P completion read').mp hread'
      cases hd.symm.trans hd'
      cases hj.symm.trans hj'
      cases hi.symm.trans hi'
      rw [hids, hne] at hids'
      exact hne' (Option.some.inj hids').symm
    rw [hnone, if_neg fun hcond => hcond.1 hne]
  · have hread : googleGuards P completion = some read :=
      (googleGuards_eq_some_iff P completion read).mpr
        ⟨data, json, info, hd, hj, hi, ht, ha, he, hids, hne, hc⟩
    rw [hread]
    dsimp only
    rw [identifierLoop_eq_last hall]
    dsimp only
    by_cases hisbn : isbn = (isbns13 read.tempsId).getLast?.getD ""
    · rw [if_neg (not_not.mpr hisbn), if_pos ⟨hne, hisbn⟩, ← hisbn]
      rfl
    · rw [if_pos hisbn, if_neg fun hcond => hisbn hcond.2]

/-! ## The law -/

/-- What the lookup is for: it finds a book exactly when the requested ISBN is
one of the ISBN-13 of the item, and then the book of the item. -/
def AcceptsTheIsbns (P : Platform Data) (isbn : String) (completion : Completion Data)
    (read : GoogleRead) : Prop :=
  ((∃ book, getBookInfo P isbn completion = [found book]) ↔ isbn ∈ isbns13 read.tempsId) ∧
    ∀ book, getBookInfo P isbn completion = [found book] →
      book.bookIsbn = isbn ∧ book.bookTitle = read.title ∧ book.bookAuthor = read.author ∧
        book.bookEditor = some read.editor ∧ book.bookCoverURL = read.coverTemp

/-- The requested ISBN is the last of the ISBN-13 or none of them, and it is
not empty where identifiers are listed and none is an ISBN-13. -/
def LastOrNone (isbn : String) (items : List IndustryIdentifier) : Prop :=
  (isbn ∈ isbns13 items → (isbns13 items).getLast? = some isbn) ∧
    ¬ (isbn = "" ∧ items ≠ [] ∧ isbns13 items = [])

/-- The test of the code is the test for one of the ISBN-13, then and only then. -/
theorem last_iff_mem_iff_lastOrNone (isbn : String) (items : List IndustryIdentifier) :
    (items ≠ [] ∧ isbn = (isbns13 items).getLast?.getD "" ↔ isbn ∈ isbns13 items) ↔
      LastOrNone isbn items := by
  unfold LastOrNone
  cases hlast : (isbns13 items).getLast? with
  | none =>
    rw [List.getLast?_eq_none_iff.mp hlast, Option.getD_none]
    constructor
    · intro hiff
      refine ⟨fun hmem => absurd hmem List.not_mem_nil, fun hempty => ?_⟩
      exact absurd (hiff.mp ⟨hempty.2.1, hempty.1⟩) List.not_mem_nil
    · rintro ⟨_, hempty⟩
      exact ⟨fun hcond => absurd ⟨hcond.2, hcond.1, rfl⟩ hempty,
        fun hmem => absurd hmem List.not_mem_nil⟩
  | some last =>
    have hmem : last ∈ isbns13 items := List.mem_of_getLast? hlast
    have hne : isbns13 items ≠ [] := List.ne_nil_of_mem hmem
    have hitems : items ≠ [] := by
      rintro rfl
      exact hne rfl
    rw [Option.getD_some]
    constructor
    · intro hiff
      exact ⟨fun hin => congrArg some (hiff.mpr hin).2.symm, fun hempty => hne hempty.2.2⟩
    · rintro ⟨hin, _⟩
      exact ⟨fun hcond => hcond.2 ▸ hmem, fun hm => ⟨hitems, (Option.some.inj (hin hm)).symm⟩⟩

/-- The lookup accepts the ISBN-13 of the item exactly when the requested one is
the last of them or none, and not empty where there is none. -/
theorem google_accepts_the_isbns_iff (P : Platform Data) (isbn : String)
    (completion : Completion Data) (read : GoogleRead) (h : CompleteItem P completion read) :
    AcceptsTheIsbns P isbn completion read ↔ LastOrNone isbn read.tempsId := by
  have hcarries : ∀ book, getBookInfo P isbn completion = [found book] →
      book.bookIsbn = isbn ∧ book.bookTitle = read.title ∧ book.bookAuthor = read.author ∧
        book.bookEditor = some read.editor ∧ book.bookCoverURL = read.coverTemp := by
    intro book hb
    rw [getBookInfo_of_completeItem h] at hb
    split at hb
    · have hbook : read.book isbn = book := by simpa [found] using hb
      rw [← hbook]
      exact ⟨rfl, rfl, rfl, rfl, rfl⟩
    · simp [failed, found] at hb
  have hfound : (∃ book, getBookInfo P isbn completion = [found book]) ↔
      read.tempsId ≠ [] ∧ isbn = (isbns13 read.tempsId).getLast?.getD "" := by
    rw [getBookInfo_of_completeItem h]
    constructor
    · rintro ⟨book, hb⟩
      split at hb
      · assumption
      · simp [failed, found] at hb
    · intro hcond
      exact ⟨_, if_pos hcond⟩
  unfold AcceptsTheIsbns
  rw [hfound, and_iff_left hcarries]
  exact last_iff_mem_iff_lastOrNone isbn read.tempsId

/-- A Google item with the identifiers. -/
def itemWithIdentifiers (identifiers : List String) : DecodedData where
  google := some { items := some [{ volumeInfo := some {
    title := some "first title"
    authors := some ["author"]
    publisher := some "editor"
    industryIdentifiers := some (identifiers.map fun identifier =>
      { identifier := some identifier })
    imageLinks := none } }] }

/-- What the guards read in the item. -/
def readOfIdentifiers (identifiers : List String) : GoogleRead where
  title := "first title"
  author := "author"
  editor := "editor"
  tempsId := identifiers.map fun identifier => { identifier := some identifier }
  coverTemp := ""

theorem completeItem_of_identifiers (identifiers : List String) :
    CompleteItem decodedPlatform (ok200 (itemWithIdentifiers identifiers))
      (readOfIdentifiers identifiers) := by
  refine ⟨_, _, _, rfl, rfl, rfl, rfl, rfl, rfl, rfl, rfl, ?_⟩
  intro item hitem
  obtain ⟨identifier, _, rfl⟩ := List.mem_map.mp hitem
  rfl

/-- An ISBN-10 and an ISBN-13, in this order. -/
theorem google_accepts_the_last_isbn13 :
    AcceptsTheIsbns decodedPlatform "9782070411429"
      (ok200 (itemWithIdentifiers ["2070411427", "9782070411429"]))
      (readOfIdentifiers ["2070411427", "9782070411429"]) := by
  apply (google_accepts_the_isbns_iff decodedPlatform "9782070411429" _ _
    (completeItem_of_identifiers ["2070411427", "9782070411429"])).mpr
  exact ⟨fun _ => by decide, fun hempty => absurd hempty.1 (by decide)⟩

/-- The first of two ISBN-13 is refused, and the empty ISBN is accepted by an
item that only has an ISBN-10. -/
theorem google_refuses_an_earlier_isbn13 :
    (CompleteItem decodedPlatform
        (ok200 (itemWithIdentifiers ["9782070411429", "9782253003656"]))
        (readOfIdentifiers ["9782070411429", "9782253003656"]) ∧
      ¬ AcceptsTheIsbns decodedPlatform "9782070411429"
        (ok200 (itemWithIdentifiers ["9782070411429", "9782253003656"]))
        (readOfIdentifiers ["9782070411429", "9782253003656"])) ∧
    ¬ AcceptsTheIsbns decodedPlatform "" (ok200 (itemWithIdentifiers ["2070411427"]))
      (readOfIdentifiers ["2070411427"]) := by
  refine ⟨⟨completeItem_of_identifiers _, ?_⟩, ?_⟩
  · rintro ⟨hiff, _⟩
    obtain ⟨book, hfound⟩ := hiff.mpr (by decide)
    have hfailed : getBookInfo decodedPlatform "9782070411429"
        (ok200 (itemWithIdentifiers ["9782070411429", "9782253003656"])) = [failed] := by rfl
    rw [hfailed] at hfound
    simp [failed, found] at hfound
  · rintro ⟨hiff, _⟩
    have hmem : "" ∈ isbns13 (readOfIdentifiers ["2070411427"]).tempsId :=
      hiff.mp ⟨_, rfl⟩
    exact absurd hmem (by decide)

end xellissime_book.lookup
