-- The three lookups of `NetworkManager` (Model/APIManager.swift): the URL that
-- each one asks, the task that it starts, and the completion block that
-- answers it.
import XellissimeBook.BookRecord

open path_tree
open xellissime_book.book_record

namespace xellissime_book.lookup

/-! ## What the code reads of the responses -/

structure IndustryIdentifier where
  identifier : Option String

structure ImageLinks where
  thumbnail : Option String

structure VolumeInfo where
  title : Option String
  authors : Option (List String)
  publisher : Option String
  industryIdentifiers : Option (List IndustryIdentifier)
  imageLinks : Option ImageLinks

structure Item where
  volumeInfo : Option VolumeInfo

structure BookResponse where
  items : Option (List Item)

/-- `Author` and `Publish` of OpenLibrary, for the name that both have. -/
structure Named where
  name : Option String

structure Cover where
  small : Option String
  large : Option String
  medium : Option String

structure BookOpenLibraryResponse where
  publishers : Option (List Named)
  identifiers : Option (List (String × List String))
  title : Option String
  cover : Option Cover
  authors : Option (List Named)

structure URL where
  absoluteString : String
  deriving DecidableEq

/-- What the app calls and does not hold: `URL(string:)`, the key list of the
bundle, the JSON decoder and the XML parser. -/
structure Platform (Data : Type) where
  isURL : String → Bool
  valueForAPIKey : String → String
  bookResponse : Data → Option BookResponse
  openLibraryResponse : Data → Option (List (String × BookOpenLibraryResponse))
  xmlText : Data → List String → Option String

variable {Data : Type}

/-- `URL(string:)` keeps the text of a valid URL and gives nil for another. -/
def Platform.url (P : Platform Data) (text : String) : Option URL :=
  if P.isURL text then some { absoluteString := text } else none

/-! ## The URLs -/

inductive Provider where
  | googleBooks
  | openLibrary
  | goodReads
  deriving DecidableEq

/-- `GoogleBookAPI.createFullUrl`. -/
def googleBookFullUrl (P : Platform Data) (isbn : String) : Option URL :=
  P.url ("https://www.googleapis.com/books/v1/volumes" ++ "?" ++
    ("q=+isbn:" ++ isbn ++ "&printType=books&key=" ++ P.valueForAPIKey "APIGoogle"))

/-- `OpenLibraryAPI.createFullUrl`. -/
def openlibraryFullUrl (P : Platform Data) (isbn : String) : Option URL :=
  P.url ("https://openlibrary.org/api/books" ++ "?" ++
    ("bibkeys=ISBN:" ++ isbn ++ "&format=json&jscmd=data"))

/-- `GoodReadsAPI.createFullUrl`. -/
def goodReadsFullUrl (P : Platform Data) (isbn : String) : Option URL :=
  P.url ("https://www.goodreads.com/search.xml" ++ "?" ++
    ("key=" ++ P.valueForAPIKey "APIGoodReads" ++ "&q=" ++ isbn))

def Provider.fullUrl (P : Platform Data) : Provider → String → Option URL
  | .googleBooks => googleBookFullUrl P
  | .openLibrary => openlibraryFullUrl P
  | .goodReads => goodReadsFullUrl P

/-! ## The completion blocks -/

inductive URLResponse where
  | http (statusCode : Int)
  | other

/-- What a data task hands to its completion block. -/
structure Completion (Data : Type) where
  data : Option Data
  response : Option URLResponse
  error : Option String

/-- One call of `callBack`. -/
abbrev Answer := Bool × Option Book

def failed : Answer := (false, none)

def found (book : Book) : Answer := (true, some book)

/-- The first two guards of the three blocks: data with no error, and status
200. -/
def Completion.okData (completion : Completion Data) : Option Data :=
  match completion.data, completion.error, completion.response with
  | some data, none, some (.http statusCode) => if statusCode = 200 then some data else none
  | _, _, _ => none

/-- `items?.first?.volumeInfo`. -/
def firstVolumeInfo (responseJson : BookResponse) : Option VolumeInfo :=
  (responseJson.items.bind (·.head?)).bind (·.volumeInfo)

/-- What the guards of `getBookInfo` read before the loop. -/
structure GoogleRead where
  title : String
  author : String
  editor : String
  tempsId : List IndustryIdentifier
  coverTemp : String

/-- The guards of `getBookInfo` that answer `(false, nil)`: `none` where one
of them fails. -/
def googleGuards (P : Platform Data) (completion : Completion Data) : Option GoogleRead := do
  let data ← completion.okData
  let responseJson ← P.bookResponse data
  let volumeInfo := firstVolumeInfo responseJson
  let title ← volumeInfo.bind (·.title)
  let author ← (volumeInfo.bind (·.authors)).bind (·.head?)
  let editor ← volumeInfo.bind (·.publisher)
  let tempsId ← volumeInfo.bind (·.industryIdentifiers)
  if 0 < tempsId.length then
    return {
      title, author, editor, tempsId
      coverTemp := ((volumeInfo.bind (·.imageLinks)).bind (·.thumbnail)).getD "" }
  else none

/-- The loop over the identifiers. It keeps the last one of 13 Characters, and
it leaves the whole block, with no answer, at one that is missing. -/
def identifierLoop : List IndustryIdentifier → String → Option String
  | [], isbnEmpty => some isbnEmpty
  | item :: rest, isbnEmpty =>
    match item.identifier with
    | none => none
    | some isbnFromFile =>
      identifierLoop rest (if isbnFromFile.length = 13 then isbnFromFile else isbnEmpty)

/-- The completion block of `getBookInfo`, as the answers that it gives. -/
def getBookInfo (P : Platform Data) (isbn : String) (completion : Completion Data) :
    List Answer :=
  match googleGuards P completion with
  | none => [failed]
  | some read =>
    match identifierLoop read.tempsId "" with
    | none => []
    | some isbnEmpty =>
      if isbn ≠ isbnEmpty then [failed]
      else [found { Book.new read.title read.author isbnEmpty with
        bookCoverURL := read.coverTemp, bookEditor := some read.editor }]

/-- What the guards of `getBookInfoOpenLibrary` read. -/
structure OpenLibraryRead where
  title : String
  author : String
  editor : String
  firstItem : String
  coverTemp : String

/-- The guards of `getBookInfoOpenLibrary`. -/
def openLibraryGuards (P : Platform Data) (isbn : String) (completion : Completion Data) :
    Option OpenLibraryRead := do
  let data ← completion.okData
  let responseJson ← P.openLibraryResponse data
  let openLibraryResponse ← getKey ("ISBN:" ++ isbn) responseJson
  let title ← openLibraryResponse.title
  let author ← (openLibraryResponse.authors.bind (·.head?)).bind (·.name)
  let editor ← (openLibraryResponse.publishers.bind (·.head?)).bind (·.name)
  let tempIsbn ← openLibraryResponse.identifiers.bind (getKey "isbn_13")
  let firstItem ← tempIsbn.head?
  let cover := openLibraryResponse.cover
  return {
    title, author, editor, firstItem
    coverTemp := ((cover.bind (·.medium)).or ((cover.bind (·.small)).or
      (cover.bind (·.large)))).getD "" }

/-- The completion block of `getBookInfoOpenLibrary`. -/
def getBookInfoOpenLibrary (P : Platform Data) (isbn : String) (completion : Completion Data) :
    List Answer :=
  match openLibraryGuards P isbn completion with
  | none => [failed]
  | some read =>
    [found { Book.new read.title read.author read.firstItem with
      bookCoverURL := read.coverTemp, bookEditor := some read.editor }]

/-- `xml["GoodreadsResponse", "search", "results", "work", "best_book", ...]`. -/
def bestBook (path : List String) : List String :=
  ["GoodreadsResponse", "search", "results", "work", "best_book"] ++ path

/-- The completion block of `getBookInfoGoodReads`. -/
def getBookInfoGoodReads (P : Platform Data) (isbn : String) (completion : Completion Data) :
    List Answer :=
  match completion.okData with
  | none => [failed]
  | some data =>
    match P.xmlText data (bestBook ["title"]), P.xmlText data (bestBook ["author", "name"]) with
    | some title, some author =>
      [found { Book.new title author isbn with
        bookCoverURL := ((P.xmlText data (bestBook ["image_url"])).or
          (P.xmlText data (bestBook ["small_image_url"]))).getD ""
        bookEditor := some "N/A" }]
    | _, _ => [failed]

def Provider.complete (P : Platform Data) : Provider → String → Completion Data → List Answer
  | .googleBooks => getBookInfo P
  | .openLibrary => getBookInfoOpenLibrary P
  | .goodReads => getBookInfoGoodReads P

/-! ## The tasks -/

/-- A data task that was resumed and whose block has not run. -/
structure DataTask where
  id : Nat
  provider : Provider
  isbn : String
  fullUrl : URL
  cancelled : Bool
  deriving DecidableEq

/-- `NetworkManager.shared`: the slot `task` of its property, and the tasks of
its sessions. -/
structure NetworkManager where
  task : Option Nat
  tasks : List DataTask
  nextId : Nat

def NetworkManager.shared : NetworkManager := { task := none, tasks := [], nextId := 0 }

/-- `task?.cancel()`. -/
def NetworkManager.cancelTask (m : NetworkManager) : NetworkManager :=
  { m with tasks := m.tasks.map fun t =>
      if m.task = some t.id then { t with cancelled := true } else t }

/-- The start of each of the three functions. The new task is bound by
`let task = ...`, which hides the property, so the slot keeps its value. -/
def NetworkManager.start (m : NetworkManager) (provider : Provider) (fullUrl : URL)
    (isbn : String) : NetworkManager :=
  let m := m.cancelTask
  { m with
    tasks := m.tasks ++ [{ id := m.nextId, provider, isbn, fullUrl, cancelled := false }]
    nextId := m.nextId + 1 }

/-- A task completes and leaves the sessions. A cancelled one completes with
an error and no data. -/
def NetworkManager.finish (m : NetworkManager) (id : Nat) (completion : Completion Data) :
    Option (DataTask × NetworkManager) :=
  match m.tasks.find? (·.id = id) with
  | none => none
  | some t =>
    if t.cancelled ∧ ¬ (completion.error.isSome ∧ completion.data.isNone) then none
    else some (t, { m with tasks := m.tasks.filter (·.id ≠ id) })

theorem ids_start (m : NetworkManager) (provider : Provider) (fullUrl : URL) (isbn : String) :
    (m.start provider fullUrl isbn).tasks.map (·.id) = m.tasks.map (·.id) ++ [m.nextId] := by
  unfold NetworkManager.start NetworkManager.cancelTask
  dsimp only
  rw [List.map_append, List.map_map]
  congr 1
  apply List.map_congr_left
  intro t _
  simp only [Function.comp_apply]
  split
  · rfl
  · rfl

theorem finish_eq_some {m m' : NetworkManager} {t : DataTask} {id : Nat}
    {completion : Completion Data} (h : m.finish id completion = some (t, m')) :
    t ∈ m.tasks ∧ t.id = id ∧ m' = { m with tasks := m.tasks.filter (·.id ≠ id) } := by
  unfold NetworkManager.finish at h
  split at h
  · cases h
  · rename_i t' hfind
    split at h
    · cases h
    · cases h
      exact ⟨List.mem_of_find?_eq_some hfind, by simpa using List.find?_some hfind, rfl⟩

/-! ## What the guards and the loop read -/

theorem googleGuards_eq_some_iff (P : Platform Data) (completion : Completion Data)
    (read : GoogleRead) :
    googleGuards P completion = some read ↔
      ∃ data responseJson info, completion.okData = some data ∧
        P.bookResponse data = some responseJson ∧ firstVolumeInfo responseJson = some info ∧
        info.title = some read.title ∧ info.authors.bind (·.head?) = some read.author ∧
        info.publisher = some read.editor ∧ info.industryIdentifiers = some read.tempsId ∧
        read.tempsId ≠ [] ∧
        read.coverTemp = (info.imageLinks.bind (·.thumbnail)).getD "" := by
  simp only [googleGuards, Option.bind_eq_bind, Option.bind_eq_some_iff, List.length_pos_iff]
  constructor
  · rintro ⟨data, hd, json, hj, title, ⟨info, hi, ht⟩, author, ⟨authors, ⟨i1, hi1, ha⟩, hh⟩,
      editor, ⟨i2, hi2, he⟩, ids, ⟨i3, hi3, hids⟩, h⟩
    rw [hi] at hi1 hi2 hi3 h
    cases hi1; cases hi2; cases hi3
    split at h
    · rename_i hne
      cases h
      exact ⟨data, json, info, hd, hj, hi, ht, ⟨authors, ha, hh⟩, he, hids, hne, rfl⟩
    · cases h
  · rintro ⟨data, json, info, hd, hj, hi, ht, ⟨authors, ha, hh⟩, he, hids, hne, hc⟩
    refine ⟨data, hd, json, hj, _, ⟨info, hi, ht⟩, _, ⟨authors, ⟨info, hi, ha⟩, hh⟩,
      _, ⟨info, hi, he⟩, _, ⟨info, hi, hids⟩, ?_⟩
    rw [if_pos hne, hi]
    cases read
    simp only at hc
    rw [hc]
    rfl

theorem openLibraryGuards_eq_some_iff (P : Platform Data) (isbn : String)
    (completion : Completion Data) (read : OpenLibraryRead) :
    openLibraryGuards P isbn completion = some read ↔
      ∃ data responseJson entry tempIsbn, completion.okData = some data ∧
        P.openLibraryResponse data = some responseJson ∧
        getKey ("ISBN:" ++ isbn) responseJson = some entry ∧ entry.title = some read.title ∧
        (entry.authors.bind (·.head?)).bind (·.name) = some read.author ∧
        (entry.publishers.bind (·.head?)).bind (·.name) = some read.editor ∧
        entry.identifiers.bind (getKey "isbn_13") = some tempIsbn ∧
        tempIsbn.head? = some read.firstItem ∧
        read.coverTemp = ((entry.cover.bind (·.medium)).or ((entry.cover.bind (·.small)).or
          (entry.cover.bind (·.large)))).getD "" := by
  unfold openLibraryGuards
  constructor
  · intro h
    obtain ⟨data, hd, h⟩ := Option.bind_eq_some_iff.mp h
    obtain ⟨json, hj, h⟩ := Option.bind_eq_some_iff.mp h
    obtain ⟨entry, he, h⟩ := Option.bind_eq_some_iff.mp h
    obtain ⟨title, ht, h⟩ := Option.bind_eq_some_iff.mp h
    obtain ⟨author, ha, h⟩ := Option.bind_eq_some_iff.mp h
    obtain ⟨editor, hp, h⟩ := Option.bind_eq_some_iff.mp h
    obtain ⟨tempIsbn, hi, h⟩ := Option.bind_eq_some_iff.mp h
    obtain ⟨firstItem, hf, h⟩ := Option.bind_eq_some_iff.mp h
    cases h
    exact ⟨data, json, entry, tempIsbn, hd, hj, he, ht, ha, hp, hi, hf, rfl⟩
  · rintro ⟨data, json, entry, tempIsbn, hd, hj, he, ht, ha, hp, hi, hf, hc⟩
    simp only [hd, hj, he, ht, ha, hp, hi, hf, Option.bind_eq_bind, Option.bind_some]
    cases read
    simp only at hc
    rw [hc]
    rfl

theorem identifierLoop_eq_none_iff (items : List IndustryIdentifier) (isbnEmpty : String) :
    identifierLoop items isbnEmpty = none ↔ ∃ item ∈ items, item.identifier = none := by
  induction items generalizing isbnEmpty with
  | nil => simp [identifierLoop]
  | cons item rest ih =>
    cases hi : item.identifier with
    | none => simp [identifierLoop, hi]
    | some isbnFromFile => simp [identifierLoop, hi, ih]

/-! ## Every lookup answers once, but for one -/

/-- One answer: a book, or a failure with none. -/
def AnswersOnce (answers : List Answer) : Prop :=
  answers = [failed] ∨ ∃ book, answers = [found book]

/-- A response with status 200 whose first item has a title, an author and a
publisher, and lists an identifier with no value. -/
def MissingIdentifier (P : Platform Data) (completion : Completion Data) : Prop :=
  ∃ data responseJson info items, completion.okData = some data ∧
    P.bookResponse data = some responseJson ∧ firstVolumeInfo responseJson = some info ∧
    info.title.isSome ∧ (info.authors.bind (·.head?)).isSome ∧ info.publisher.isSome ∧
    info.industryIdentifiers = some items ∧ ∃ item ∈ items, item.identifier = none

theorem missingIdentifier_iff (P : Platform Data) (completion : Completion Data) :
    MissingIdentifier P completion ↔
      ∃ read, googleGuards P completion = some read ∧
        ∃ item ∈ read.tempsId, item.identifier = none := by
  simp only [googleGuards_eq_some_iff, MissingIdentifier, Option.isSome_iff_exists]
  constructor
  · rintro ⟨data, json, info, items, hd, hj, hi, ⟨title, ht⟩, ⟨author, ha⟩, ⟨editor, he⟩,
      hids, item, hm, hn⟩
    exact ⟨{ title, author, editor, tempsId := items, coverTemp := _ },
      ⟨data, json, info, hd, hj, hi, ht, ha, he, hids, List.ne_nil_of_mem hm, rfl⟩,
      item, hm, hn⟩
  · rintro ⟨read, ⟨data, json, info, hd, hj, hi, ht, ha, he, hids, _, _⟩, item, hm, hn⟩
    exact ⟨data, json, info, read.tempsId, hd, hj, hi, ⟨_, ht⟩, ⟨_, ha⟩, ⟨_, he⟩, hids,
      item, hm, hn⟩

instance decidableMissingIdentifier (P : Platform Data) (completion : Completion Data) :
    Decidable (MissingIdentifier P completion) :=
  match h : googleGuards P completion with
  | none => isFalse (by rw [missingIdentifier_iff, h]; simp)
  | some read =>
    decidable_of_iff (∃ item ∈ read.tempsId, item.identifier = none)
      (by rw [missingIdentifier_iff, h]; simp)

theorem getBookInfo_answers (P : Platform Data) (isbn : String) (completion : Completion Data) :
    (getBookInfo P isbn completion = [] ∧ MissingIdentifier P completion) ∨
      (AnswersOnce (getBookInfo P isbn completion) ∧ ¬ MissingIdentifier P completion) := by
  unfold getBookInfo
  rw [missingIdentifier_iff]
  cases hg : googleGuards P completion with
  | none => exact Or.inr ⟨Or.inl rfl, by simp⟩
  | some read =>
    have hnone := identifierLoop_eq_none_iff read.tempsId ""
    dsimp only
    cases hl : identifierLoop read.tempsId "" with
    | none => exact Or.inl ⟨rfl, read, rfl, hnone.mp hl⟩
    | some isbnEmpty =>
      have hmiss : ¬ ∃ item ∈ read.tempsId, item.identifier = none := by
        rw [← hnone, hl]
        simp
      refine Or.inr ⟨?_, ?_⟩
      · dsimp only
        split
        · exact Or.inl rfl
        · exact Or.inr ⟨_, rfl⟩
      · rintro ⟨read', hread, h⟩
        cases hread
        exact hmiss h

theorem getBookInfoOpenLibrary_answers (P : Platform Data) (isbn : String)
    (completion : Completion Data) : AnswersOnce (getBookInfoOpenLibrary P isbn completion) := by
  unfold getBookInfoOpenLibrary
  split
  · exact Or.inl rfl
  · exact Or.inr ⟨_, rfl⟩

theorem getBookInfoGoodReads_answers (P : Platform Data) (isbn : String)
    (completion : Completion Data) : AnswersOnce (getBookInfoGoodReads P isbn completion) := by
  unfold getBookInfoGoodReads
  split
  · exact Or.inl rfl
  · split
    · exact Or.inr ⟨_, rfl⟩
    · exact Or.inl rfl

/-- A lookup gives one answer or, only at a missing identifier, none. -/
theorem complete_answers (P : Platform Data) (provider : Provider) (isbn : String)
    (completion : Completion Data) :
    (provider.complete P isbn completion = [] ∧
        provider = .googleBooks ∧ MissingIdentifier P completion) ∨
      (AnswersOnce (provider.complete P isbn completion) ∧
        ¬ (provider = .googleBooks ∧ MissingIdentifier P completion)) := by
  cases provider with
  | googleBooks =>
    rcases getBookInfo_answers P isbn completion with ⟨h, hm⟩ | ⟨h, hm⟩
    · exact Or.inl ⟨h, rfl, hm⟩
    · exact Or.inr ⟨h, fun hc => hm hc.2⟩
  | openLibrary =>
    exact Or.inr ⟨getBookInfoOpenLibrary_answers P isbn completion, fun hc => by cases hc.1⟩
  | goodReads =>
    exact Or.inr ⟨getBookInfoGoodReads_answers P isbn completion, fun hc => by cases hc.1⟩

/-- An answer shows that no identifier was missing. -/
theorem not_missing_of_answers {P : Platform Data} {provider : Provider} {isbn : String}
    {completion : Completion Data} (h : provider.complete P isbn completion ≠ []) :
    ¬ (provider = .googleBooks ∧ MissingIdentifier P completion) := by
  rcases complete_answers P provider isbn completion with ⟨hans, _⟩ | ⟨_, hmiss⟩
  · exact absurd hans h
  · exact hmiss

/-- A lookup answers exactly once, but for a Google response whose first item
passes the guards and lists an identifier with no value: then it never
answers. -/
theorem a_lookup_answers_once_iff_no_identifier_is_missing (P : Platform Data)
    (provider : Provider) (isbn : String) (completion : Completion Data) :
    AnswersOnce (provider.complete P isbn completion) ↔
      ¬ (provider = .googleBooks ∧ MissingIdentifier P completion) := by
  rcases complete_answers P provider isbn completion with ⟨hans, hmiss⟩ | ⟨hans, hmiss⟩
  · refine ⟨fun ha => ?_, fun hn => absurd hmiss hn⟩
    rw [hans] at ha
    simp [AnswersOnce] at ha
  · exact ⟨fun _ => hmiss, fun _ => hans⟩

/-! ## A delivered book is the one asked for, but for one provider -/

/-- Every book of the answers has the ISBN. -/
def DeliversAsked (isbn : String) (answers : List Answer) : Prop :=
  ∀ book, found book ∈ answers → book.bookIsbn = isbn

theorem getBookInfo_delivers_asked (P : Platform Data) (isbn : String)
    (completion : Completion Data) : DeliversAsked isbn (getBookInfo P isbn completion) := by
  unfold getBookInfo DeliversAsked
  intro book hb
  split at hb
  · simp [failed, found] at hb
  · split at hb
    · simp at hb
    · split at hb
      · simp [failed, found] at hb
      · rename_i isbnEmpty _ hne
        simp only [found, List.mem_singleton, Prod.mk.injEq, Option.some.injEq, true_and] at hb
        rw [hb]
        exact (not_not.mp hne).symm

theorem getBookInfoGoodReads_delivers_asked (P : Platform Data) (isbn : String)
    (completion : Completion Data) :
    DeliversAsked isbn (getBookInfoGoodReads P isbn completion) := by
  unfold getBookInfoGoodReads DeliversAsked
  intro book hb
  split at hb
  · simp [failed, found] at hb
  · split at hb
    · simp only [found, List.mem_singleton, Prod.mk.injEq, Option.some.injEq, true_and] at hb
      rw [hb]
      rfl
    · simp [failed, found] at hb

/-- An OpenLibrary response with status 200 whose entry for the ISBN passes
every guard, with the ISBN-13 that its list has first. -/
def FirstIsbn13 (P : Platform Data) (isbn : String) (completion : Completion Data)
    (firstItem : String) : Prop :=
  ∃ data responseJson entry tempIsbn, completion.okData = some data ∧
    P.openLibraryResponse data = some responseJson ∧
    getKey ("ISBN:" ++ isbn) responseJson = some entry ∧ entry.title.isSome ∧
    ((entry.authors.bind (·.head?)).bind (·.name)).isSome ∧
    ((entry.publishers.bind (·.head?)).bind (·.name)).isSome ∧
    entry.identifiers.bind (getKey "isbn_13") = some tempIsbn ∧ tempIsbn.head? = some firstItem

theorem firstIsbn13_iff (P : Platform Data) (isbn : String) (completion : Completion Data)
    (firstItem : String) :
    FirstIsbn13 P isbn completion firstItem ↔
      ∃ read, openLibraryGuards P isbn completion = some read ∧ read.firstItem = firstItem := by
  simp only [openLibraryGuards_eq_some_iff, FirstIsbn13, Option.isSome_iff_exists]
  constructor
  · rintro ⟨data, json, entry, ids, hd, hj, he, ⟨title, ht⟩, ⟨author, ha⟩, ⟨editor, hp⟩, hi, hf⟩
    exact ⟨{ title, author, editor, firstItem, coverTemp := _ },
      ⟨data, json, entry, ids, hd, hj, he, ht, ha, hp, hi, hf, rfl⟩, rfl⟩
  · rintro ⟨read, ⟨data, json, entry, ids, hd, hj, he, ht, ha, hp, hi, hf, _⟩, rfl⟩
    exact ⟨data, json, entry, ids, hd, hj, he, ⟨_, ht⟩, ⟨_, ha⟩, ⟨_, hp⟩, hi, hf⟩

theorem getBookInfoOpenLibrary_delivers_asked_iff (P : Platform Data) (isbn : String)
    (completion : Completion Data) :
    DeliversAsked isbn (getBookInfoOpenLibrary P isbn completion) ↔
      ∀ firstItem, FirstIsbn13 P isbn completion firstItem → firstItem = isbn := by
  unfold getBookInfoOpenLibrary DeliversAsked
  simp only [firstIsbn13_iff]
  cases hg : openLibraryGuards P isbn completion with
  | none => simp [failed, found]
  | some read => simp [found, Book.new]

/-- A delivered book is the book asked for, but for OpenLibrary: it hands on
the first ISBN-13 of the entry, which `getBookInfo` would compare. -/
theorem a_delivered_book_is_the_one_asked_for_iff (P : Platform Data) (provider : Provider)
    (isbn : String) (completion : Completion Data) :
    DeliversAsked isbn (provider.complete P isbn completion) ↔
      (provider = .openLibrary →
        ∀ firstItem, FirstIsbn13 P isbn completion firstItem → firstItem = isbn) := by
  cases provider with
  | googleBooks => simp [Provider.complete, getBookInfo_delivers_asked]
  | openLibrary => simp [Provider.complete, getBookInfoOpenLibrary_delivers_asked_iff]
  | goodReads => simp [Provider.complete, getBookInfoGoodReads_delivers_asked]

/-! ## Two responses that break the contract -/

/-- Data as the decoders read it, for runs on given responses. -/
structure DecodedData where
  google : Option BookResponse := none
  openLibrary : Option (List (String × BookOpenLibraryResponse)) := none
  xml : List (List String × String) := []

/-- `URL(string:)` refuses a text with a space. -/
def decodedPlatform : Platform DecodedData where
  isURL text := !text.toList.contains ' '
  valueForAPIKey _ := "k1"
  bookResponse data := data.google
  openLibraryResponse data := data.openLibrary
  xmlText data path := getKey path data.xml

def ok200 (data : DecodedData) : Completion DecodedData :=
  { data := some data, response := some (.http 200), error := none }

def offline : Completion DecodedData :=
  { data := none, response := none, error := some "offline" }

/-- A complete Google item, but for one identifier with no value. -/
def itemWithMissingIdentifier : DecodedData where
  google := some { items := some [{ volumeInfo := some {
    title := some "first title"
    authors := some ["author"]
    publisher := some "editor"
    industryIdentifiers := some [{ identifier := some "9782070411" }, { identifier := none }]
    imageLinks := none } }] }

theorem a_missing_identifier_leaves_the_search_unanswered :
    ¬ AnswersOnce (Provider.googleBooks.complete decodedPlatform "9782070411429"
      (ok200 itemWithMissingIdentifier)) := by
  have h : Provider.googleBooks.complete decodedPlatform "9782070411429"
      (ok200 itemWithMissingIdentifier) = [] := by rfl
  rw [h]
  simp [AnswersOnce]

/-- An OpenLibrary entry whose first ISBN-13 is another edition. -/
def entryOfOtherEdition : DecodedData where
  openLibrary := some [("ISBN:9782070411429", {
    publishers := some [{ name := some "editor" }]
    identifiers := some [("isbn_13", ["9782253003656", "9782070411429"])]
    title := some "first title"
    cover := none
    authors := some [{ name := some "author" }] })]

theorem openLibrary_delivers_another_edition :
    ¬ DeliversAsked "9782070411429" (Provider.openLibrary.complete decodedPlatform
      "9782070411429" (ok200 entryOfOtherEdition)) := by
  have h : Provider.openLibrary.complete decodedPlatform "9782070411429"
      (ok200 entryOfOtherEdition) = [found { Book.new "first title" "author" "9782253003656" with
        bookEditor := some "editor" }] := by rfl
  rw [h]
  intro hall
  have hisbn := hall _ List.mem_cons_self
  simp [Book.new] at hisbn

end xellissime_book.lookup
