-- The laws of the saved metadata. A record takes its editor and its cover from
-- `bookToSave`, which a lookup filled, and its ISBN from the field, which the
-- user can edit in between.
import XellissimeBook.AddMenu

open runs
open xellissime_book.book_record xellissime_book.lookup

namespace xellissime_book.add_menu

variable {Data : Type}

/-! ## What a record has to come from -/

/-- An editor other than nil and `unknown`, or a cover URL. -/
def CarriesData (book : Book) : Prop :=
  (book.bookEditor ≠ none ∧ book.bookEditor ≠ some "unknown") ∨ book.bookCoverURL ≠ ""

instance decidableCarriesData (book : Book) : Decidable (CarriesData book) :=
  inferInstanceAs (Decidable (_ ∨ _))

/-- A record with data is written after a lookup for its own ISBN delivered
the same editor and the same cover. -/
def CameFromLookup (before : List Effect) : Effect → Prop
  | .saveBook record => CarriesData record →
      ∃ book, .delivered record.bookIsbn book ∈ before ∧
        book.bookEditor = record.bookEditor ∧ book.bookCoverURL = record.bookCoverURL
  | _ => True

/-- Every record of the log came from a lookup for its ISBN. -/
def Provenance (log : List Effect) : Prop := EachAfter CameFromLookup log

def deliveredOf : Effect → Option (String × Book)
  | .delivered isbn book => some (isbn, book)
  | _ => none

/-- The last book that a lookup delivered, with the ISBN that it was asked for. -/
def lastDelivery (log : List Effect) : Option (String × Book) := lastSome deliveredOf log

/-- At a save that writes, the book of the last lookup still goes with the
ISBN of the field, or there is no data to take from it. -/
def StillTheIsbn (f : AddMenu) : Event Data → Prop
  | .save uid => ∀ userId ∈ uid, f.CanSave userId → ∀ book ∈ f.bookToSave, CarriesData book →
      (lastDelivery f.log).map Prod.fst = some f.isbnFromTextField
  | _ => True

instance decidableStillTheIsbn (f : AddMenu) :
    ∀ event : Event Data, Decidable (StillTheIsbn f event)
  | .save _ => by unfold StillTheIsbn; infer_instance
  | .viewDidLoad | .viewWillAppear | .editTitle _ | .editAuthor _ | .editIsbn _ | .scan _
  | .addManually | .search | .response _ _ | .cancelDialog => isTrue trivial

/-! ## The invariant -/

/-- The data in `bookToSave` is what the last lookup delivered. -/
structure FromLookups (log : List Effect) (bookToSave : Option Book) : Prop where
  provenance : Provenance log
  last : ∀ book ∈ bookToSave, CarriesData book →
    ∃ isbn, lastDelivery log = some (isbn, book)

/-- An effect that neither delivers nor saves changes nothing here. -/
theorem FromLookups.snoc {log : List Effect} {bookToSave : Option Book} {effect : Effect}
    (h : FromLookups log bookToSave) (hd : deliveredOf effect = none)
    (hs : CameFromLookup log effect) : FromLookups (log ++ [effect]) bookToSave := by
  refine ⟨eachAfter_snoc.mpr ⟨h.provenance, hs⟩, ?_⟩
  intro book hb hc
  obtain ⟨isbn, hlast⟩ := h.last book hb hc
  refine ⟨isbn, ?_⟩
  unfold lastDelivery at hlast ⊢
  rw [lastSome_snoc_none hd]
  exact hlast

theorem FromLookups.delivered {log : List Effect} {bookToSave : Option Book}
    (h : FromLookups log bookToSave) (isbn : String) (book : Book) :
    FromLookups (log ++ [.delivered isbn book]) (some book) := by
  refine ⟨eachAfter_snoc.mpr ⟨h.provenance, trivial⟩, ?_⟩
  intro book' hb _
  cases hb
  exact ⟨isbn, lastSome_snoc_some rfl⟩

/-- The book that a call starts with carries no data. -/
theorem FromLookups.emptyBook {log : List Effect} {bookToSave : Option Book}
    (h : FromLookups log bookToSave) : FromLookups log (some (Book.new "" "" "")) := by
  refine ⟨h.provenance, ?_⟩
  intro book hb hc
  cases hb
  exact absurd hc (by decide)

/-- A record carries data only when `bookToSave` does, and then the same. -/
theorem carriesData_bookOfFields {userId title author isbn : String} {bookToSave : Option Book}
    (h : CarriesData (bookOfFields userId title author isbn bookToSave)) :
    ∃ book ∈ bookToSave, CarriesData book ∧
      (bookOfFields userId title author isbn bookToSave).bookEditor = book.bookEditor ∧
      (bookOfFields userId title author isbn bookToSave).bookCoverURL = book.bookCoverURL := by
  cases bookToSave with
  | none => simp [CarriesData, bookOfFields] at h
  | some book =>
    have hc : (bookOfFields userId title author isbn (some book)).bookCoverURL =
        book.bookCoverURL := by
      simp [bookOfFields]
    refine ⟨book, rfl, ?_, rfl, hc⟩
    unfold CarriesData at h ⊢
    rw [hc] at h
    exact h

/-! ## One step -/

theorem fromLookups_providerCall (P : Platform Data) (provider : Provider) {f : AddMenu}
    (h : FromLookups f.log f.bookToSave) :
    FromLookups (f.providerCall P provider).log (f.providerCall P provider).bookToSave := by
  cases hu : provider.fullUrl P f.isbnFromTextField with
  | none =>
    rw [providerCall_of_no_url hu]
    exact h.emptyBook.snoc rfl trivial
  | some fullUrl =>
    rw [providerCall_of_url hu]
    exact h.emptyBook.snoc rfl trivial

theorem fromLookups_response {P : Platform Data} {f f' : AddMenu} {id : Nat}
    {completion : Completion Data} (hf : FromLookups f.log f.bookToSave)
    (h : step P f (.response id completion) = some f') : FromLookups f'.log f'.bookToSave := by
  obtain ⟨t, network, _, hcases⟩ := response_cases h
  rcases hcases with ⟨_, _, _, rfl⟩ | ⟨book, _, _, rfl⟩ | ⟨_, _, rfl⟩ | ⟨provider, _, _, rfl⟩
  · exact hf
  · exact hf.delivered t.isbn book
  · exact hf.snoc rfl trivial
  · exact fromLookups_providerCall P provider (f := { f with network }) hf

theorem fromLookups_save {P : Platform Data} {f f' : AddMenu} {uid : Option String}
    (hf : FromLookups f.log f.bookToSave) (hw : StillTheIsbn f (.save uid : Event Data))
    (h : step P f (.save uid) = some f') : FromLookups f'.log f'.bookToSave := by
  rcases save_cases h with ⟨_, rfl | rfl | ⟨_, _, rfl⟩⟩ | ⟨userId, hu, hcan, rfl⟩
  · exact hf.snoc rfl trivial
  · exact hf
  · exact hf.snoc rfl trivial
  · have hstore : FromLookups (f.log ++ [.storeCoverImage (bookOfFields userId f.titleTextField
        f.authorTextField f.isbnTextField f.bookToSave)]) f.bookToSave := hf.snoc rfl trivial
    apply hstore.snoc rfl
    intro hc
    obtain ⟨book, hb, hcb, he, hcover⟩ := carriesData_bookOfFields hc
    obtain ⟨isbn, hlast⟩ := hf.last book hb hcb
    have hisbn := hw userId hu hcan book hb hcb
    rw [hlast] at hisbn
    cases hisbn
    refine ⟨book, ?_, he.symm, hcover.symm⟩
    obtain ⟨effect, hmem, hd⟩ := List.mem_filterMap.mp (List.mem_of_getLast? hlast)
    cases effect <;> cases hd
    exact List.mem_append_left _ hmem

theorem fromLookups_step (P : Platform Data) (f : AddMenu) (event : Event Data) (f' : AddMenu)
    (hf : FromLookups f.log f.bookToSave) (hw : StillTheIsbn f event)
    (h : step P f event = some f') : FromLookups f'.log f'.bookToSave := by
  rcases step_cases h with ⟨rfl, rfl⟩ | ⟨id, completion, rfl⟩ | ⟨uid, rfl⟩ | hfields
  · have hdisabled : FromLookups (f.toggleIndicator false).log
        (f.toggleIndicator false).bookToSave := hf
    exact fromLookups_providerCall P .googleBooks hdisabled
  · exact fromLookups_response hf h
  · exact fromLookups_save hf hw h
  · rw [hfields.log, hfields.bookToSave]
    exact hf

/-! ## The laws -/

/-- In every run that saves only while the ISBN of the field is still the one
of the last lookup, every record has its data from a lookup for its ISBN. -/
theorem saved_metadata_comes_from_a_lookup_for_the_saved_isbn (P : Platform Data)
    (scannedIsbn : String) (es : List (Event Data)) (f : AddMenu)
    (hm : Meets (step P) (fun _ => StillTheIsbn) [] (.initial scannedIsbn) es)
    (hr : run (step P) (.initial scannedIsbn) es = some f) : Provenance f.log := by
  have h0 : FromLookups (AddMenu.initial scannedIsbn).log
      (AddMenu.initial scannedIsbn).bookToSave :=
    ⟨eachAfter_nil _, fun book hb => by cases hb⟩
  have hf := state_invariant_of_run (fun f => FromLookups f.log f.bookToSave)
    (fromLookups_step P) h0 hm hr
  exact hf.provenance

/-- A Google response for the ISBN, with a publisher and a cover. -/
def novel (isbn : String) : DecodedData where
  google := some { items := some [{ volumeInfo := some {
    title := some "first title"
    authors := some ["author"]
    publisher := some "editor"
    industryIdentifiers := some [{ identifier := some isbn }]
    imageLinks := some { thumbnail := some "cover.png" } } }] }

/-- A search that finds the book, and a save of it. -/
def searchAndSave : List (Event DecodedData) :=
  [.viewDidLoad, .editIsbn "9782070411429", .search,
    .response 0 (ok200 (novel "9782070411429")), .save (some "uid1")]

theorem saved_metadata_comes_from_the_lookup_of_a_search :
    ∃ f, run (step decodedPlatform) (.initial "") searchAndSave = some f ∧ Provenance f.log := by
  have hrun : (run (step decodedPlatform) (.initial "") searchAndSave).isSome = true := by
    decide +kernel
  obtain ⟨f, hf⟩ := Option.isSome_iff_exists.mp hrun
  exact ⟨f, hf, saved_metadata_comes_from_a_lookup_for_the_saved_isbn decodedPlatform ""
    searchAndSave f (by decide +kernel) hf⟩

/-- The condition is no stronger than it has to be: a save of data with an
ISBN that no lookup delivered for writes a record that came from nowhere. -/
theorem a_save_for_another_isbn_breaks_provenance {P : Platform Data} {f f' : AddMenu}
    {userId : String} {book : Book} (h : step P f (.save (some userId)) = some f')
    (hcan : f.CanSave userId) (hb : f.bookToSave = some book) (hc : CarriesData book)
    (hnone : ∀ book', .delivered f.isbnFromTextField book' ∉ f.log) : ¬ Provenance f'.log := by
  intro hp
  rcases save_cases h with ⟨hcannot, _⟩ | ⟨_, hu, _, rfl⟩
  · exact hcannot userId rfl hcan
  · cases hu
    obtain ⟨_, hcame⟩ := eachAfter_snoc.mp hp
    have hrecord : CarriesData (bookOfFields userId f.titleTextField f.authorTextField
        f.isbnTextField f.bookToSave) := by
      simpa [CarriesData, bookOfFields, hb] using hc
    obtain ⟨book', hmem, _⟩ := hcame hrecord
    rcases List.mem_append.mp hmem with hlog | hstore
    · exact hnone book' hlog
    · simp at hstore

/-- A lookup, an edit of the ISBN, and a save. -/
theorem an_edited_isbn_takes_the_data_of_another_book :
    ∃ f, run (step decodedPlatform) (.initial "")
      [.viewDidLoad, .editIsbn "9782070411429", .search,
        .response 0 (ok200 (novel "9782070411429")), .editIsbn "9782253003656",
        .save (some "uid1")] = some f ∧ ¬ Provenance f.log := by
  have hrun : (run (step decodedPlatform) (.initial "")
      [.viewDidLoad, .editIsbn "9782070411429", .search,
        .response 0 (ok200 (novel "9782070411429")), .editIsbn "9782253003656",
        .save (some "uid1")]).map (fun f => (f.log.filterMap deliveredOf, f.log.getLast?)) =
      some ([("9782070411429", { Book.new "first title" "author" "9782070411429" with
          bookCoverURL := "cover.png", bookEditor := some "editor" })],
        some (.saveBook { Book.new "first title" "author" "9782253003656" with
          bookId := "uid19782253003656", bookOwner := "uid1"
          bookCoverURL := "cover.png", bookEditor := some "editor" })) := by
    decide +kernel
  obtain ⟨f, hf, hpair⟩ := Option.map_eq_some_iff.mp hrun
  obtain ⟨hdelivered, hlast⟩ := Prod.mk.inj hpair
  refine ⟨f, hf, fun hp => ?_⟩
  obtain ⟨before, hlog⟩ := List.getLast?_eq_some_iff.mp hlast
  obtain ⟨book, hmem, _⟩ := hp before _ [] hlog (by decide)
  have hread : ("9782253003656", book) ∈ f.log.filterMap deliveredOf := by
    rw [hlog]
    exact List.mem_filterMap.mpr ⟨_, List.mem_append_left _ hmem, rfl⟩
  rw [hdelivered] at hread
  simp at hread

end xellissime_book.add_menu
