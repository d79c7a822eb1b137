-- The cell of the list (View/BookListTableViewCell.swift). The table reuses a
-- cell for other rows while the downloads of its earlier rows are under way,
-- and a download sets the cover whatever the cell stands for by then.
import XellissimeBook.Covers
import XellissimeBook.Runs

open runs
open xellissime_book.book_record xellissime_book.covers

namespace xellissime_book.book_cell

variable {Data Image : Type}

/-! ## The cell -/

/-- The arguments of `configure`. -/
structure Configuration where
  isbn : String
  title : String
  author : String
  editor : String

/-- `tableView(_:cellForRowAt:)`: what it configures the cell with. `none` past
the last row, where the source traps. -/
def cellForRowAt (collectionBooks : List Book) (row : Nat) : Option Configuration :=
  collectionBooks[row]?.map fun book =>
    { isbn := book.bookIsbn
      title := book.bookTitle
      author := book.bookAuthor
      editor := book.bookEditor.getD "unknown" }

/-- `BookListTableViewCell`. An image stands with the ISBN of the download that
it came from, and the placeholder of the storyboard is `none`. -/
structure BookListTableViewCell (Image : Type) where
  coverImage : Option (String × Image)
  bookTitleLabel : Option String
  bookAuthorLabel : Option String
  bookEditorLabel : Option String

/-- A cover that `configure` asks for. -/
structure CoverRequest where
  isbn : String
  storageRef : String

def Configuration.coverRequest (I : Images Data Image) (c : Configuration) : CoverRequest :=
  { isbn := c.isbn, storageRef := coverReference I c.isbn }

/-- The cell with its latest configuration, its blocks on the main queue and its
downloads, each with its id. -/
structure CellState (Image : Type) where
  cell : BookListTableViewCell Image
  configured : Option Configuration
  mainQueue : List CoverRequest
  downloads : List (Nat × CoverRequest)
  nextId : Nat

/-- The cell as the storyboard makes it. -/
def CellState.initial : CellState Image where
  cell :=
    { coverImage := none, bookTitleLabel := none, bookAuthorLabel := none
      bookEditorLabel := none }
  configured := none
  mainQueue := []
  downloads := []
  nextId := 0

/-- The cover that an outstanding download is for. -/
def CellState.download (s : CellState Image) (id : Nat) : Option CoverRequest :=
  (s.downloads.find? fun d => d.1 = id).map Prod.snd

/-- `configure`: the labels are set at once, and a block of the main queue starts
the download. The cover stays as it is. -/
def CellState.configure (I : Images Data Image) (s : CellState Image) (c : Configuration) :
    CellState Image :=
  { s with
    cell :=
      { s.cell with
        bookTitleLabel := some c.title
        bookAuthorLabel := some c.author
        bookEditorLabel := some c.editor }
    configured := some c
    mainQueue := s.mainQueue ++ [c.coverRequest I] }

/-- The block of a download: without data it returns. -/
def BookListTableViewCell.completion (I : Images Data Image) (cell : BookListTableViewCell Image)
    (isbn : String) : Option Data → BookListTableViewCell Image
  | none => cell
  | some data => { cell with coverImage := (I.image data).map fun image => (isbn, image) }

inductive CellEvent (Data : Type) where
  | configure (c : Configuration)
  /-- The oldest block of the main queue runs. -/
  | mainAsync
  /-- A download ends with its data and its error. The error is printed only. -/
  | completion (id : Nat) (data : Option Data) (error : Option String)

def CellState.step (I : Images Data Image) (s : CellState Image) :
    CellEvent Data → Option (CellState Image)
  | .configure c => some (s.configure I c)
  | .mainAsync =>
    match s.mainQueue with
    | [] => none
    | request :: mainQueue =>
      some
        { s with
          mainQueue
          downloads := s.downloads ++ [(s.nextId, request)]
          nextId := s.nextId + 1 }
  | .completion id data _ =>
    (s.download id).map fun request =>
      { s with
        cell := s.cell.completion I request.isbn data
        downloads := s.downloads.filter fun d => d.1 ≠ id }

/-- The oldest block starts its download and leaves the cell alone. -/
theorem mainAsync_keeps {I : Images Data Image} {s s' : CellState Image}
    (h : s.step I .mainAsync = some s') : s'.cell = s.cell ∧ s'.configured = s.configured := by
  unfold CellState.step at h
  dsimp only at h
  split at h
  · cases h
  · cases h
    exact ⟨rfl, rfl⟩

/-! ## The labels -/

/-- The labels are those of the latest configuration. -/
def LabelsConfigured (s : CellState Image) : Prop :=
  s.cell.bookTitleLabel = s.configured.map Configuration.title ∧
    s.cell.bookAuthorLabel = s.configured.map Configuration.author ∧
    s.cell.bookEditorLabel = s.configured.map Configuration.editor

/-- A download leaves the labels alone. -/
theorem labels_completion (I : Images Data Image) (cell : BookListTableViewCell Image)
    (isbn : String) (data : Option Data) :
    (cell.completion I isbn data).bookTitleLabel = cell.bookTitleLabel ∧
      (cell.completion I isbn data).bookAuthorLabel = cell.bookAuthorLabel ∧
      (cell.completion I isbn data).bookEditorLabel = cell.bookEditorLabel := by
  cases data with
  | none => exact ⟨rfl, rfl, rfl⟩
  | some data => exact ⟨rfl, rfl, rfl⟩

theorem labelsConfigured_step (I : Images Data Image) (s : CellState Image)
    (event : CellEvent Data) (s' : CellState Image) (hs : LabelsConfigured s)
    (h : s.step I event = some s') : LabelsConfigured s' := by
  cases event with
  | configure c =>
    cases h
    exact ⟨rfl, rfl, rfl⟩
  | mainAsync =>
    obtain ⟨hcell, hconfigured⟩ := mainAsync_keeps h
    unfold LabelsConfigured
    rw [hcell, hconfigured]
    exact hs
  | completion id data error =>
    obtain ⟨request, _, rfl⟩ := Option.map_eq_some_iff.mp h
    obtain ⟨htitle, hauthor, heditor⟩ := labels_completion I s.cell request.isbn data
    unfold LabelsConfigured
    rw [htitle, hauthor, heditor]
    exact hs

/-- The labels never lag behind, in any order of configurations and
downloads. -/
theorem the_labels_are_of_the_latest_row (I : Images Data Image) (es : List (CellEvent Data))
    (s : CellState Image) (hr : run (CellState.step I) .initial es = some s) :
    LabelsConfigured s :=
  always_of_run LabelsConfigured (labelsConfigured_step I) ⟨rfl, rfl, rfl⟩ hr

/-! ## The cover -/

/-- The cover is of the ISBN of the latest configuration, where there is one. -/
def ShowsItsCover (s : CellState Image) : Prop :=
  ∀ shown ∈ s.cell.coverImage, s.configured.map Configuration.isbn = some shown.1

/-- The step does not bring a cover and another row together: a row is
configured where no cover is shown or one of its own ISBN, and an image arrives
while its own ISBN is configured. -/
def KeepsTogether (I : Images Data Image) (s : CellState Image) : CellEvent Data → Prop
  | .configure c =>
    s.cell.coverImage.isNone ∨ s.configured.map Configuration.isbn = some c.isbn
  | .mainAsync => True
  | .completion id data _ =>
    (data.bind I.image).isNone ∨
      s.configured.map Configuration.isbn = (s.download id).map CoverRequest.isbn

instance decidableKeepsTogether (I : Images Data Image) (s : CellState Image) :
    ∀ event : CellEvent Data, Decidable (KeepsTogether I s event)
  | .configure _ => inferInstanceAs (Decidable (_ ∨ _))
  | .mainAsync => isTrue trivial
  | .completion _ _ _ => inferInstanceAs (Decidable (_ ∨ _))

theorem showsItsCover_configure_iff {I : Images Data Image} {s : CellState Image}
    (hs : ShowsItsCover s) (c : Configuration) :
    ShowsItsCover (s.configure I c) ↔
      s.cell.coverImage.isNone ∨ s.configured.map Configuration.isbn = some c.isbn := by
  unfold ShowsItsCover at hs ⊢
  dsimp only [CellState.configure]
  cases hcover : s.cell.coverImage with
  | none => simp
  | some shown =>
    have hown := hs shown hcover
    rw [hown]
    constructor
    · intro h
      refine Or.inr ?_
      exact (h shown rfl).symm
    · rintro (hnone | hsame) other hother
      · cases hnone
      · cases hother
        exact hsame.symm

/-- An image that arrives is shown, and without one the cover stays or goes. -/
theorem showsItsCover_completion_iff {I : Images Data Image} {s : CellState Image}
    (hs : ShowsItsCover s) (isbn : String) (data : Option Data)
    (downloads : List (Nat × CoverRequest)) :
    ShowsItsCover { s with cell := s.cell.completion I isbn data, downloads } ↔
      (data.bind I.image).isNone ∨ s.configured.map Configuration.isbn = some isbn := by
  unfold ShowsItsCover at hs ⊢
  cases data with
  | none => simpa [BookListTableViewCell.completion] using hs
  | some data =>
    simp only [BookListTableViewCell.completion, Option.bind_some]
    cases I.image data with
    | none => simp
    | some image => simp

theorem showsItsCover_step_iff (I : Images Data Image) (s : CellState Image)
    (event : CellEvent Data) (s' : CellState Image) (hs : ShowsItsCover s)
    (h : s.step I event = some s') : ShowsItsCover s' ↔ KeepsTogether I s event := by
  cases event with
  | configure c =>
    cases h
    exact showsItsCover_configure_iff hs c
  | mainAsync =>
    obtain ⟨hcell, hconfigured⟩ := mainAsync_keeps h
    refine iff_of_true ?_ trivial
    unfold ShowsItsCover
    rw [hcell, hconfigured]
    exact hs
  | completion id data error =>
    obtain ⟨request, hrequest, rfl⟩ := Option.map_eq_some_iff.mp h
    simp only [showsItsCover_completion_iff hs, KeepsTogether, hrequest, Option.map_some]

/-- The cell shows no cover of another ISBN all along a run exactly when each
row is configured where no cover is shown or one of its ISBN, and each image
arrives while its ISBN is configured. -/
theorem the_cell_shows_its_cover_iff (I : Images Data Image) (es : List (CellEvent Data))
    (s : CellState Image) (hr : run (CellState.step I) .initial es = some s) :
    Throughout (CellState.step I) ShowsItsCover .initial es ↔
      Meets (CellState.step I) (fun _ => KeepsTogether I) [] .initial es := by
  apply throughout_iff_meets (fun _ => True) ShowsItsCover (fun _ _ _ _ _ => trivial) ?_ trivial
    ?_ hr
  · intro s event s' _ hs h
    exact showsItsCover_step_iff I s event s' hs h
  · intro shown hshown
    cases hshown

def firstRow : Configuration :=
  { isbn := "9782070411429", title := "first title", author := "author", editor := "unknown" }

def secondRow : Configuration :=
  { isbn := "9782253003656", title := "second title", author := "author", editor := "unknown" }

/-- The first download fails, and the cell goes on to another row. -/
def reusedAfterAnError : List (CellEvent String) :=
  [.configure firstRow, .mainAsync, .completion 0 none (some "not found"), .configure secondRow,
    .mainAsync, .completion 1 (some "second cover") none, .configure secondRow]

theorem the_cell_shows_its_cover_after_an_error :
    Throughout (CellState.step plainImages) ShowsItsCover .initial reusedAfterAnError := by
  have hrun : (run (CellState.step plainImages) .initial reusedAfterAnError).isSome = true := by
    decide +kernel
  obtain ⟨s, hr⟩ := Option.isSome_iff_exists.mp hrun
  apply (the_cell_shows_its_cover_iff plainImages reusedAfterAnError s hr).mpr
  decide +kernel

/-- The cell shows the first cover and is configured for the second row, whose
download fails. -/
def reusedWithACover : List (CellEvent String) :=
  [.configure firstRow, .mainAsync, .completion 0 (some "first cover") none,
    .configure secondRow, .mainAsync, .completion 1 none (some "not found")]

/-- The download of the first row ends after the one of the second row. -/
def lateDownload : List (CellEvent String) :=
  [.configure firstRow, .mainAsync, .configure secondRow, .mainAsync,
    .completion 1 (some "second cover") none, .completion 0 (some "first cover") none]

/-- Both runs end with the labels of the second row and the cover of the
first. -/
theorem the_cell_keeps_the_cover_of_another_row :
    ((run (CellState.step plainImages) .initial reusedWithACover).map
          fun s => (s.cell.bookTitleLabel, s.cell.coverImage)) =
        some (some "second title", some ("9782070411429", "first cover")) ∧
      ((run (CellState.step plainImages) .initial lateDownload).map
          fun s => (s.cell.bookTitleLabel, s.cell.coverImage)) =
        some (some "second title", some ("9782070411429", "first cover")) ∧
      ¬ Throughout (CellState.step plainImages) ShowsItsCover .initial reusedWithACover ∧
      ¬ Throughout (CellState.step plainImages) ShowsItsCover .initial lateDownload := by
  refine ⟨rfl, rfl, ?_, ?_⟩
  · intro h
    have hown := h.last rfl ("9782070411429", "first cover") rfl
    exact absurd hown (by decide)
  · intro h
    have hown := h.last rfl ("9782070411429", "first cover") rfl
    exact absurd hown (by decide)

end xellissime_book.book_cell
