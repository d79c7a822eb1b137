-- The laws of the loaded rows. A child of a snapshot that fails a guard ends the
-- observer in the middle of its loop: the children behind it are not listed, and
-- the table does not load the books in front of it.
import XellissimeBook.ListOfBooks

open runs
open xellissime_book.database xellissime_book.book_record

namespace xellissime_book.list_of_books

/-! ## Up to the first child that fails -/

/-- The child passes the guards. -/
def decodes (mychild : SnapshotChild) : Bool := (decodeBook mychild).isSome

/-- The books in front of the first child that fails a guard, and whether there
is none. -/
theorem appendChildren_eq (snapshot : Snapshot) (books : List Book) :
    appendChildren snapshot books =
      (books ++ decoded (snapshot.takeWhile decodes), snapshot.all decodes) := by
  unfold decoded
  induction snapshot generalizing books with
  | nil => simp [appendChildren]
  | cons mychild rest ih =>
    unfold appendChildren
    cases hb : decodeBook mychild with
    | none =>
      have hd : decodes mychild = false := by
        unfold decodes
        rw [hb]
        rfl
      rw [List.takeWhile_cons_of_neg (by simp [hd]), List.all_cons, hd]
      simp
    | some book =>
      have hd : decodes mychild = true := by
        unfold decodes
        rw [hb]
        rfl
      dsimp only
      rw [ih, List.takeWhile_cons_of_pos hd, List.filterMap_cons_some hb, List.all_cons, hd,
        List.append_assoc]
      rfl

theorem all_decodes_iff (snapshot : Snapshot) :
    snapshot.all decodes = true ↔ AllDecode snapshot := by
  rw [List.all_eq_true]
  rfl

theorem observe_of_allDecode {snapshot : Snapshot} (h : AllDecode snapshot) (s : ListOfBooks) :
    s.observe snapshot =
      { s with collectionBooks := s.collectionBooks ++ decoded snapshot }.reloadData := by
  unfold ListOfBooks.observe
  rw [appendChildren_of_allDecode h]
  rfl

theorem observe_of_not_allDecode {snapshot : Snapshot} (h : ¬ AllDecode snapshot)
    (s : ListOfBooks) :
    s.observe snapshot =
      { s with collectionBooks :=
          s.collectionBooks ++ decoded (snapshot.takeWhile decodes) } := by
  rw [← all_decodes_iff, Bool.not_eq_true] at h
  unfold ListOfBooks.observe
  rw [appendChildren_eq, h]
  rfl

/-! ## One snapshot -/

/-- One run of the observer on an empty list: the books of the children that
pass the guards are listed, and the table loads them, whatever it had loaded
before. -/
def ListsTheGoodChildren (snapshot : Snapshot) : Prop :=
  ∀ s : ListOfBooks, s.collectionBooks = [] →
    (s.observe snapshot).collectionBooks = decoded snapshot ∧
      (s.observe snapshot).tableRows = (decoded snapshot).length

/-- A snapshot is listed and loaded exactly when each of its children passes the
guards. -/
theorem the_good_children_are_listed_iff (snapshot : Snapshot) :
    ListsTheGoodChildren snapshot ↔ AllDecode snapshot := by
  constructor
  · intro h
    by_contra hn
    -- a table that had loaded one row more shows that it does not load again
    obtain ⟨_, hrows⟩ := h
      { ListOfBooks.initial with tableRows := (decoded snapshot).length + 1 } rfl
    rw [observe_of_not_allDecode hn] at hrows
    exact Nat.succ_ne_self _ hrows
  · intro h s hs
    rw [observe_of_allDecode h, hs]
    exact ⟨rfl, rfl⟩

/-- A text in place of a record. -/
def textChild : SnapshotChild := .dataSnapshot "note" (stringNode "text")

/-- A text in front of a record hides it. -/
theorem a_bad_record_hides_the_next :
    ¬ ListsTheGoodChildren (textChild :: oneRecord firstBook) := by
  intro h
  obtain ⟨hbooks, _⟩ := h .initial rfl
  have hlisted : (ListOfBooks.initial.observe
      (textChild :: oneRecord firstBook)).collectionBooks = [] := rfl
  have hgood : decoded (textChild :: oneRecord firstBook) = [readBack firstBook] :=
    decoded_oneRecord firstBook
  rw [hlisted, hgood] at hbooks
  cases hbooks

/-! ## The table and its data -/

/-- The table has loaded the books of the list, and no deletion of a row found
another number of them. -/
structure InSync (s : ListOfBooks) : Prop where
  rows : s.tableRows = s.collectionBooks.length
  valid : s.fault ≠ some .invalidUpdate

/-- The table loads all that the snapshot adds to the list: no child fails a
guard, or the first one does. -/
def LoadsWhatItLists (snapshot : Snapshot) : Prop :=
  AllDecode snapshot ∨ ∃ mychild ∈ snapshot.head?, decodes mychild = false

/-- Only a snapshot can put the list out of step. -/
def LoadsWhatItAdds : Event → Prop
  | .value snapshot => LoadsWhatItLists snapshot
  | _ => True

theorem inSync_reloadData {s : ListOfBooks} (h : s.fault ≠ some .invalidUpdate) :
    InSync s.reloadData := ⟨rfl, h⟩

/-- Nothing is listed exactly when the first child fails. -/
theorem decoded_takeWhile_eq_nil_iff (snapshot : Snapshot) :
    decoded (snapshot.takeWhile decodes) = [] ↔
      ∀ mychild ∈ snapshot.head?, decodes mychild = false := by
  unfold decoded
  cases snapshot with
  | nil => simp
  | cons mychild rest =>
    simp only [List.head?_cons, Option.mem_some_iff, forall_eq']
    by_cases hd : decodes mychild = true
    · obtain ⟨book, hb⟩ := Option.isSome_iff_exists.mp hd
      rw [List.takeWhile_cons_of_pos hd, List.filterMap_cons_some hb, hd]
      simp
    · rw [List.takeWhile_cons_of_neg hd]
      simpa using hd

theorem inSync_observe_iff {s : ListOfBooks} (h : InSync s) (snapshot : Snapshot) :
    InSync (s.observe snapshot) ↔ LoadsWhatItLists snapshot := by
  by_cases hall : AllDecode snapshot
  · rw [observe_of_allDecode hall]
    exact ⟨fun _ => Or.inl hall, fun _ => inSync_reloadData h.valid⟩
  · rw [observe_of_not_allDecode hall]
    constructor
    · rintro ⟨hrows, _⟩
      dsimp only at hrows
      rw [h.rows, List.length_append] at hrows
      have hnil : decoded (snapshot.takeWhile decodes) = [] :=
        List.eq_nil_of_length_eq_zero (by omega)
      rw [decoded_takeWhile_eq_nil_iff] at hnil
      cases hhead : snapshot.head? with
      | none =>
        rw [List.head?_eq_none_iff.mp hhead] at hall
        exact absurd (fun c hc => absurd hc List.not_mem_nil) hall
      | some mychild => exact Or.inr ⟨mychild, hhead, hnil mychild hhead⟩
    · intro hloads
      obtain ⟨mychild, hhead, hd⟩ := hloads.resolve_left hall
      have hnil : decoded (snapshot.takeWhile decodes) = [] := by
        rw [decoded_takeWhile_eq_nil_iff]
        intro first hfirst
        cases Option.mem_unique hhead hfirst
        exact hd
      rw [hnil, List.append_nil]
      exact h

theorem inSync_commitDelete {s : ListOfBooks} (h : InSync s) (row : Nat) :
    InSync (s.commitDelete row) := by
  unfold ListOfBooks.commitDelete
  split
  · exact ⟨h.rows, by simp⟩
  · split
    · exact ⟨h.rows, by simp⟩
    · exact ⟨h.rows, h.valid⟩

theorem inSync_removed {s : ListOfBooks} (h : InSync s) (request : DeleteRequest)
    (error : Option String) : InSync (s.removed request error) := by
  unfold ListOfBooks.removed
  dsimp only
  split
  · exact ⟨h.rows, h.valid⟩
  · exact ⟨h.rows, h.valid⟩

/-- A block that finds its row takes one book and one row out. -/
theorem inSync_removeRow {s : ListOfBooks} (h : InSync s) (request : DeleteRequest) :
    InSync (s.removeRow request) := by
  unfold ListOfBooks.removeRow
  split
  · exact ⟨h.rows, by simp⟩
  · rename_i book hget
    have hlt : request.row < s.collectionBooks.length := (List.getElem?_eq_some_iff.mp hget).1
    have hlen : (s.collectionBooks.eraseIdx request.row).length + 1 =
        s.collectionBooks.length := by
      rw [List.length_eraseIdx_of_lt hlt]
      omega
    have hrows := h.rows
    unfold ListOfBooks.deleteRows
    rw [if_pos]
    · exact inSync_reloadData h.valid
    · change request.row < s.tableRows ∧
        (s.collectionBooks.eraseIdx request.row).length + 1 = s.tableRows
      omega

/-- Each step keeps the table in step, but for a snapshot that lists books and
does not load them. -/
theorem inSync_step_iff {s s' : ListOfBooks} {event : Event} (hs : InSync s)
    (h : step s event = some s') : InSync s' ↔ LoadsWhatItAdds event := by
  unfold step at h
  split at h
  · cases h
  · cases event with
    | viewDidLoad =>
      dsimp only at h
      split at h
      · cases h
      · cases h
        exact iff_of_true (inSync_reloadData hs.valid) trivial
    | viewWillAppear =>
      dsimp only at h
      split at h
      · cases h
        exact iff_of_true (inSync_reloadData hs.valid) trivial
      · cases h
    | value snapshot =>
      dsimp only at h
      split at h
      · cases h
        exact inSync_observe_iff hs snapshot
      · cases h
    | commitDelete row =>
      dsimp only at h
      split at h
      · cases h
        exact iff_of_true (inSync_commitDelete hs row) trivial
      · cases h
    | completion id error =>
      obtain ⟨request, _, rfl⟩ := Option.map_eq_some_iff.mp h
      exact iff_of_true (inSync_removed hs request error) trivial
    | mainAsync =>
      dsimp only at h
      split at h
      · cases h
      · rename_i request rest _
        cases h
        have hrest : InSync { s with mainQueue := rest } := ⟨hs.rows, hs.valid⟩
        exact iff_of_true (inSync_removeRow hrest request) trivial

/-- The table and its data stay in step all along a run exactly when each
snapshot is loaded whole or ends at its first child. -/
theorem the_table_shows_its_data_iff (es : List Event) (s : ListOfBooks)
    (hr : run step .initial es = some s) :
    Throughout step InSync .initial es ↔
      ∀ snapshot, Event.value snapshot ∈ es → LoadsWhatItLists snapshot := by
  have hinitial : InSync .initial := ⟨rfl, by simp [ListOfBooks.initial]⟩
  have hmeets : Throughout step InSync .initial es ↔
      Meets step (fun _ _ => LoadsWhatItAdds) [] .initial es :=
    throughout_iff_meets (fun _ => True) InSync (fun _ _ _ _ _ => trivial)
      (fun _ _ _ _ hs h => inSync_step_iff hs h) trivial hinitial hr
  rw [hmeets, meets_event_iff hr]
  constructor
  · intro h snapshot hin
    exact h (.value snapshot) hin
  · intro h event hin
    cases event with
    | value snapshot => exact h snapshot hin
    | viewDidLoad | viewWillAppear | commitDelete _ | completion _ _ | mainAsync => trivial

/-- A record comes in and its row is deleted. -/
def goodDeletion : List Event :=
  [.viewDidLoad, .value (oneRecord firstBook), .commitDelete 0, .completion 0 none, .mainAsync]

theorem the_table_shows_its_data_after_a_deletion :
    Throughout step InSync .initial goodDeletion := by
  have hrun : (run step .initial goodDeletion).isSome = true := by decide +kernel
  obtain ⟨s, hr⟩ := Option.isSome_iff_exists.mp hrun
  apply (the_table_shows_its_data_iff goodDeletion s hr).mpr
  intro snapshot hin
  have hsnapshot : snapshot = oneRecord firstBook := by simpa [goodDeletion] using hin
  rw [hsnapshot]
  exact Or.inl (allDecode_oneRecord firstBook)

/-- A record, and then the same record in front of a text: the table loads one
row and the list has two books. A deletion finds the difference. -/
def deletionBehindABadRecord : List Event :=
  [.viewDidLoad, .value (oneRecord firstBook), .value (oneRecord firstBook ++ [textChild]),
    .commitDelete 0, .completion 0 none, .mainAsync]

theorem a_bad_record_puts_the_table_out_of_step :
    (run step .initial deletionBehindABadRecord).map (·.fault) =
        some (some .invalidUpdate) ∧
      ¬ Throughout step InSync .initial deletionBehindABadRecord := by
  have hrun : (run step .initial deletionBehindABadRecord).map (·.fault) =
      some (some .invalidUpdate) := by
    decide +kernel
  refine ⟨hrun, fun h => ?_⟩
  obtain ⟨s, hr, hfault⟩ := Option.map_eq_some_iff.mp hrun
  exact (h.last hr).valid hfault

end xellissime_book.list_of_books
