-- The laws of the deleted rows. A deletion captures its row when it is asked
-- for, and takes the book out of that row after the database answers. Other
-- deletions can shift the rows in between.
import XellissimeBook.ListOfBooks

open runs
open xellissime_book.book_record

namespace xellissime_book.list_of_books

/-! ## Rows that other deletions take -/

/-- The row that a deferred block takes out. -/
def rowOf : Effect → Option Nat
  | .removeValue _ => none
  | .removedBook request _ => some request.row

/-- The rows that were taken out after the request was issued. -/
def removedSince (request : DeleteRequest) (log : List Effect) : List Nat :=
  (log.reverse.takeWhile (· ≠ .removeValue request)).filterMap rowOf

/-- A row at or above the row of the request was taken out since. -/
def Overtaken (log : List Effect) (request : DeleteRequest) : Prop :=
  ∃ row ∈ removedSince request log, row ≤ request.row

instance decidableOvertaken (log : List Effect) (request : DeleteRequest) :
    Decidable (Overtaken log request) :=
  inferInstanceAs (Decidable (∃ row ∈ removedSince request log, row ≤ request.row))

/-- The deferred block that runs is not overtaken. -/
def NotOvertaken (s : ListOfBooks) : Event → Prop
  | .mainAsync => ∀ request ∈ s.mainQueue.head?, ¬ Overtaken s.log request
  | _ => True

instance decidableNotOvertaken (s : ListOfBooks) : ∀ event, Decidable (NotOvertaken s event)
  | .mainAsync =>
    inferInstanceAs (Decidable (∀ request ∈ s.mainQueue.head?, ¬ Overtaken s.log request))
  | .viewDidLoad | .viewWillAppear | .value _ | .commitDelete _ | .completion _ _ => isTrue trivial

variable {log : List Effect} {books : List Book} {request : DeleteRequest}

/-- A request is not overtaken when it is issued. -/
theorem not_overtaken_issued : ¬ Overtaken (log ++ [.removeValue request]) request := by
  simp [Overtaken, removedSince]

theorem overtaken_removeValue {other : DeleteRequest} (h : other ≠ request) :
    Overtaken (log ++ [.removeValue other]) request ↔ Overtaken log request := by
  simp [Overtaken, removedSince, h, rowOf]

theorem overtaken_removedBook (other : DeleteRequest) (book : Book) :
    Overtaken (log ++ [.removedBook other book]) request ↔
      other.row ≤ request.row ∨ Overtaken log request := by
  simp [Overtaken, removedSince, rowOf]

/-! ## The invariant of one request -/

/-- The row of the request still shows its book, unless another deletion
overtook it. -/
def Tracked (log : List Effect) (books : List Book) (request : DeleteRequest) : Prop :=
  Overtaken log request ∨ (books[request.row]?).map (·.bookId) = some request.bookIdToRemove

/-- Books that come in behind shift no row. -/
theorem Tracked.moreBooks {books' : List Book} (h : Tracked log books request)
    (hp : books <+: books') : Tracked log books' request := by
  refine h.imp_right fun hbook => ?_
  obtain ⟨book, hget, _⟩ := Option.map_eq_some_iff.mp hbook
  have hlt : request.row < books.length := (List.getElem?_eq_some_iff.mp hget).1
  obtain ⟨more, rfl⟩ := hp
  rw [List.getElem?_append_left hlt]
  exact hbook

theorem tracked_issued {book : Book} (h : books[request.row]? = some book)
    (hid : book.bookId = request.bookIdToRemove) :
    Tracked (log ++ [.removeValue request]) books request := by
  refine Or.inr ?_
  rw [h, Option.map_some, hid]

/-- A row taken out below leaves the book in its place, and one at or above
overtakes the request. -/
theorem Tracked.removedBook (h : Tracked log books request) (other : DeleteRequest)
    (book : Book) :
    Tracked (log ++ [.removedBook other book]) (books.eraseIdx other.row) request := by
  unfold Tracked
  rw [overtaken_removedBook]
  by_cases hrow : other.row ≤ request.row
  · exact Or.inl (Or.inl hrow)
  · rcases h with hover | hbook
    · exact Or.inl (Or.inr hover)
    · refine Or.inr ?_
      rw [List.getElem?_eraseIdx_of_lt (by omega)]
      exact hbook

/-! ## What one step does to the requests -/

/-- The removal of the request is in flight, or its block waits. -/
def Outstanding (s : ListOfBooks) (request : DeleteRequest) : Prop :=
  request ∈ s.removals ∨ request ∈ s.mainQueue

/-- No request comes in, and every row stays. -/
structure KeepsRows (s s' : ListOfBooks) : Prop where
  observing : s'.observing = s.observing
  log : s'.log = s.log
  books : s'.collectionBooks = s.collectionBooks
  outstanding : ∀ request, Outstanding s' request → Outstanding s request

/-- Books come in behind the rows. -/
structure AddsRows (s s' : ListOfBooks) : Prop where
  observing : s'.observing = s.observing
  log : s'.log = s.log
  books : s.collectionBooks <+: s'.collectionBooks
  outstanding : ∀ request, Outstanding s' request → Outstanding s request

/-- The request comes in for the book of its row. -/
structure Issues (s s' : ListOfBooks) (request : DeleteRequest) : Prop where
  observing : s'.observing = s.observing
  log : s'.log = s.log ++ [.removeValue request]
  books : s'.collectionBooks = s.collectionBooks
  row : ∃ book, s.collectionBooks[request.row]? = some book ∧ book.bookId = request.bookIdToRemove
  outstanding : ∀ other, Outstanding s' other → other = request ∨ Outstanding s other

/-- The block of the request takes the book out of its row. -/
structure TakesOut (s s' : ListOfBooks) (request : DeleteRequest) (book : Book) : Prop where
  observing : s'.observing = s.observing
  log : s'.log = s.log ++ [.removedBook request book]
  books : s'.collectionBooks = s.collectionBooks.eraseIdx request.row
  row : s.collectionBooks[request.row]? = some book
  outstanding : ∀ other, Outstanding s' other → Outstanding s other

theorem addsRows_observe (s : ListOfBooks) (snapshot : Snapshot) :
    AddsRows s (s.observe snapshot) := by
  have hp := prefix_observe s snapshot
  have hsame : (s.observe snapshot).observing = s.observing ∧
      (s.observe snapshot).log = s.log ∧ (s.observe snapshot).removals = s.removals ∧
      (s.observe snapshot).mainQueue = s.mainQueue := by
    unfold ListOfBooks.observe
    dsimp only
    split
    · exact ⟨rfl, rfl, rfl, rfl⟩
    · exact ⟨rfl, rfl, rfl, rfl⟩
  obtain ⟨ho, hl, hr, hq⟩ := hsame
  refine ⟨ho, hl, hp, ?_⟩
  unfold Outstanding
  rw [hr, hq]
  exact fun _ h => h

theorem commitDelete_cases (s : ListOfBooks) (row : Nat) :
    KeepsRows s (s.commitDelete row) ∨ ∃ request, Issues s (s.commitDelete row) request := by
  unfold ListOfBooks.commitDelete
  split
  · exact Or.inl ⟨rfl, rfl, rfl, fun _ h => h⟩
  · rename_i book hget
    split
    · exact Or.inl ⟨rfl, rfl, rfl, fun _ h => h⟩
    · refine Or.inr ⟨_, rfl, rfl, rfl, ⟨book, hget, rfl⟩, ?_⟩
      intro other hother
      rcases hother with hother | hother
      · rcases List.mem_append.mp hother with hold | hnew
        · exact Or.inr (Or.inl hold)
        · exact Or.inl (List.mem_singleton.mp hnew)
      · exact Or.inr (Or.inr hother)

theorem keepsRows_removed {s : ListOfBooks} {request : DeleteRequest}
    (hin : request ∈ s.removals) (error : Option String) :
    KeepsRows s (s.removed request error) := by
  unfold ListOfBooks.removed
  dsimp only
  split
  · refine ⟨rfl, rfl, rfl, ?_⟩
    intro other hother
    exact hother.imp_left List.mem_of_mem_filter
  · refine ⟨rfl, rfl, rfl, ?_⟩
    intro other hother
    rcases hother with hother | hother
    · exact Or.inl (List.mem_of_mem_filter hother)
    · rcases List.mem_append.mp hother with hold | hnew
      · exact Or.inr hold
      · rw [List.mem_singleton.mp hnew]
        exact Or.inl hin

theorem takesOut_removeRow {s : ListOfBooks} {request : DeleteRequest} {book : Book}
    (h : s.collectionBooks[request.row]? = some book) :
    TakesOut s (s.removeRow request) request book := by
  unfold ListOfBooks.removeRow ListOfBooks.deleteRows
  rw [h]
  dsimp only
  split
  · exact ⟨rfl, rfl, rfl, h, fun _ ho => ho⟩
  · exact ⟨rfl, rfl, rfl, h, fun _ ho => ho⟩

/-- The block that runs is the first of the queue: it takes a book out, or its
row is out of range. -/
theorem mainAsync_cases {s s' : ListOfBooks} (h : step s .mainAsync = some s') :
    ∃ request, s.mainQueue.head? = some request ∧
      ((∃ book, TakesOut s s' request book) ∨
        (s.collectionBooks[request.row]? = none ∧ KeepsRows s s')) := by
  unfold step at h
  split at h
  · cases h
  · dsimp only at h
    split at h
    · cases h
    · rename_i request rest hq
      cases h
      refine ⟨request, by rw [hq]; rfl, ?_⟩
      have hrest : ∀ other, Outstanding { s with mainQueue := rest } other →
          Outstanding s other := by
        intro other hother
        refine hother.imp_right fun hm => ?_
        rw [hq]
        exact List.mem_cons_of_mem request hm
      cases hget : s.collectionBooks[request.row]? with
      | some book =>
        have ht := takesOut_removeRow (s := { s with mainQueue := rest }) hget
        refine Or.inl ⟨book, ht.observing, ht.log, ht.books, hget, ?_⟩
        exact fun other hother => hrest other (ht.outstanding other hother)
      | none =>
        refine Or.inr ⟨rfl, ?_⟩
        unfold ListOfBooks.removeRow
        rw [hget]
        exact ⟨rfl, rfl, rfl, hrest⟩

/-- A step of the loaded screen keeps the rows, adds rows for a snapshot,
issues a request or takes a book out. -/
theorem step_cases {s s' : ListOfBooks} {event : Event} (ho : s.observing = true)
    (h : step s event = some s') :
    KeepsRows s s' ∨ (AddsRows s s' ∧ ∃ snapshot, event = .value snapshot) ∨
      (∃ request, Issues s s' request) ∨ ∃ request book, TakesOut s s' request book := by
  cases event with
  | mainAsync =>
    obtain ⟨request, _, ⟨book, htakes⟩ | ⟨_, hkeeps⟩⟩ := mainAsync_cases h
    · exact Or.inr (Or.inr (Or.inr ⟨request, book, htakes⟩))
    · exact Or.inl hkeeps
  | viewDidLoad => simp [step, ho] at h
  | viewWillAppear =>
    simp only [step, ho, if_true] at h
    split at h
    · cases h
    · cases h
      exact Or.inl ⟨rfl, rfl, rfl, fun _ hr => hr⟩
  | value snapshot =>
    simp only [step, ho, if_true] at h
    split at h
    · cases h
    · cases h
      exact Or.inr (Or.inl ⟨addsRows_observe s snapshot, snapshot, rfl⟩)
  | commitDelete row =>
    simp only [step] at h
    split at h
    · cases h
    · split at h
      · cases h
        rcases commitDelete_cases s row with hkeeps | hissues
        · exact Or.inl hkeeps
        · exact Or.inr (Or.inr (Or.inl hissues))
      · cases h
  | completion id error =>
    simp only [step] at h
    split at h
    · cases h
    · obtain ⟨request, hfind, rfl⟩ := Option.map_eq_some_iff.mp h
      exact Or.inl (keepsRows_removed (List.mem_of_find?_eq_some hfind) error)

/-! ## The invariant of the screen -/

/-- Every outstanding request is tracked. -/
structure RowsTracked (s : ListOfBooks) : Prop where
  observing : s.observing = true
  tracked : ∀ request, Outstanding s request → Tracked s.log s.collectionBooks request

theorem rowsTracked_showing (books : List Book) : RowsTracked (.showing books) := by
  refine ⟨rfl, ?_⟩
  rintro request (hmem | hmem)
  · cases hmem
  · cases hmem

/-- Every step keeps every outstanding request tracked. -/
theorem rowsTracked_step (s : ListOfBooks) (event : Event) (s' : ListOfBooks)
    (hs : RowsTracked s) (h : step s event = some s') : RowsTracked s' := by
  rcases step_cases hs.observing h with
    hkeeps | ⟨hadds, _⟩ | ⟨issued, hissues⟩ | ⟨taken, book, htakes⟩
  · refine ⟨hkeeps.observing.trans hs.observing, fun request hr => ?_⟩
    rw [hkeeps.log, hkeeps.books]
    exact hs.tracked request (hkeeps.outstanding request hr)
  · refine ⟨hadds.observing.trans hs.observing, fun request hr => ?_⟩
    rw [hadds.log]
    exact (hs.tracked request (hadds.outstanding request hr)).moreBooks hadds.books
  · refine ⟨hissues.observing.trans hs.observing, fun request hr => ?_⟩
    rw [hissues.log, hissues.books]
    by_cases hnew : request = issued
    · obtain ⟨book, hget, hid⟩ := hissues.row
      rw [hnew]
      exact tracked_issued hget hid
    · have hold := (hissues.outstanding request hr).resolve_left hnew
      unfold Tracked
      rw [overtaken_removeValue (Ne.symm hnew)]
      exact hs.tracked request hold
  · refine ⟨htakes.observing.trans hs.observing, fun request hr => ?_⟩
    rw [htakes.log, htakes.books]
    exact (hs.tracked request (htakes.outstanding request hr)).removedBook taken book

/-! ## The laws -/

/-- The deferred block finds the book of its request in its row and takes
exactly that one out. A completion with an error takes nothing out, now or
later. -/
def DeletesRight (s : ListOfBooks) (event : Event) (s' : ListOfBooks) : Prop :=
  match event with
  | .mainAsync => ∀ request ∈ s.mainQueue.head?,
      ∃ book, s.collectionBooks[request.row]? = some book ∧
        book.bookId = request.bookIdToRemove ∧
        s'.collectionBooks = s.collectionBooks.eraseIdx request.row
  | .completion _ (some _) =>
    s'.collectionBooks = s.collectionBooks ∧ s'.mainQueue = s.mainQueue
  | _ => True

theorem deletesRight_completion {s s' : ListOfBooks} {id : Nat} {error : Option String}
    (h : step s (.completion id error) = some s') : DeletesRight s (.completion id error) s' := by
  cases error with
  | none => trivial
  | some message =>
    simp only [step] at h
    split at h
    · cases h
    · obtain ⟨request, _, rfl⟩ := Option.map_eq_some_iff.mp h
      exact ⟨rfl, rfl⟩

/-- A block deletes right exactly when the row still shows the book. -/
theorem deletesRight_mainAsync_iff {s s' : ListOfBooks} {request : DeleteRequest}
    (hq : s.mainQueue.head? = some request) (h : step s .mainAsync = some s') :
    DeletesRight s .mainAsync s' ↔
      (s.collectionBooks[request.row]?).map (·.bookId) = some request.bookIdToRemove := by
  obtain ⟨first, hfirst, hcases⟩ := mainAsync_cases h
  rw [hq] at hfirst
  cases hfirst
  constructor
  · intro hright
    obtain ⟨book, hget, hid, _⟩ := hright request hq
    rw [hget, Option.map_some, hid]
  · intro hmap other hother
    rw [hq] at hother
    cases hother
    obtain ⟨book, hget, hid⟩ := Option.map_eq_some_iff.mp hmap
    rcases hcases with ⟨taken, htakes⟩ | ⟨hnone, _⟩
    · exact ⟨book, hget, hid, htakes.books⟩
    · rw [hnone] at hget
      cases hget

/-- In every run whose deferred blocks are not overtaken, each of them takes
out the book of its own request. -/
theorem each_block_takes_out_the_book_of_its_request (books : List Book) (es : List Event)
    (event : Event) (s s' : ListOfBooks)
    (hm : Meets step (fun _ => NotOvertaken) [] (.showing books) (es ++ [event]))
    (hr : run step (.showing books) es = some s) (h : step s event = some s') :
    DeletesRight s event s' := by
  obtain ⟨_, hs, hw, _⟩ := invariant_of_run (fun _ => RowsTracked)
    (fun _ s event s' hs _ => rowsTracked_step s event s' hs) (rowsTracked_showing books) hm hr
  cases event with
  | viewDidLoad | viewWillAppear | value snapshot | commitDelete row => trivial
  | completion id error => exact deletesRight_completion h
  | mainAsync =>
    obtain ⟨request, hq, _⟩ := mainAsync_cases h
    rw [deletesRight_mainAsync_iff hq h]
    have htracked := hs.tracked request (Or.inr (List.mem_of_head? hq))
    exact htracked.resolve_left (hw request hq)

/-- Three books on display. -/
def shelf : List Book :=
  [{ Book.new "first title" "author" "1" with bookId := "uid11" },
    { Book.new "second title" "author" "2" with bookId := "uid12" },
    { Book.new "third title" "author" "3" with bookId := "uid13" }]

/-- Two deletions from below upwards, both granted, one of them done. -/
def upwardDeletions : List Event :=
  [.commitDelete 1, .commitDelete 0, .completion 0 none, .completion 1 none, .mainAsync]

theorem upward_deletions_take_out_their_own_books :
    ∃ s s', run step (.showing shelf) upwardDeletions = some s ∧ step s .mainAsync = some s' ∧
      DeletesRight s .mainAsync s' := by
  have hrun : ((run step (.showing shelf) upwardDeletions).bind
      fun s => (step s .mainAsync).map fun s' => (s, s')).isSome = true := by
    decide +kernel
  obtain ⟨_, hpair⟩ := Option.isSome_iff_exists.mp hrun
  obtain ⟨s, hr, hstep⟩ := Option.bind_eq_some_iff.mp hpair
  obtain ⟨s', h, _⟩ := Option.map_eq_some_iff.mp hstep
  exact ⟨s, s', hr, h, each_block_takes_out_the_book_of_its_request shelf upwardDeletions
    .mainAsync s s' (by decide +kernel) hr h⟩

/-- The same two deletions from above downwards. -/
def downwardDeletions : List Event :=
  [.commitDelete 0, .commitDelete 1, .completion 0 none, .completion 1 none, .mainAsync]

/-- The second block takes out the third book in place of the second. -/
theorem downward_deletions_take_out_another_book :
    (shelf.map (·.bookId)).Nodup ∧
      ∃ s s', run step (.showing shelf) downwardDeletions = some s ∧
        step s .mainAsync = some s' ∧ ¬ DeletesRight s .mainAsync s' := by
  refine ⟨by decide, ?_⟩
  have hrun : ((run step (.showing shelf) downwardDeletions).bind fun s =>
      (step s .mainAsync).map fun s' => (s, s')).map
        (fun p => (p.1.mainQueue.head?, p.1.collectionBooks.map (·.bookId))) =
      some (some { id := 1, row := 1, bookIdToRemove := "uid12" }, ["uid12", "uid13"]) := by
    decide +kernel
  obtain ⟨p, hpair, hread⟩ := Option.map_eq_some_iff.mp hrun
  obtain ⟨s, hr, hstep⟩ := Option.bind_eq_some_iff.mp hpair
  obtain ⟨s', h, rfl⟩ := Option.map_eq_some_iff.mp hstep
  obtain ⟨hq, hids⟩ := Prod.mk.inj hread
  refine ⟨s, s', hr, h, fun hright => ?_⟩
  have hmap := (deletesRight_mainAsync_iff hq h).mp hright
  rw [← List.getElem?_map, hids] at hmap
  simp at hmap

/-! ## The condition is exact while no snapshot comes in -/

/-- An overtaken request has its book above its row, if anywhere. -/
def Shifted (log : List Effect) (books : List Book) (request : DeleteRequest) : Prop :=
  Overtaken log request → ∀ (row : Nat) (book : Book), books[row]? = some book →
    book.bookId = request.bookIdToRemove → row < request.row

/-- Two rows do not show the same id. -/
def DistinctIds (books : List Book) : Prop := (books.map (·.bookId)).Nodup

theorem row_unique (hn : DistinctIds books) {row row' : Nat} {id : String}
    (h : (books[row]?).map (·.bookId) = some id) (h' : (books[row']?).map (·.bookId) = some id) :
    row = row' := by
  rw [← List.getElem?_map] at h h'
  have hlt := (List.getElem?_eq_some_iff.mp h).1
  exact (List.getElem?_inj hlt hn).mp (h.trans h'.symm)

/-- A row taken out moves the books below it up by one. -/
theorem Shifted.removedBook (hn : DistinctIds books) (ht : Tracked log books request)
    (hs : Shifted log books request) (other : DeleteRequest) (book : Book) :
    Shifted (log ++ [.removedBook other book]) (books.eraseIdx other.row) request := by
  intro hover row b hget hid
  rw [List.getElem?_eraseIdx] at hget
  by_cases hwas : Overtaken log request
  · split at hget
    · exact hs hwas row b hget hid
    · have hlt := hs hwas (row + 1) b hget hid
      omega
  · have hrow := ((overtaken_removedBook other book).mp hover).resolve_right hwas
    have hplace := ht.resolve_left hwas
    split at hget
    · have he := row_unique hn (by rw [hget, Option.map_some, hid]) hplace
      omega
    · have he := row_unique hn (by rw [hget, Option.map_some, hid]) hplace
      omega

/-- What holds with distinct ids while no snapshot comes in. -/
structure RowsShifted (s : ListOfBooks) : Prop where
  tracked : RowsTracked s
  distinct : DistinctIds s.collectionBooks
  shifted : ∀ request, Outstanding s request → Shifted s.log s.collectionBooks request

def NoSnapshot : Event → Prop
  | .value _ => False
  | _ => True

theorem rowsShifted_step (s : ListOfBooks) (event : Event) (s' : ListOfBooks)
    (hs : RowsShifted s) (hw : NoSnapshot event) (h : step s event = some s') :
    RowsShifted s' := by
  have htracked := rowsTracked_step s event s' hs.tracked h
  suffices hboth : DistinctIds s'.collectionBooks ∧
      ∀ request, Outstanding s' request → Shifted s'.log s'.collectionBooks request from
    ⟨htracked, hboth.1, hboth.2⟩
  rcases step_cases hs.tracked.observing h with
    hkeeps | ⟨_, _, rfl⟩ | ⟨issued, hissues⟩ | ⟨taken, book, htakes⟩
  · rw [hkeeps.log, hkeeps.books]
    exact ⟨hs.distinct, fun request hr => hs.shifted request (hkeeps.outstanding request hr)⟩
  · cases hw
  · rw [hissues.log, hissues.books]
    refine ⟨hs.distinct, fun request hr => ?_⟩
    intro hover
    by_cases hnew : request = issued
    · rw [hnew] at hover
      exact absurd hover not_overtaken_issued
    · have hold := (hissues.outstanding request hr).resolve_left hnew
      exact hs.shifted request hold ((overtaken_removeValue (Ne.symm hnew)).mp hover)
  · rw [htakes.log, htakes.books]
    refine ⟨?_, fun request hr => ?_⟩
    · exact hs.distinct.sublist ((List.eraseIdx_sublist s.collectionBooks taken.row).map _)
    · have hold := htakes.outstanding request hr
      exact (hs.shifted request hold).removedBook hs.distinct (hs.tracked.tracked request hold)
        taken book

/-- With distinct ids and no snapshot, a block takes out the book of its request
exactly when it is not overtaken. -/
theorem a_block_deletes_right_iff_it_is_not_overtaken (books : List Book) (hn : DistinctIds books)
    (es : List Event) (s s' : ListOfBooks)
    (hm : Meets step (fun _ _ => NoSnapshot) [] (.showing books) es)
    (hr : run step (.showing books) es = some s) (h : step s .mainAsync = some s') :
    DeletesRight s .mainAsync s' ↔ NotOvertaken s .mainAsync := by
  have h0 : RowsShifted (.showing books) := by
    refine ⟨rowsTracked_showing books, hn, ?_⟩
    rintro request (hmem | hmem)
    · cases hmem
    · cases hmem
  have hs := state_invariant_of_run RowsShifted rowsShifted_step h0 hm hr
  obtain ⟨request, hq, _⟩ := mainAsync_cases h
  have hout : Outstanding s request := Or.inr (List.mem_of_head? hq)
  rw [deletesRight_mainAsync_iff hq h]
  constructor
  · intro hmap other hother hover
    rw [hq] at hother
    cases hother
    obtain ⟨book, hget, hid⟩ := Option.map_eq_some_iff.mp hmap
    have hlt := hs.shifted request hout hover request.row book hget hid
    omega
  · intro hw
    exact (hs.tracked.tracked request hout).resolve_left (hw request hq)

end xellissime_book.list_of_books
