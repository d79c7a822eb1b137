-- The law of the complete books. The form looks for an empty field before it
-- cleans the fields, so a field of spaces and quotes gets past the check. What the
-- database refuses is found out after the cover was stored.
import XellissimeBook.CleanedText
import XellissimeBook.SavePresses

open xellissime_book.add_menu xellissime_book.book_record xellissime_book.covers
open xellissime_book.database xellissime_book.lookup xellissime_book.text

namespace xellissime_book.save_presses

variable {Data Image : Type}

/-! ## What a press is for -/

/-- The press shows the alert, or nothing where no user is signed in, and
leaves the stores and the two globals as they are. -/
structure Rejects (I : Images Data Image) (s : Stores Data) (p : SavePress Data) : Prop where
  shown : p.effects = [.alert .needAllFieldsCompleted] ∨ (p.uid = none ∧ p.effects = [])
  stores : p.run I s = s
  scannedIsbn : p.after.scannedIsbn = p.form.scannedIsbn
  comeFromAdd : p.after.comeFromAdd = p.form.comeFromAdd

def savedBook : Effect → Option Book
  | .saveBook book => some book
  | _ => none

/-- The press writes one record, and its title, author and ISBN are not
empty. -/
def WritesComplete (I : Images Data Image) (s : Stores Data) (p : SavePress Data) : Prop :=
  ∃ book, p.effects.filterMap savedBook = [book] ∧
    saveBook s.books book = .ok (p.run I s).books ∧
    book.bookTitle ≠ "" ∧ book.bookAuthor ≠ "" ∧ book.bookIsbn ≠ ""

/-- A Character of the text is no space and no quote. -/
def HasText (s : String) : Prop := ∃ c ∈ s.toList, isSpaceOrQuote c = false

/-- The press is answered with the alert or with nothing, or each field has a
text, the id is a path and the database takes the texts. -/
def FilledOrRejected (p : SavePress Data) : Prop :=
  p.EmptyField ∨ p.uid = none ∨
    (HasText p.form.titleTextField ∧ HasText p.form.authorTextField ∧
      HasText p.form.isbnTextField ∧
      ∀ userId ∈ p.uid, isValidPathString (userId ++ p.form.isbnFromTextField) = true ∧
        p.form.TakenTexts userId)

/-- A text survives the cleaning exactly when it has a Character that is no
space and no quote. -/
theorem cleaning_ne_empty_iff (s : String) :
    removeFirstAndLastAndDoubleWhitespace s ≠ "" ↔ HasText s := by
  rw [Ne, cleaning_eq_empty_iff]
  unfold HasText
  push Not
  simp only [Bool.not_eq_true]

/-! ## The law -/

theorem rejects_of_emptyField (I : Images Data Image) (s : Stores Data) {p : SavePress Data}
    (h : p.EmptyField) : Rejects I s p := by
  have hafter := press_of_emptyField h
  have heffects : p.effects = [.alert .needAllFieldsCompleted] := by
    apply effects_of_log
    rw [hafter]
    rfl
  refine ⟨Or.inl heffects, ?_, ?_, ?_⟩
  · unfold SavePress.run
    rw [heffects]
    rfl
  · rw [hafter]
    rfl
  · rw [hafter]
    rfl

theorem rejects_of_no_user (I : Images Data Image) (s : Stores Data) {p : SavePress Data}
    (h : ¬ p.EmptyField) (hu : p.uid = none) : Rejects I s p := by
  have hafter := press_of_no_user h hu
  have heffects : p.effects = [] := by
    apply effects_of_log
    rw [hafter, List.append_nil]
  refine ⟨Or.inr ⟨hu, heffects⟩, ?_, ?_, ?_⟩
  · unfold SavePress.run
    rw [heffects]
    rfl
  · rw [hafter]
  · rw [hafter]

/-- A press that stores a cover is not rejected. -/
theorem not_rejects_of_cover {I : Images Data Image} {s : Stores Data} {p : SavePress Data}
    {book : Book} {rest : List Effect} (h : p.effects = .storeCoverImage book :: rest) :
    ¬ Rejects I s p := by
  rintro ⟨hshown, _⟩
  rw [h] at hshown
  rcases hshown with hshown | ⟨_, hshown⟩
  · cases hshown
  · cases hshown

/-- A press that stores a cover only writes no book. -/
theorem not_writes_of_cover_only {I : Images Data Image} {s : Stores Data} {p : SavePress Data}
    {book : Book} (h : p.effects = [.storeCoverImage book]) : ¬ WritesComplete I s p := by
  rintro ⟨written, hwritten, _⟩
  rw [h] at hwritten
  cases hwritten

/-- A press that saves a book writes it, so its fields have to be complete. -/
theorem writesComplete_iff_of_saves {I : Images Data Image} {s : Stores Data}
    {p : SavePress Data} {book : Book} (hv : isValidPathString book.bookId = true)
    (hshort : ShortTexts book) (h : p.effects = [.storeCoverImage book, .saveBook book]) :
    WritesComplete I s p ↔
      book.bookTitle ≠ "" ∧ book.bookAuthor ≠ "" ∧ book.bookIsbn ≠ "" := by
  have hwritten : p.effects.filterMap savedBook = [book] := by
    rw [h]
    rfl
  unfold WritesComplete
  rw [hwritten]
  constructor
  · rintro ⟨written, hsame, _, hfields⟩
    cases hsame
    exact hfields
  · intro hfields
    refine ⟨book, rfl, ?_, hfields⟩
    have hok : ∃ books, saveBook s.books book = .ok books := by
      unfold saveBook
      rw [recordReference_eq_ok_iff.mpr ⟨child_ok hv, hshort⟩]
      exact ⟨_, rfl⟩
    obtain ⟨books, hok⟩ := hok
    have hrun : (p.run I s).books = books := by
      unfold SavePress.run
      rw [h, List.foldl_cons, List.foldl_cons, List.foldl_nil]
      simp only [Stores.perform, hok]
    rw [hrun, hok]

/-- A press rejects the form or writes a complete book exactly when the form
has an empty field, no user is signed in, or each field has a text, the id is a
path and the database takes the texts. -/
theorem no_incomplete_book_is_saved_iff (I : Images Data Image) (s : Stores Data)
    (p : SavePress Data) : Rejects I s p ∨ WritesComplete I s p ↔ FilledOrRejected p := by
  unfold FilledOrRejected
  rcases press_cases p with
    ⟨he, _⟩ | ⟨he, hu, _⟩ | ⟨userId, he, hu, ⟨hrefused, heffects⟩ | ⟨⟨hv, htexts⟩, heffects⟩⟩
  · exact iff_of_true (Or.inl (rejects_of_emptyField I s he)) (Or.inl he)
  · exact iff_of_true (Or.inl (rejects_of_no_user I s he hu)) (Or.inr (Or.inl hu))
  · refine iff_of_false
      (not_or.mpr ⟨not_rejects_of_cover heffects, not_writes_of_cover_only heffects⟩) ?_
    rintro (hempty | hnone | ⟨_, _, _, htaken⟩)
    · exact he hempty
    · rw [hu] at hnone
      cases hnone
    · exact hrefused (htaken userId hu)
  · have hshort := (shortTexts_bookOfFields_iff p.form userId).mpr htexts
    rw [or_iff_right (not_rejects_of_cover heffects),
      writesComplete_iff_of_saves hv hshort heffects, or_iff_right he,
      or_iff_right (by simp [hu]), ← cleaning_ne_empty_iff, ← cleaning_ne_empty_iff,
      ← cleaning_ne_empty_iff]
    have htaken : ∀ other ∈ p.uid,
        isValidPathString (other ++ p.form.isbnFromTextField) = true ∧
          p.form.TakenTexts other := by
      intro other hother
      rw [hu] at hother
      cases hother
      exact ⟨hv, htexts⟩
    constructor
    · rintro ⟨ht, ha, hi⟩
      exact ⟨ht, ha, hi, htaken⟩
    · rintro ⟨ht, ha, hi, _⟩
      exact ⟨ht, ha, hi⟩

/-- A press on a filled form, for a signed-in user. -/
def pressOf (title isbn : String) : SavePress String where
  form := { AddMenu.initial "" with
    titleTextField := title, authorTextField := "author", isbnTextField := isbn }
  uid := some "uid1"
  contents := plainContents

/-- A title of one space is saved as the empty title, and a dot in the ISBN
raises after the cover was stored. -/
theorem a_title_of_one_space_is_saved :
    ¬ (Rejects plainImages emptyStores (pressOf " " "978") ∨
        WritesComplete plainImages emptyStores (pressOf " " "978")) ∧
      ¬ (Rejects plainImages emptyStores (pressOf "first title" "978.2") ∨
        WritesComplete plainImages emptyStores (pressOf "first title" "978.2")) := by
  constructor
  · have heffects : (pressOf " " "978").effects =
        [.storeCoverImage ((pressOf " " "978").book "uid1"),
          .saveBook ((pressOf " " "978").book "uid1")] := by
      decide +kernel
    rw [or_iff_right (not_rejects_of_cover heffects),
      writesComplete_iff_of_saves (by decide +kernel) (by decide +kernel) heffects]
    rintro ⟨htitle, _⟩
    exact htitle (by decide +kernel)
  · have heffects : (pressOf "first title" "978.2").effects =
        [.storeCoverImage ((pressOf "first title" "978.2").book "uid1")] := by
      decide +kernel
    exact not_or.mpr ⟨not_rejects_of_cover heffects, not_writes_of_cover_only heffects⟩

end xellissime_book.save_presses
