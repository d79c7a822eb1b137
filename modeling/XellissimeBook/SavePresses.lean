-- A press on the save button, with what it does to the two stores: the records
-- of the database and the covers of the storage.
import XellissimeBook.AddMenu
import XellissimeBook.Covers

open xellissime_book.add_menu xellissime_book.book_record xellissime_book.covers
open xellissime_book.database xellissime_book.lookup

namespace xellissime_book.save_presses

variable {Data Image : Type}

/-! ## The press -/

structure Stores (Data : Type) where
  books : Database
  covers : Covers Data

def emptyStores : Stores String := { books := .empty, covers := [] }

/-- A press on the save button of a form, with the uid of the current user and
what the cover URLs give. -/
structure SavePress (Data : Type) where
  form : AddMenu
  uid : Option String
  contents : URL → Option Data

/-- The form after the press. -/
def SavePress.after (p : SavePress Data) : AddMenu := p.form.saveBookInDatabase p.uid

/-- The effects of the press, oldest first. -/
def SavePress.effects (p : SavePress Data) : List Effect :=
  p.after.log.drop p.form.log.length

/-- What an effect does to the stores. -/
def Stores.perform (I : Images Data Image) (contents : URL → Option Data) (s : Stores Data) :
    Effect → Stores Data
  | .storeCoverImage fromBook =>
    { s with covers := storeCoverImageInFirebaseStorage I contents fromBook s.covers }
  | .saveBook book =>
    match saveBook s.books book with
    | .ok books => { s with books }
    | .error _ => s
  | .request _ _ _ | .delivered _ _ | .alert _ | .notFoundDialog => s

/-- The stores after the press. -/
def SavePress.run (I : Images Data Image) (p : SavePress Data) (s : Stores Data) : Stores Data :=
  p.effects.foldl (Stores.perform I p.contents) s

/-! ## What a press does -/

/-- A field has no text at all. -/
def SavePress.EmptyField (p : SavePress Data) : Prop :=
  p.form.titleTextField = "" ∨ p.form.authorTextField = "" ∨ p.form.isbnTextField = ""

instance decidableEmptyField (p : SavePress Data) : Decidable p.EmptyField :=
  inferInstanceAs (Decidable (_ ∨ _))

/-- The book that the press saves for a user. -/
def SavePress.book (p : SavePress Data) (userId : String) : Book :=
  bookOfFields userId p.form.titleTextField p.form.authorTextField p.form.isbnTextField
    p.form.bookToSave

theorem press_of_emptyField {p : SavePress Data} (h : p.EmptyField) :
    p.after = p.form.emit (.alert .needAllFieldsCompleted) :=
  saveBookInDatabase_of_empty h

theorem press_of_no_user {p : SavePress Data} (h : ¬ p.EmptyField) (hu : p.uid = none) :
    p.after = p.form := by
  unfold SavePress.after
  rw [hu]
  exact saveBookInDatabase_of_no_user h

/-- The effects that the press added to the log. -/
theorem effects_of_log {p : SavePress Data} {effects : List Effect}
    (h : p.after.log = p.form.log ++ effects) : p.effects = effects := by
  unfold SavePress.effects
  rw [h, List.drop_left]

/-- A press is answered with an alert, or with nothing where no user is signed
in. Else it stores the cover, and it saves the book where the id is a path and
the database takes the texts. -/
theorem press_cases (p : SavePress Data) :
    (p.EmptyField ∧ p.effects = [.alert .needAllFieldsCompleted]) ∨
      (¬ p.EmptyField ∧ p.uid = none ∧ p.effects = []) ∨
      ∃ userId, ¬ p.EmptyField ∧ p.uid = some userId ∧
        ((¬ (isValidPathString (p.book userId).bookId = true ∧ p.form.TakenTexts userId) ∧
            p.effects = [.storeCoverImage (p.book userId)]) ∨
          ((isValidPathString (p.book userId).bookId = true ∧ p.form.TakenTexts userId) ∧
            p.effects = [.storeCoverImage (p.book userId), .saveBook (p.book userId)])) := by
  by_cases he : p.EmptyField
  · refine Or.inl ⟨he, effects_of_log ?_⟩
    rw [press_of_emptyField he]
    rfl
  · cases hu : p.uid with
    | none =>
      refine Or.inr (Or.inl ⟨he, rfl, effects_of_log ?_⟩)
      rw [press_of_no_user he hu, List.append_nil]
    | some userId =>
      refine Or.inr (Or.inr ⟨userId, he, rfl, ?_⟩)
      have hbook : bookOfFields userId p.form.titleTextField p.form.authorTextField
          p.form.isbnTextField p.form.bookToSave = p.book userId := rfl
      have htexts := shortTexts_bookOfFields_iff p.form userId
      rw [hbook] at htexts
      rw [← htexts]
      cases hreference : recordReference (p.book userId) with
      | ok ref =>
        obtain ⟨hchild, hshort⟩ := recordReference_eq_ok_iff.mp hreference
        refine Or.inr ⟨⟨(child_eq_ok_iff.mp hchild).1, hshort⟩, effects_of_log ?_⟩
        unfold SavePress.after
        rw [hu, saveBookInDatabase_of_ok he hbook hreference]
        simp [AddMenu.emit]
      | error exception =>
        refine Or.inl ⟨?_, effects_of_log ?_⟩
        · rintro ⟨hv, hshort⟩
          cases hreference.symm.trans (recordReference_eq_ok_iff.mpr ⟨child_ok hv, hshort⟩)
        · unfold SavePress.after
          rw [hu, saveBookInDatabase_of_error he hbook hreference]
          rfl

end xellissime_book.save_presses
