-- The law of the covers of the records. A record belongs to an owner and an
-- ISBN, and its cover is uploaded to an object that is named by the ISBN alone,
-- so another owner of the same ISBN replaces it.
import XellissimeBook.BookCell
import XellissimeBook.SavePresses
import XellissimeBook.SavedRecords
import XellissimeBook.SharedSlots

open path_tree runs shared_slots
open xellissime_book.add_menu xellissime_book.book_cell xellissime_book.book_record
open xellissime_book.covers xellissime_book.database xellissime_book.lookup
open xellissime_book.saved_records (ownerAndIsbn)

namespace xellissime_book.save_presses

variable {Data Image : Type}

/-! ## The uploads -/

/-- The cover that the press uploads, with its book. None where a field is
empty, no user is signed in or there is no image. -/
def SavePress.upload (I : Images Data Image) (p : SavePress Data) : Option (Book × Data) :=
  if p.EmptyField then none
  else
    p.uid.bind fun userId =>
      (coverData I p.contents (p.book userId)).map fun imageData => (p.book userId, imageData)

/-- The uploads of the presses, oldest first. -/
def uploads (I : Images Data Image) (presses : List (SavePress Data)) : List (Book × Data) :=
  presses.filterMap (SavePress.upload I)

/-- The stores after the presses. -/
def Stores.afterPresses (I : Images Data Image) (s : Stores Data)
    (presses : List (SavePress Data)) : Stores Data :=
  presses.foldl (fun s p => p.run I s) s

/-- The record of an upload: its owner and its ISBN. -/
def recordOf (upload : Book × Data) : String × String := ownerAndIsbn upload.1

/-- The object of a record. -/
def objectOf (I : Images Data Image) (record : String × String) : String :=
  coverReference I record.2

theorem covers_perform_saveBook (I : Images Data Image) (contents : URL → Option Data)
    (s : Stores Data) (book : Book) :
    (s.perform I contents (.saveBook book)).covers = s.covers := by
  unfold Stores.perform
  dsimp only
  split
  · rfl
  · rfl

/-- The cover of a press goes to the object of its record. -/
theorem covers_perform_storeCoverImage (I : Images Data Image) (s : Stores Data)
    {p : SavePress Data} {userId : String} (he : ¬ p.EmptyField) (hu : p.uid = some userId) :
    (s.perform I p.contents (.storeCoverImage (p.book userId))).covers =
      match p.upload I with
      | none => s.covers
      | some upload => setKey (objectOf I (recordOf upload)) upload.2 s.covers := by
  unfold SavePress.upload
  rw [if_neg he, hu, Option.bind_some]
  simp only [Stores.perform, storeCoverImageInFirebaseStorage]
  cases coverData I p.contents (p.book userId) with
  | none => rfl
  | some imageData => rfl

/-- A press writes its upload to the object, and nothing else to the covers. -/
theorem covers_run (I : Images Data Image) (s : Stores Data) (p : SavePress Data) :
    (p.run I s).covers =
      match p.upload I with
      | none => s.covers
      | some upload => setKey (objectOf I (recordOf upload)) upload.2 s.covers := by
  unfold SavePress.run
  rcases press_cases p with
    ⟨he, heffects⟩ | ⟨he, hu, heffects⟩ | ⟨userId, he, hu, ⟨_, heffects⟩ | ⟨_, heffects⟩⟩
  · rw [heffects, SavePress.upload, if_pos he]
    rfl
  · rw [heffects, SavePress.upload, if_neg he, hu]
    rfl
  · rw [heffects]
    exact covers_perform_storeCoverImage I s he hu
  · rw [heffects, List.foldl_cons, List.foldl_cons, List.foldl_nil, covers_perform_saveBook]
    exact covers_perform_storeCoverImage I s he hu

/-- An object holds its last upload, or what it held at first. -/
theorem getKey_afterPresses (I : Images Data Image) (s : Stores Data) (name : String)
    (presses : List (SavePress Data)) :
    getKey name (s.afterPresses I presses).covers =
      (lastAt (slotOf recordOf (objectOf I)) Prod.snd name (uploads I presses)).or
        (getKey name s.covers) := by
  induction presses using List.reverseRecOn with
  | nil => rfl
  | append_singleton presses p ih =>
    unfold Stores.afterPresses uploads at ih ⊢
    rw [List.foldl_append, List.foldl_cons, List.foldl_nil, covers_run, List.filterMap_append]
    cases hp : p.upload I with
    | none => simpa [hp] using ih
    | some upload =>
      rw [List.filterMap_cons_some hp, List.filterMap_nil]
      by_cases hname : slotOf recordOf (objectOf I) upload = name
      · rw [lastAt_snoc_self _ Prod.snd hname, ← hname]
        exact getKey_setKey_self _ _ _
      · rw [lastAt_snoc_of_ne _ Prod.snd hname, ← ih]
        exact getKey_setKey_of_ne (Ne.symm hname) _ _

/-! ## The image of a record -/

/-- The image that the list shows for the record of a book: the list decodes the
record, and the cell of the row downloads its object. -/
def shownCover (I : Images Data Image) (covers : Covers Data) (key : String) (book : Book) :
    Option Data := do
  let row ← decodeBook (.dataSnapshot key (bookToSaveDictionary book))
  let c ← cellForRowAt [row] 0
  getKey (c.coverRequest I).storageRef covers

theorem shownCover_eq (I : Images Data Image) (covers : Covers Data) (key : String)
    (book : Book) :
    shownCover I covers key book = getKey (coverReference I book.bookIsbn) covers := by
  unfold shownCover
  rw [decodeBook_bookToSaveDictionary]
  rfl

/-- Each record shows the image of its own last upload. -/
def ShowsOwnCovers (I : Images Data Image) (s : Stores Data) (presses : List (SavePress Data)) :
    Prop :=
  ∀ key book data,
    lastAt recordOf Prod.snd (ownerAndIsbn book) (uploads I presses) = some data →
    shownCover I (s.afterPresses I presses).covers key book = some data

/-- Where a record of another owner or ISBN has its cover at the object of the
upload, the object holds the same image already. -/
def SparesOtherRecords (I : Images Data Image) : List (Book × Data) → Book × Data → Prop :=
  SparesOthers recordOf (objectOf I) Prod.snd

theorem showsOwnCovers_iff_ownLast (I : Images Data Image) (s : Stores Data)
    (presses : List (SavePress Data)) :
    ShowsOwnCovers I s presses ↔ OwnLast recordOf (objectOf I) Prod.snd (uploads I presses) := by
  -- where a record has an upload, its object has one too
  have hshown : ∀ key book data,
      lastAt recordOf Prod.snd (ownerAndIsbn book) (uploads I presses) = some data →
      shownCover I (s.afterPresses I presses).covers key book =
        lastAt (slotOf recordOf (objectOf I)) Prod.snd (objectOf I (ownerAndIsbn book))
          (uploads I presses) := by
    intro key book data hlast
    obtain ⟨upload, hmem, hown, _⟩ := mem_of_lastAt hlast
    obtain ⟨held, hheld⟩ := exists_lastAt (slotOf recordOf (objectOf I)) Prod.snd hmem
    have hobject : slotOf recordOf (objectOf I) upload = objectOf I (ownerAndIsbn book) :=
      congrArg (objectOf I) hown
    rw [hobject] at hheld
    rw [shownCover_eq, getKey_afterPresses]
    unfold objectOf ownerAndIsbn at hheld ⊢
    rw [hheld]
    rfl
  constructor
  · rintro h ⟨owner, isbn⟩ data hlast
    let book : Book := { Book.new "" "" isbn with bookOwner := owner }
    have hbook := h "" book data hlast
    rw [hshown "" book data hlast] at hbook
    exact hbook
  · intro h key book data hlast
    rw [hshown key book data hlast]
    exact h (ownerAndIsbn book) data hlast

/-! ## The law -/

/-- After every one of the presses each record shows the image of its own last
upload, exactly when no upload replaces the image of another record. -/
theorem the_records_show_their_own_covers_iff (I : Images Data Image) (s : Stores Data)
    (presses : List (SavePress Data)) :
    (∀ before, before <+: presses → ShowsOwnCovers I s before) ↔
      EachAfter (SparesOtherRecords I) (uploads I presses) := by
  induction presses using List.reverseRecOn with
  | nil =>
    refine iff_of_true ?_ (eachAfter_nil _)
    intro before hbefore
    rw [List.prefix_nil.mp hbefore, showsOwnCovers_iff_ownLast]
    exact ownLast_nil
  | append_singleton presses p ih =>
    rw [forall_prefix_snoc]
    have hown : ∀ h : ∀ before, before <+: presses → ShowsOwnCovers I s before,
        OwnLast recordOf (objectOf I) Prod.snd (uploads I presses) :=
      fun h => (showsOwnCovers_iff_ownLast I s presses).mp (h presses (List.prefix_refl _))
    cases hp : p.upload I with
    | none =>
      have huploads : uploads I (presses ++ [p]) = uploads I presses := by
        simp [uploads, List.filterMap_append, hp]
      rw [huploads, showsOwnCovers_iff_ownLast, huploads, ih]
      exact and_iff_left_of_imp fun h => hown (ih.mpr h)
    | some upload =>
      have huploads : uploads I (presses ++ [p]) = uploads I presses ++ [upload] := by
        simp [uploads, List.filterMap_append, hp]
      rw [huploads, eachAfter_snoc, ← ih, showsOwnCovers_iff_ownLast, huploads]
      exact and_congr_right fun h => ownLast_snoc_iff (hown h)

/-- A press of a user on the form of the ISBN, after a lookup that gave the
cover URL. -/
def pressOfUser (userId isbn bookCoverURL : String) : SavePress String where
  form := { AddMenu.initial "" with
    titleTextField := "first title", authorTextField := "author", isbnTextField := isbn
    bookToSave := some { Book.new "" "" isbn with bookCoverURL } }
  uid := some userId
  contents := plainContents

/-- The second owner of an ISBN has no cover URL, and the first one's record
shows the default image. -/
theorem the_default_image_replaces_a_cover :
    ¬ ∀ before, before <+: [pressOfUser "uid1" "978" "https://covers/978",
        pressOfUser "uid2" "978" ""] → ShowsOwnCovers plainImages emptyStores before := by
  intro h
  have hall := h _ (List.prefix_refl _)
  have hshown := hall "" { Book.new "" "" "978" with bookOwner := "uid1" } "https://covers/978"
    (by decide +kernel)
  revert hshown
  decide +kernel

end xellissime_book.save_presses
