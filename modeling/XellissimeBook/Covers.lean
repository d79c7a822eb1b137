-- The covers (`storeCoverImageInFirebaseStorage`, Model/Utilities.swift): the
-- image that is fetched for a book, and the object of the storage that it goes
-- to.
import XellissimeBook.Lookup

open path_tree
open xellissime_book.book_record xellissime_book.lookup

namespace xellissime_book.covers

/-- What the app calls and does not hold: `URL(string:)`, the images of UIKit,
and the path that the storage gives to a child of its folder `cover`. -/
structure Images (Data Image : Type) where
  isURL : String → Bool
  /-- `UIImage(named:)`. -/
  named : String → Option Image
  /-- `UIImage(data:)`. -/
  image : Data → Option Image
  /-- `jpegData(compressionQuality: 1)`. -/
  jpegData : Image → Option Data
  coverPath : String → String

variable {Data Image : Type}

def Images.url (I : Images Data Image) (text : String) : Option URL :=
  if I.isURL text then some { absoluteString := text } else none

/-- The reference of the cover of an ISBN, as its path. The upload and the cell
both make it from the ISBN alone. -/
def coverReference (I : Images Data Image) (isbn : String) : String :=
  I.coverPath (isbn ++ ".jpg")

/-- The objects of the storage. -/
abbrev Covers (Data : Type) := List (String × Data)

/-- The data that is uploaded for a book, none where a guard returns before.
`contents` is what `Data(contentsOf:)` finds at that moment. -/
def coverData (I : Images Data Image) (contents : URL → Option Data) (fromBook : Book) :
    Option Data := do
  let imageToStore ←
    if fromBook.bookCoverURL = "" then I.named "default"
    else do
      let url ← I.url fromBook.bookCoverURL
      let data ← contents url
      I.image data
  I.jpegData imageToStore

/-- `storeCoverImageInFirebaseStorage`, with an upload that succeeds. -/
def storeCoverImageInFirebaseStorage (I : Images Data Image) (contents : URL → Option Data)
    (fromBook : Book) (covers : Covers Data) : Covers Data :=
  match coverData I contents fromBook with
  | none => covers
  | some imageData => setKey (coverReference I fromBook.bookIsbn) imageData covers

/-! ## Covers of given responses -/

/-- Images that are their own data, in a storage that keeps the names. -/
def plainImages : Images String String where
  isURL text := !text.toList.contains ' '
  named name := some name
  image data := some data
  jpegData image := some image
  coverPath name := "cover/" ++ name

/-- Each URL has its own text as its image. -/
def plainContents (url : URL) : Option String := some url.absoluteString

end xellissime_book.covers
