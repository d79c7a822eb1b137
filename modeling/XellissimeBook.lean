import XellissimeBook.BookStore
import XellissimeBook.SavedMetadata
import XellissimeBook.SearchButtons
import XellissimeBook.DeletedRows
import XellissimeBook.SavedRecords
import XellissimeBook.OneSearch
import XellissimeBook.CleanedText
import XellissimeBook.ErrorMessage
import XellissimeBook.GoogleAcceptance
import XellissimeBook.LoadedRows
import XellissimeBook.ExclusiveSearch
import XellissimeBook.NewestLookup
import XellissimeBook.Covers
import XellissimeBook.SavePresses
import XellissimeBook.CompleteBooks
import XellissimeBook.BookCell
import XellissimeBook.SharedSlots
import XellissimeBook.RecordCovers
import XellissimeBook.QueryStrings
import XellissimeBook.QueryURLs
import XellissimeBook.SearchResult
import XellissimeBook.DictionaryRuns
import XellissimeBook.RowOrder
import XellissimeBook.PersistentConnection
import XellissimeBook.Recovery
import XellissimeBook.ClientRuns
import XellissimeBook.MessageSegments
