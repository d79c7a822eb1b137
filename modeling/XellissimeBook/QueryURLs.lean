-- The law of the query URLs. The three builders put the ISBN into the query as
-- it is, so a Character that means something there changes the parameters.
import XellissimeBook.Lookup
import XellissimeBook.QueryStrings

open query_strings

namespace xellissime_book.lookup

variable {Data : Type}

/-! ## What the builders are for -/

/-- The keys of the bundle that the builders read. -/
def keyNames : List String := ["APIGoogle", "APIGoodReads"]

/-- The API keys are not empty, and they have letters and digits only. -/
def AlphanumericKeys (P : Platform Data) : Prop :=
  ∀ name ∈ keyNames, P.valueForAPIKey name ≠ "" ∧
    ∀ c ∈ (P.valueForAPIKey name).toList, c.isAlphanum = true

instance decidableAlphanumericKeys (P : Platform Data) : Decidable (AlphanumericKeys P) :=
  inferInstanceAs (Decidable (∀ name ∈ keyNames, _ ∧ _))

/-- The `endPoint` of the provider. -/
def Provider.endPoint : Provider → String
  | .googleBooks => "https://www.googleapis.com/books/v1/volumes"
  | .openLibrary => "https://openlibrary.org/api/books"
  | .goodReads => "https://www.goodreads.com/search.xml"

/-- The parameters that the URL is to carry, in their order. -/
def Provider.parameters (P : Platform Data) : Provider → String → List (String × String)
  | .googleBooks, isbn =>
    [("q", "+isbn:" ++ isbn), ("printType", "books"), ("key", P.valueForAPIKey "APIGoogle")]
  | .openLibrary, isbn => [("bibkeys", "ISBN:" ++ isbn), ("format", "json"), ("jscmd", "data")]
  | .goodReads, isbn => [("key", P.valueForAPIKey "APIGoodReads"), ("q", isbn)]

/-! ## The text of a URL -/

theorem url_eq_some {P : Platform Data} {text : String} {url : URL} (h : P.url text = some url) :
    url.absoluteString = text := by
  unfold Platform.url at h
  split at h
  · cases h
    rfl
  · cases h

/-- The builder joins its parameters and escapes nothing. -/
theorem absoluteString_fullUrl {P : Platform Data} {provider : Provider} {isbn : String} {url : URL}
    (h : provider.fullUrl P isbn = some url) :
    url.absoluteString.toList =
      provider.endPoint.toList ++ '?' :: splice (provider.parameters P isbn) := by
  cases provider with
  | googleBooks =>
    rw [url_eq_some h]
    simp [Provider.endPoint, Provider.parameters, splice, part]
  | openLibrary =>
    rw [url_eq_some h]
    simp [Provider.endPoint, Provider.parameters, splice, part]
  | goodReads =>
    rw [url_eq_some h]
    simp [Provider.endPoint, Provider.parameters, splice, part]

/-- No end point has a query or a fragment of its own. -/
theorem endPoint_plain (provider : Provider) :
    '?' ∉ provider.endPoint.toList ∧ '#' ∉ provider.endPoint.toList := by
  cases provider <;> simp [Provider.endPoint]

/-! ## The values of the parameters -/

theorem unreserved_of_alphanum {s : String} (h : ∀ c ∈ s.toList, c.isAlphanum = true) :
    Unreserved s := by
  intro c hc hin
  have halpha := h c hc
  simp only [List.mem_cons, List.not_mem_nil, or_false] at hin
  rcases hin with rfl | rfl | rfl
  · exact absurd halpha (by decide)
  · exact absurd halpha (by decide)
  · exact absurd halpha (by decide)

/-- Only the ISBN can have a reserved Character. -/
theorem unreserved_parameters_iff {P : Platform Data} (hkeys : AlphanumericKeys P)
    (provider : Provider) (isbn : String) :
    (∀ p ∈ provider.parameters P isbn, Unreserved p.2) ↔ Unreserved isbn := by
  have hkey : ∀ name ∈ keyNames, Unreserved (P.valueForAPIKey name) :=
    fun name hname => unreserved_of_alphanum (hkeys name hname).2
  have hgoogle : Unreserved (P.valueForAPIKey "APIGoogle") := hkey _ List.mem_cons_self
  have hgoodReads : Unreserved (P.valueForAPIKey "APIGoodReads") :=
    hkey _ (List.mem_cons_of_mem _ List.mem_cons_self)
  cases provider with
  | googleBooks =>
    have hfield : Unreserved "+isbn:" ∧ Unreserved "books" := by simp [Unreserved]
    simp [Provider.parameters, unreserved_append, hfield, hgoogle]
  | openLibrary =>
    have hfield : Unreserved "ISBN:" ∧ Unreserved "json" ∧ Unreserved "data" := by
      simp [Unreserved]
    simp [Provider.parameters, unreserved_append, hfield]
  | goodReads => simp [Provider.parameters, hgoodReads]

def Provider.parameterNames : Provider → List String
  | .googleBooks => ["q", "printType", "key"]
  | .openLibrary => ["bibkeys", "format", "jscmd"]
  | .goodReads => ["key", "q"]

theorem map_fst_parameters (P : Platform Data) (provider : Provider) (isbn : String) :
    (provider.parameters P isbn).map Prod.fst = provider.parameterNames := by
  cases provider <;> rfl

theorem plainName_parameters (P : Platform Data) (provider : Provider) (isbn : String) :
    ∀ p ∈ provider.parameters P isbn, PlainName p.1 := by
  have hnames : ∀ name ∈ provider.parameterNames, PlainName name := by
    cases provider <;> simp [Provider.parameterNames, PlainName]
  intro p hp
  apply hnames
  rw [← map_fst_parameters P provider isbn]
  exact List.mem_map_of_mem hp

/-! ## The law -/

/-- A reader of the URL gets the parameters of the builder, with the ISBN as it
was. -/
def CarriesTheIsbn (P : Platform Data) (provider : Provider) (isbn : String) (url : URL) : Prop :=
  urlParameters url.absoluteString = some (provider.parameters P isbn)

instance decidableCarriesTheIsbn (P : Platform Data) (provider : Provider) (isbn : String)
    (url : URL) : Decidable (CarriesTheIsbn P provider isbn url) :=
  inferInstanceAs (Decidable (_ = _))

/-- The URL carries the ISBN exactly when the ISBN has no separator, no mark of
a fragment and no percent sign. -/
theorem the_url_carries_the_isbn_iff (P : Platform Data) (provider : Provider) (isbn : String)
    (url : URL) (hkeys : AlphanumericKeys P) (hurl : provider.fullUrl P isbn = some url) :
    CarriesTheIsbn P provider isbn url ↔ Unreserved isbn := by
  obtain ⟨hquery, hfragment⟩ := endPoint_plain provider
  unfold CarriesTheIsbn
  rw [urlParameters_of_base hquery hfragment (absoluteString_fullUrl hurl),
    parameters_splice_iff ?_ (plainName_parameters P provider isbn)]
  · exact unreserved_parameters_iff hkeys provider isbn
  · cases provider <;> exact List.cons_ne_nil _ _

theorem the_url_carries_an_isbn_of_digits :
    ∃ url, Provider.openLibrary.fullUrl decodedPlatform "9782070411429" = some url ∧
      CarriesTheIsbn decodedPlatform .openLibrary "9782070411429" url := by
  have hkeys : AlphanumericKeys decodedPlatform := by
    simp [AlphanumericKeys, keyNames, decodedPlatform]
  have hisbn : Unreserved "9782070411429" := by simp [Unreserved]
  exact ⟨_, rfl, (the_url_carries_the_isbn_iff decodedPlatform .openLibrary "9782070411429" _
    hkeys rfl).mpr hisbn⟩

/-- An ISBN adds a parameter, cuts the key off, or comes back as another one. -/
theorem an_isbn_changes_the_query :
    (∃ url, Provider.goodReads.fullUrl decodedPlatform "978&key=k2" = some url ∧
        urlParameters url.absoluteString = some [("key", "k1"), ("q", "978"), ("key", "k2")] ∧
        ¬ CarriesTheIsbn decodedPlatform .goodReads "978&key=k2" url) ∧
      (∃ url, Provider.googleBooks.fullUrl decodedPlatform "978#" = some url ∧
        urlParameters url.absoluteString = some [("q", "+isbn:978")] ∧
        ¬ CarriesTheIsbn decodedPlatform .googleBooks "978#" url) ∧
      ∃ url, Provider.openLibrary.fullUrl decodedPlatform "97%38" = some url ∧
        urlParameters url.absoluteString =
          some [("bibkeys", "ISBN:978"), ("format", "json"), ("jscmd", "data")] ∧
        ¬ CarriesTheIsbn decodedPlatform .openLibrary "97%38" url := by
  -- the reader gets other parameters than those of the builder
  have hother {provider : Provider} {isbn : String} {url : URL} {ps : List (String × String)}
      (hread : urlParameters url.absoluteString = some ps)
      (hne : ps ≠ provider.parameters decodedPlatform isbn) :
      urlParameters url.absoluteString = some ps ∧
        ¬ CarriesTheIsbn decodedPlatform provider isbn url :=
    ⟨hread, fun h => hne (Option.some.inj (hread.symm.trans h))⟩
  refine ⟨⟨_, rfl, hother ?_ ?_⟩, ⟨_, rfl, hother ?_ ?_⟩, _, rfl, hother ?_ ?_⟩
  · decide +kernel
  · decide +kernel
  · decide +kernel
  · decide +kernel
  · decide +kernel
  · decide +kernel

end xellissime_book.lookup
