-- The law of the fallback chain: a search is the list of the three providers,
-- asked up to the first one that finds a book. The lookups call back with any
-- outcome here, and the user may type in the meantime.
import Mathlib.Data.List.Basic
import XellissimeBook.ExclusiveSearch

/-! ## Parties that are asked up to the first success -/

namespace first_success

variable {π β : Type*} (outcome : π → Option β)

/-- The parties that are asked, with the one that succeeds. -/
def asked : List π → List π
  | [] => []
  | p :: rest => p :: if (outcome p).isSome then [] else asked rest

variable {outcome} {before rest : List π} {p : π} {b : β}

/-- After failures, the next party is asked. -/
theorem asked_append (h : ∀ q ∈ before, outcome q = none) :
    asked outcome (before ++ rest) = before ++ asked outcome rest := by
  induction before with
  | nil => rfl
  | cons q before ih =>
    obtain ⟨hq, hbefore⟩ := List.forall_mem_cons.mp h
    rw [List.cons_append, asked, hq, if_neg (by simp), ih hbefore]
    rfl

theorem findSome?_append_of_failed (h : ∀ q ∈ before, outcome q = none) :
    (before ++ rest).findSome? outcome = rest.findSome? outcome := by
  rw [List.findSome?_append, List.findSome?_eq_none_iff.mpr h, Option.none_or]

/-- The search stops at the first success. -/
theorem asked_of_success (h : ∀ q ∈ before, outcome q = none) (hp : outcome p = some b) :
    asked outcome (before ++ p :: rest) = before ++ [p] ∧
      (before ++ p :: rest).findSome? outcome = some b := by
  rw [asked_append h, findSome?_append_of_failed h, asked, hp, List.findSome?_cons, hp]
  exact ⟨rfl, rfl⟩

/-- Where all fail, all are asked. -/
theorem asked_of_failed (h : ∀ q ∈ before, outcome q = none) :
    asked outcome before = before ∧ before.findSome? outcome = none := by
  have hasked : asked outcome (before ++ []) = before ++ asked outcome [] := asked_append h
  rw [List.append_nil] at hasked
  exact ⟨hasked.trans (List.append_nil before), List.findSome?_eq_none_iff.mpr h⟩

/-- A party behind failures is asked. -/
theorem length_lt_asked (h : ∀ q ∈ before, outcome q = none) :
    before.length < (asked outcome (before ++ p :: rest)).length := by
  rw [asked_append h, asked, List.length_append, List.length_cons]
  omega

end first_success

open first_success runs
open xellissime_book.book_record xellissime_book.lookup

namespace xellissime_book.add_menu

variable {Data : Type}

/-! ## A search with given outcomes -/

/-- A lookup calls back, or something else happens to the form. -/
inductive SearchEvent (Data : Type) where
  | callBack (id : Nat)
  | form (event : Event Data)

def answerOf : Option Book → Answer
  | some book => found book
  | none => failed

/-- One step, where each provider calls back with its outcome: a book, or none
for a failure. -/
def searchStep (P : Platform Data) (outcome : Provider → Option Book) (f : AddMenu) :
    SearchEvent Data → Option AddMenu
  | .callBack id =>
    if f.raised.isSome then none
    else
      (f.network.tasks.find? fun t => t.id = id).map fun t =>
        AddMenu.callBack P t
          { f with network := { f.network with tasks := f.network.tasks.filter (·.id ≠ id) } }
          (answerOf (outcome t.provider))
  | .form event => step P f event

/-- A response that answers with the outcome is such a call back. -/
theorem response_calls_back {P : Platform Data} {outcome : Provider → Option Book}
    {f f' : AddMenu} {id : Nat} {completion : Completion Data}
    (hans : ∀ t ∈ f.network.tasks, t.id = id →
      t.provider.complete P t.isbn completion = [answerOf (outcome t.provider)])
    (h : step P f (.response id completion) = some f') :
    searchStep P outcome f (.callBack id) = some f' := by
  simp only [step] at h
  split at h
  · cases h
  · rename_i hraised
    obtain ⟨⟨t, network⟩, hfin, rfl⟩ := Option.map_eq_some_iff.mp h
    obtain ⟨ht, hid, hnetwork⟩ := finish_eq_some hfin
    have hfind : f.network.tasks.find? (fun t => t.id = id) = some t := by
      unfold NetworkManager.finish at hfin
      split at hfin
      · cases hfin
      · rename_i found hfound
        split at hfin
        · cases hfin
        · cases hfin
          exact hfound
    simp only [searchStep, if_neg hraised, hfind, Option.map_some, hans t ht hid, hnetwork,
      List.foldl_cons, List.foldl_nil]

def SearchEvent.ofEvent : Event Data → SearchEvent Data
  | .response id _ => .callBack id
  | event => .form event

/-- Each response answers with the outcome of its provider. -/
def AnswersWith (P : Platform Data) (outcome : Provider → Option Book) (f : AddMenu) :
    Event Data → Prop
  | .response id completion =>
    ∀ t ∈ f.network.tasks, t.id = id →
      t.provider.complete P t.isbn completion = [answerOf (outcome t.provider)]
  | _ => True

/-- So a run of the form whose responses answer with the outcomes is a run of
call backs. -/
theorem run_of_responses {P : Platform Data} {outcome : Provider → Option Book}
    {past : List (AddMenu × Event Data)} {f g : AddMenu} {es : List (Event Data)}
    (hm : Meets (step P) (fun _ => AnswersWith P outcome) past f es)
    (hr : run (step P) f es = some g) :
    run (searchStep P outcome) f (es.map SearchEvent.ofEvent) = some g := by
  induction es generalizing f past with
  | nil => exact hr
  | cons event es ih =>
    rw [run_cons] at hr
    obtain ⟨f', hstep, hrest⟩ := Option.bind_eq_some_iff.mp hr
    obtain ⟨hans, hm⟩ := hm
    rw [hstep] at hm
    have hsame : searchStep P outcome f (SearchEvent.ofEvent event) = some f' := by
      cases event with
      | response id completion => exact response_calls_back hans hstep
      | viewDidLoad | viewWillAppear | editTitle _ | editAuthor _ | editIsbn _ | scan _
      | addManually | search | save _ | cancelDialog => exact hstep
    rw [List.map_cons, run_cons, hsame, Option.bind_some]
    exact ih hm hrest

/-- Neither the load of the view nor a response. -/
def isOfTheUser : Event Data → Bool
  | .viewDidLoad | .response _ _ => false
  | _ => true

/-- What happens while a search runs: its lookups call back, and the user does
what leaves the ISBN field as it is. -/
def WhileSearching (P : Platform Data) (f : AddMenu) : SearchEvent Data → Prop
  | .callBack _ => True
  | .form event =>
    f.network.tasks ≠ [] ∧ isOfTheUser event = true ∧
      ∀ f' ∈ step P f event, f'.isbnTextField = f.isbnTextField

instance decidableWhileSearching (P : Platform Data) (f : AddMenu) :
    ∀ event : SearchEvent Data, Decidable (WhileSearching P f event)
  | .callBack _ => isTrue trivial
  | .form _ => inferInstanceAs (Decidable (_ ∧ _ ∧ _))

/-! ## What a search is for -/

/-- The providers, in the order of the chain. -/
def providers : List Provider := [.googleBooks, .openLibrary, .goodReads]

/-- The requests to the providers for the ISBN. -/
def requestsTo (P : Platform Data) (isbn : String) (asked : List Provider) : List Effect :=
  asked.filterMap fun provider =>
    (provider.fullUrl P isbn).map fun fullUrl => .request provider isbn fullUrl

/-- How the search ends: with the first book, or with the dialog. -/
def ending (outcome : Provider → Option Book) (isbn : String) : Effect :=
  match providers.findSome? outcome with
  | some book => .delivered isbn book
  | none => .notFoundDialog

def titleEdit : SearchEvent Data → Option String
  | .form (.editTitle text) => some text
  | _ => none

def authorEdit : SearchEvent Data → Option String
  | .form (.editAuthor text) => some text
  | _ => none

/-- The text of a field after the typing. -/
def typed (edit : SearchEvent Data → Option String) (text : String)
    (es : List (SearchEvent Data)) : String :=
  es.foldl (fun text event => (edit event).getD text) text

def isCallBack : SearchEvent Data → Bool
  | .callBack _ => true
  | .form _ => false

/-- The number of call backs. -/
def callBacks (es : List (SearchEvent Data)) : Nat := es.countP isCallBack

/-- The search of the form `f0` is over in `f`. The fields had the title and the
author when it ended, from before the search or typed in the meantime. -/
structure EndsWithFirst (P : Platform Data) (outcome : Provider → Option Book) (f0 : AddMenu)
    (title author : String) (f : AddMenu) : Prop where
  log : f.log = f0.log ++ requestsTo P f0.isbnFromTextField (asked outcome providers) ++
    [ending outcome f0.isbnFromTextField]
  isbn : f.isbnTextField = f0.isbnTextField
  buttons : ButtonsEnabled f
  success : ∀ book, providers.findSome? outcome = some book →
    f.titleTextField = book.bookTitle ∧ f.authorTextField = book.bookAuthor ∧
      f.bookToSave = some book
  failure : providers.findSome? outcome = none →
    f.titleTextField = title ∧ f.authorTextField = author ∧
      ∃ book, f.bookToSave = some book ∧ book.bookEditor = none ∧ book.bookCoverURL = ""

/-! ## A search under way -/

/-- The providers before have failed, and the lookup of the next one is in
flight. -/
structure Underway (P : Platform Data) (outcome : Provider → Option Book) (f0 : AddMenu)
    (before : List Provider) (provider : Provider) (rest : List Provider) (f : AddMenu) :
    Prop where
  split : providers = before ++ provider :: rest
  failed : ∀ q ∈ before, outcome q = none
  task : ∃ t, f.network.tasks = [t] ∧ t.provider = provider ∧ t.isbn = f0.isbnFromTextField
  search : f.searchEnabled = false
  save : f.addToDatabaseEnabled = false
  raised : f.raised = none
  isbn : f.isbnTextField = f0.isbnTextField
  book : f.bookToSave = some (Book.new "" "" "")
  log : f.log = f0.log ++ requestsTo P f0.isbnFromTextField (before ++ [provider])

theorem next_of_split {before rest : List Provider} {provider : Provider}
    (h : providers = before ++ provider :: rest) : next provider = rest.head? := by
  unfold providers at h
  match before, h with
  | [], h =>
    cases h
    rfl
  | [_], h =>
    cases h
    rfl
  | [_, _], h =>
    cases h
    rfl
  | _ :: _ :: _ :: before, h => simp at h

/-- The URLs of the three providers can be built. -/
def AllUrls (P : Platform Data) (isbn : String) : Prop :=
  ∀ provider, (Provider.fullUrl P provider isbn).isSome

/-- A call of the next provider, with no lookup in flight. -/
theorem underway_providerCall {P : Platform Data} {outcome : Provider → Option Book}
    {f0 f : AddMenu} {before rest : List Provider} {provider : Provider}
    (hurls : AllUrls P f0.isbnFromTextField) (hsplit : providers = before ++ provider :: rest)
    (hfailed : ∀ q ∈ before, outcome q = none) (hnone : f.network.tasks = [])
    (hsearch : f.searchEnabled = false) (hsave : f.addToDatabaseEnabled = false)
    (hraised : f.raised = none) (hisbn : f.isbnTextField = f0.isbnTextField)
    (hlog : f.log = f0.log ++ requestsTo P f0.isbnFromTextField before) :
    Underway P outcome f0 before provider rest (f.providerCall P provider) := by
  have hfield : f.isbnFromTextField = f0.isbnFromTextField := by
    unfold AddMenu.isbnFromTextField
    rw [hisbn]
  obtain ⟨fullUrl, hu⟩ := Option.isSome_iff_exists.mp (hurls provider)
  rw [← hfield] at hu
  rw [providerCall_of_url hu]
  refine ⟨hsplit, hfailed, ?_, hsearch, hsave, hraised, hisbn, rfl, ?_⟩
  · refine ⟨⟨f.network.nextId, provider, f.isbnFromTextField, fullUrl, false⟩, ?_, rfl, hfield⟩
    simp [NetworkManager.start, NetworkManager.cancelTask, hnone]
  · rw [hfield] at hu
    simp [AddMenu.emit, AddMenu.emptyBook, hlog, requestsTo, hu, hfield]

/-! ## One step of a search -/

/-- The form with the lookup in flight taken out. -/
def AddMenu.withoutTasks (f : AddMenu) : AddMenu :=
  { f with network := { f.network with tasks := [] } }

/-- The press starts with Google Books. -/
theorem underway_search {P : Platform Data} (outcome : Provider → Option Book) {f0 f1 : AddMenu}
    (hf : Exclusive f0) (hurls : AllUrls P f0.isbnFromTextField)
    (h : step P f0 .search = some f1) :
    Underway P outcome f0 [] .googleBooks [.openLibrary, .goodReads] f1 := by
  rw [search_eq h]
  simp only [step] at h
  split at h
  · cases h
  · rename_i hraised
    split at h
    · rename_i henabled
      have hnone : f0.raised = none := by simpa using hraised
      have hlog : f0.log = f0.log ++ requestsTo P f0.isbnFromTextField [] :=
        (List.append_nil f0.log).symm
      exact underway_providerCall (f := f0.toggleIndicator false) hurls rfl (by simp)
        (hf.free henabled) rfl rfl hnone rfl hlog
    · cases h

/-- The lookup in flight can call back, and nothing else can. -/
theorem callBack_eq {P : Platform Data} {outcome : Provider → Option Book} {f0 f : AddMenu}
    {before rest : List Provider} {provider : Provider}
    (hf : Underway P outcome f0 before provider rest f) :
    ∃ t, t.provider = provider ∧ t.isbn = f0.isbnFromTextField ∧
      ∀ id, searchStep P outcome f (.callBack id) =
        if t.id = id then
          some (AddMenu.callBack P t f.withoutTasks (answerOf (outcome provider)))
        else none := by
  obtain ⟨t, htasks, hprovider, hisbn⟩ := hf.task
  refine ⟨t, hprovider, hisbn, fun id => ?_⟩
  have hraised : ¬ f.raised.isSome = true := by simp [hf.raised]
  simp only [searchStep, if_neg hraised, htasks]
  by_cases hid : t.id = id
  · simp [hid, hprovider, AddMenu.withoutTasks]
  · simp [hid]

/-- A book ends the search. -/
theorem ends_of_book {P : Platform Data} {outcome : Provider → Option Book} {f0 f f' : AddMenu}
    {before rest : List Provider} {provider : Provider} {id : Nat} {book : Book}
    (hf : Underway P outcome f0 before provider rest f) (hbook : outcome provider = some book)
    (h : searchStep P outcome f (.callBack id) = some f') :
    f'.network.tasks = [] ∧ (asked outcome providers).length = before.length + 1 ∧
      EndsWithFirst P outcome f0 f.titleTextField f.authorTextField f' := by
  obtain ⟨t, hprovider, hisbn, hstep⟩ := callBack_eq hf
  rw [hstep, hbook] at h
  split at h
  · cases h
    obtain ⟨hasked, hfirst⟩ := asked_of_success hf.failed hbook
    rw [← hf.split] at hasked hfirst
    refine ⟨rfl, by rw [hasked, List.length_append]; rfl, ?_, hf.isbn, ⟨rfl, rfl⟩, ?_, ?_⟩
    · unfold ending
      rw [hasked, hfirst, ← hf.log, ← hisbn]
      rfl
    · intro first hsome
      cases hfirst.symm.trans hsome
      exact ⟨rfl, rfl, rfl⟩
    · intro hnone
      cases hfirst.symm.trans hnone
  · cases h

/-- A failure with no provider left ends it too. -/
theorem ends_of_failure {P : Platform Data} {outcome : Provider → Option Book}
    {f0 f f' : AddMenu} {before : List Provider} {provider : Provider} {id : Nat}
    (hf : Underway P outcome f0 before provider [] f) (hfail : outcome provider = none)
    (h : searchStep P outcome f (.callBack id) = some f') :
    f'.network.tasks = [] ∧ (asked outcome providers).length = before.length + 1 ∧
      EndsWithFirst P outcome f0 f.titleTextField f.authorTextField f' := by
  obtain ⟨t, hprovider, hisbn, hstep⟩ := callBack_eq hf
  rw [hstep, hfail] at h
  split at h
  · cases h
    have hall : ∀ q ∈ before ++ [provider], outcome q = none := by
      intro q hq
      rcases List.mem_append.mp hq with hq | hq
      · exact hf.failed q hq
      · rw [List.mem_singleton.mp hq]
        exact hfail
    obtain ⟨hasked, hfirst⟩ := asked_of_failed hall
    rw [← hf.split] at hasked hfirst
    have hend : AddMenu.callBack P t f.withoutTasks (answerOf none) =
        (f.withoutTasks.toggleIndicator true).emit .notFoundDialog := by
      change AddMenu.tryNext P _ t.provider = _
      rw [tryNext_eq, hprovider, next_of_split hf.split]
      rfl
    rw [hend]
    refine ⟨rfl, ?_, ?_, hf.isbn, ⟨rfl, rfl⟩, ?_, ?_⟩
    · rw [hasked, hf.split, List.length_append]
      rfl
    · unfold ending
      rw [hasked, hfirst, hf.split, ← hf.log]
      rfl
    · intro book hsome
      cases hfirst.symm.trans hsome
    · intro _
      exact ⟨rfl, rfl, _, hf.book, rfl, rfl⟩
  · cases h

theorem texts_providerCall (P : Platform Data) (provider : Provider) (f : AddMenu) :
    (f.providerCall P provider).titleTextField = f.titleTextField ∧
      (f.providerCall P provider).authorTextField = f.authorTextField := by
  cases hu : provider.fullUrl P f.isbnFromTextField with
  | none =>
    rw [providerCall_of_no_url hu]
    exact ⟨rfl, rfl⟩
  | some fullUrl =>
    rw [providerCall_of_url hu]
    exact ⟨rfl, rfl⟩

/-- A failure hands over to the provider behind. -/
theorem underway_of_failure {P : Platform Data} {outcome : Provider → Option Book}
    {f0 f f' : AddMenu} {before rest : List Provider} {provider provider' : Provider} {id : Nat}
    (hurls : AllUrls P f0.isbnFromTextField)
    (hf : Underway P outcome f0 before provider (provider' :: rest) f)
    (hfail : outcome provider = none) (h : searchStep P outcome f (.callBack id) = some f') :
    f'.titleTextField = f.titleTextField ∧ f'.authorTextField = f.authorTextField ∧
      Underway P outcome f0 (before ++ [provider]) provider' rest f' := by
  obtain ⟨t, hprovider, hisbn, hstep⟩ := callBack_eq hf
  rw [hstep, hfail] at h
  split at h
  · cases h
    have hnext : AddMenu.callBack P t f.withoutTasks (answerOf none) =
        f.withoutTasks.providerCall P provider' := by
      change AddMenu.tryNext P _ t.provider = _
      rw [tryNext_eq, hprovider, next_of_split hf.split]
      rfl
    rw [hnext]
    have hunder : Underway P outcome f0 (before ++ [provider]) provider' rest
        (f.withoutTasks.providerCall P provider') := by
      apply underway_providerCall (f := f.withoutTasks) hurls ?_ ?_ rfl hf.search hf.save hf.raised
        hf.isbn hf.log
      · rw [hf.split, List.append_assoc]
        rfl
      · intro q hq
        rcases List.mem_append.mp hq with hq | hq
        · exact hf.failed q hq
        · rw [List.mem_singleton.mp hq]
          exact hfail
    obtain ⟨htitle, hauthor⟩ := texts_providerCall P provider' f.withoutTasks
    exact ⟨htitle, hauthor, hunder⟩
  · cases h

/-- While the buttons are disabled, what the user does changes texts only. -/
theorem texts_of_user {P : Platform Data} {f f' : AddMenu} {event : Event Data}
    (hu : isOfTheUser event = true) (hsearch : f.searchEnabled = false)
    (hsave : f.addToDatabaseEnabled = false) (h : step P f event = some f') :
    ∃ isbn scanned, f' =
      { f with
        titleTextField := (titleEdit (.form event)).getD f.titleTextField
        authorTextField := (authorEdit (.form event)).getD f.authorTextField
        isbnTextField := isbn
        scannedIsbn := scanned } := by
  simp only [step] at h
  split at h
  · cases h
  · cases event with
    | viewDidLoad | response id completion => cases hu
    | search => simp [hsearch] at h
    | save uid => simp [hsave] at h
    | viewWillAppear =>
      cases h
      split
      · exact ⟨f.scannedIsbn, f.scannedIsbn, rfl⟩
      · exact ⟨f.isbnTextField, f.scannedIsbn, rfl⟩
    | editTitle text | editAuthor text | editIsbn text | scan code | addManually
    | cancelDialog =>
      cases h
      exact ⟨_, _, rfl⟩

/-- What the user does while the search runs leaves it where it is. -/
theorem underway_of_form {P : Platform Data} {outcome : Provider → Option Book}
    {f0 f f' : AddMenu} {before rest : List Provider} {provider : Provider} {event : Event Data}
    (hf : Underway P outcome f0 before provider rest f)
    (hw : WhileSearching P f (.form event)) (h : step P f event = some f') :
    f'.titleTextField = (titleEdit (.form event)).getD f.titleTextField ∧
      f'.authorTextField = (authorEdit (.form event)).getD f.authorTextField ∧
      Underway P outcome f0 before provider rest f' := by
  obtain ⟨_, hu, hkeeps⟩ := hw
  have hisbn := hkeeps f' h
  obtain ⟨isbn, scanned, rfl⟩ := texts_of_user hu hf.search hf.save h
  exact ⟨rfl, rfl, hf.split, hf.failed, hf.task, hf.search, hf.save, hf.raised,
    hisbn.trans hf.isbn, hf.book, hf.log⟩

/-! ## The run of a search -/

/-- The search is under way after the events, or it is over. -/
inductive Reached (P : Platform Data) (outcome : Provider → Option Book) (f0 : AddMenu)
    (title author : String) (answered : Nat) (f : AddMenu) : Prop
  | underway (before : List Provider) (provider : Provider) (rest : List Provider)
      (count : answered = before.length) (under : Underway P outcome f0 before provider rest f)
  | ended (tasks : f.network.tasks = []) (count : answered = (asked outcome providers).length)
      (ends : EndsWithFirst P outcome f0 title author f)

/-- After the end there is nothing left of the search. -/
theorem eq_nil_of_no_tasks {P : Platform Data} {outcome : Provider → Option Book}
    {past : List (AddMenu × SearchEvent Data)} {f g : AddMenu} {es : List (SearchEvent Data)}
    (hnone : f.network.tasks = [])
    (hm : Meets (searchStep P outcome) (fun _ => WhileSearching P) past f es)
    (hr : run (searchStep P outcome) f es = some g) : es = [] := by
  cases es with
  | nil => rfl
  | cons event es =>
    cases event with
    | form event => exact absurd hnone hm.1.1
    | callBack id =>
      rw [run_cons] at hr
      obtain ⟨f', hstep, _⟩ := Option.bind_eq_some_iff.mp hr
      simp only [searchStep, hnone] at hstep
      split at hstep
      · cases hstep
      · cases hstep

theorem reached_of_underway {P : Platform Data} {outcome : Provider → Option Book}
    {f0 f g : AddMenu} {before rest : List Provider} {provider : Provider}
    {past : List (AddMenu × SearchEvent Data)} {es : List (SearchEvent Data)}
    (hurls : AllUrls P f0.isbnFromTextField)
    (hf : Underway P outcome f0 before provider rest f)
    (hm : Meets (searchStep P outcome) (fun _ => WhileSearching P) past f es)
    (hr : run (searchStep P outcome) f es = some g) :
    Reached P outcome f0 (typed titleEdit f.titleTextField es)
      (typed authorEdit f.authorTextField es) (before.length + callBacks es) g := by
  induction es generalizing f before provider rest past with
  | nil =>
    cases hr
    exact .underway before provider rest rfl hf
  | cons event es ih =>
    rw [run_cons] at hr
    obtain ⟨f', hstep, hrest⟩ := Option.bind_eq_some_iff.mp hr
    obtain ⟨hw, hm⟩ := hm
    rw [hstep] at hm
    cases event with
    | form event =>
      obtain ⟨htitle, hauthor, hunder⟩ := underway_of_form hf hw hstep
      have hreached := ih hunder hm hrest
      rw [htitle, hauthor] at hreached
      exact hreached
    | callBack id =>
      have hcount : callBacks (.callBack id :: es) = callBacks es + 1 :=
        List.countP_cons_of_pos rfl
      -- the search is over: nothing is left of the run
      have hover (hends : f'.network.tasks = [] ∧
          (asked outcome providers).length = before.length + 1 ∧
          EndsWithFirst P outcome f0 f.titleTextField f.authorTextField f') :
          Reached P outcome f0 (typed titleEdit f.titleTextField (.callBack id :: es))
            (typed authorEdit f.authorTextField (.callBack id :: es))
            (before.length + callBacks (.callBack id :: es)) g := by
        obtain ⟨hnone, hlength, hends⟩ := hends
        obtain rfl := eq_nil_of_no_tasks hnone hm hrest
        cases hrest
        exact .ended hnone (by rw [hlength, hcount]; rfl) hends
      cases hout : outcome provider with
      | some book => exact hover (ends_of_book hf hout hstep)
      | none =>
        cases rest with
        | nil => exact hover (ends_of_failure hf hout hstep)
        | cons provider' rest =>
          obtain ⟨htitle, hauthor, hunder⟩ := underway_of_failure hurls hf hout hstep
          have hreached := ih hunder hm hrest
          rw [htitle, hauthor, List.length_append, List.length_singleton] at hreached
          rw [hcount, Nat.add_comm (callBacks es) 1, ← Nat.add_assoc]
          exact hreached

/-! ## The law -/

/-- Whatever the providers answer, the search asks them in their order and stops
at the first book. While a lookup is in flight it can call back, and with none
left the search has ended with the first book, or with nothing but the dialog. -/
theorem a_search_ends_with_the_first_success (P : Platform Data)
    (outcome : Provider → Option Book) (f0 f1 f : AddMenu) (es : List (SearchEvent Data))
    (hf : Exclusive f0) (hurls : AllUrls P f0.isbnFromTextField)
    (hs : step P f0 .search = some f1)
    (hm : Meets (searchStep P outcome) (fun _ => WhileSearching P) [] f1 es)
    (hr : run (searchStep P outcome) f1 es = some f) :
    (f.network.tasks ≠ [] → callBacks es < (asked outcome providers).length ∧
      ∃ id, (searchStep P outcome f (.callBack id)).isSome) ∧
    (f.network.tasks = [] → callBacks es = (asked outcome providers).length ∧
      EndsWithFirst P outcome f0 (typed titleEdit f0.titleTextField es)
        (typed authorEdit f0.authorTextField es) f) := by
  have htexts := texts_providerCall P .googleBooks (f0.toggleIndicator false)
  have hreached := reached_of_underway hurls (underway_search outcome hf hurls hs) hm hr
  have htitle : f1.titleTextField = f0.titleTextField := by
    rw [search_eq hs]
    exact htexts.1
  have hauthor : f1.authorTextField = f0.authorTextField := by
    rw [search_eq hs]
    exact htexts.2
  rw [htitle, hauthor, List.length_nil, Nat.zero_add] at hreached
  cases hreached with
  | underway before provider rest hcount hunder =>
    obtain ⟨t, htasks, _⟩ := hunder.task
    obtain ⟨t', _, _, hstep⟩ := callBack_eq hunder
    refine ⟨fun _ => ⟨?_, t'.id, ?_⟩, fun hnone => ?_⟩
    · rw [hcount, hunder.split]
      exact length_lt_asked hunder.failed
    · rw [hstep, if_pos rfl]
      rfl
    · rw [htasks] at hnone
      cases hnone
  | ended hnone hcount hends => exact ⟨fun hsome => absurd hnone hsome, fun _ => ⟨hcount, hends⟩⟩

/-- A form with the ISBN and with what an earlier search has left. -/
def earlierForm : AddMenu :=
  { AddMenu.initial "" with
    titleTextField := "first title"
    authorTextField := "author"
    isbnTextField := "9782070411429"
    bookToSave := some { Book.new "first title" "author" "9782253003656" with
      bookEditor := some "editor", bookCoverURL := "https://covers/978" } }

def secondBook : Book := Book.new "second title" "author" "9782070411429"

/-- Only OpenLibrary has the book. -/
def onlyOpenLibrary : Provider → Option Book
  | .openLibrary => some secondBook
  | .googleBooks | .goodReads => none

/-- Google Books fails, the user types a title, and OpenLibrary answers. -/
def typingInBetween : List (SearchEvent DecodedData) :=
  [.callBack 0, .form (.editTitle "third title"), .callBack 1]

theorem a_search_ends_with_the_book_of_openLibrary :
    ∃ f1 f, step decodedPlatform earlierForm .search = some f1 ∧
      run (searchStep decodedPlatform onlyOpenLibrary) f1 typingInBetween = some f ∧
      ButtonsEnabled f ∧ f.titleTextField = "second title" ∧ f.bookToSave = some secondBook := by
  have hrun : ((step decodedPlatform earlierForm .search).bind fun f1 =>
      (run (searchStep decodedPlatform onlyOpenLibrary) f1 typingInBetween).map fun f =>
        (decide (Meets (searchStep decodedPlatform onlyOpenLibrary)
          (fun _ => WhileSearching decodedPlatform) [] f1 typingInBetween), f.network.tasks)) =
      some (true, []) := by
    decide +kernel
  obtain ⟨f1, hs, hrun⟩ := Option.bind_eq_some_iff.mp hrun
  obtain ⟨f, hr, hpair⟩ := Option.map_eq_some_iff.mp hrun
  obtain ⟨hmeets, hnone⟩ := Prod.mk.inj hpair
  have hurls : AllUrls decodedPlatform earlierForm.isbnFromTextField := by
    intro provider
    cases provider <;> decide +kernel
  obtain ⟨_, hends⟩ := (a_search_ends_with_the_first_success decodedPlatform onlyOpenLibrary
    earlierForm f1 f typingInBetween (exclusive_of_none rfl rfl) hurls hs
    (of_decide_eq_true hmeets) hr).2 hnone
  obtain ⟨htitle, _, hbook⟩ := hends.success secondBook rfl
  exact ⟨f1, f, hs, hr, hends.buttons, htitle, hbook⟩

end xellissime_book.add_menu
