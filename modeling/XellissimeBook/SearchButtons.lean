-- The buttons of the form: a search disables them, and each way that the chain
-- of lookups ends has to enable them again.
import XellissimeBook.AddMenu

open runs
open xellissime_book.book_record xellissime_book.lookup

namespace xellissime_book.add_menu

variable {Data : Type}

/-- With no lookup in flight, the buttons are enabled. -/
def NotLockedUp (f : AddMenu) : Prop := f.network.tasks = [] → ButtonsEnabled f

/-- The step starts no call whose URL cannot be built, and it is no Google
response with a missing identifier. -/
def EndsWell (P : Platform Data) (f : AddMenu) : Event Data → Prop
  | .search => (googleBookFullUrl P f.isbnFromTextField).isSome
  | .response id completion =>
    (∀ r ∈ f.network.finish id completion,
      ¬ (r.1.provider = .googleBooks ∧ MissingIdentifier P completion)) ∧
    ∀ provider ∈ handsOver P f (.response id completion),
      (provider.fullUrl P f.isbnFromTextField).isSome
  | _ => True

instance decidableEndsWell (P : Platform Data) (f : AddMenu) :
    ∀ event, Decidable (EndsWell P f event)
  | .search | .response _ _ => by unfold EndsWell; infer_instance
  | .viewDidLoad | .viewWillAppear | .editTitle _ | .editAuthor _ | .editIsbn _ | .scan _
  | .addManually | .save _ | .cancelDialog => isTrue trivial

/-! ## One step -/

/-- A call whose URL is built has its lookup in flight. -/
theorem tasks_providerCall_ne_nil {P : Platform Data} {provider : Provider} {f : AddMenu}
    (h : (provider.fullUrl P f.isbnFromTextField).isSome) :
    (f.providerCall P provider).network.tasks ≠ [] := by
  obtain ⟨fullUrl, hu⟩ := Option.isSome_iff_exists.mp h
  rw [providerCall_of_url hu]
  simp [NetworkManager.start]

theorem notLockedUp_response {P : Platform Data} {f f' : AddMenu} {id : Nat}
    {completion : Completion Data} (hw : EndsWell P f (.response id completion))
    (h : step P f (.response id completion) = some f') : NotLockedUp f' := by
  obtain ⟨t, network, hfin, hcases⟩ := response_cases h
  obtain ⟨hmiss, hurl⟩ := hw
  rcases hcases with
    ⟨hg, hm, _⟩ | ⟨book, _, _, rfl⟩ | ⟨_, _, rfl⟩ | ⟨provider, _, hover, rfl⟩
  · exact absurd ⟨hg, hm⟩ (hmiss (t, network) hfin)
  · exact fun _ => ⟨rfl, rfl⟩
  · exact fun _ => ⟨rfl, rfl⟩
  · intro hnil
    have hsome : (provider.fullUrl P
        ({ f with network } : AddMenu).isbnFromTextField).isSome := hurl provider hover
    exact absurd hnil (tasks_providerCall_ne_nil hsome)

theorem notLockedUp_save {P : Platform Data} {f f' : AddMenu} {uid : Option String}
    (hf : NotLockedUp f) (h : step P f (.save uid) = some f') : NotLockedUp f' := by
  rcases save_cases h with ⟨_, rfl | rfl | ⟨_, _, rfl⟩⟩ | ⟨_, _, _, rfl⟩
  · exact hf
  · exact hf
  · exact hf
  · exact hf

/-- A step that ends well keeps the form from locking up. -/
theorem notLockedUp_step (P : Platform Data) (f : AddMenu) (event : Event Data) (f' : AddMenu)
    (hf : NotLockedUp f) (hw : EndsWell P f event) (h : step P f event = some f') :
    NotLockedUp f' := by
  rcases step_cases h with ⟨rfl, rfl⟩ | ⟨id, completion, rfl⟩ | ⟨uid, rfl⟩ | hfields
  · intro hnil
    have hsome : (googleBookFullUrl P (f.toggleIndicator false).isbnFromTextField).isSome := hw
    exact absurd hnil (tasks_providerCall_ne_nil hsome)
  · exact notLockedUp_response hw h
  · exact notLockedUp_save hf h
  · intro hnil
    apply hfields.buttons
    apply hf
    rw [← hfields.network]
    exact hnil

/-! ## The laws -/

/-- A search that Google Books fails and OpenLibrary answers. -/
def fallbackSearch : List (Event DecodedData) :=
  [.viewDidLoad, .editIsbn "9782070411429", .search,
    .response 0 offline, .response 1 (ok200 entryOfOtherEdition)]

/-- In every run whose steps end well, the form never locks up. -/
theorem the_form_never_locks_up (P : Platform Data) (scannedIsbn : String)
    (es : List (Event Data)) (f : AddMenu)
    (hm : Meets (step P) (fun _ => EndsWell P) [] (.initial scannedIsbn) es)
    (hr : run (step P) (.initial scannedIsbn) es = some f) : NotLockedUp f :=
  state_invariant_of_run NotLockedUp (notLockedUp_step P) (fun _ => ⟨rfl, rfl⟩) hm hr

/-- Google Books fails and OpenLibrary finds the book: the form is free again. -/
theorem the_form_never_locks_up_after_a_fallback :
    ∃ f, run (step decodedPlatform) (.initial "") fallbackSearch = some f ∧ NotLockedUp f := by
  have hrun : (run (step decodedPlatform) (.initial "") fallbackSearch).isSome = true := by
    decide +kernel
  obtain ⟨f, hf⟩ := Option.isSome_iff_exists.mp hrun
  exact ⟨f, hf, the_form_never_locks_up decodedPlatform "" fallbackSearch f
    (by decide +kernel) hf⟩

/-- The condition is no stronger than it has to be: a response that breaks it,
to the only lookup in flight and with the buttons disabled, locks the form. -/
theorem a_response_that_ends_badly_locks_the_form {P : Platform Data} {f f' : AddMenu}
    {id : Nat} {completion : Completion Data} {t : DataTask} {network : NetworkManager}
    (h : step P f (.response id completion) = some f') (hdis : f.searchEnabled = false)
    (hfin : f.network.finish id completion = some (t, network)) (honly : network.tasks = [])
    (hbad : ¬ EndsWell P f (.response id completion)) : ¬ NotLockedUp f' := by
  obtain ⟨t', network', hfin', hcases⟩ := response_cases h
  rw [hfin] at hfin'
  cases hfin'
  intro hok
  apply hbad
  have hmiss (hne : t.provider.complete P t.isbn completion ≠ []) :
      ∀ r ∈ f.network.finish id completion,
        ¬ (r.1.provider = .googleBooks ∧ MissingIdentifier P completion) := by
    rw [hfin]
    intro r hr
    cases hr
    exact not_missing_of_answers hne
  rcases hcases with
    ⟨_, _, _, rfl⟩ | ⟨book, hans, hover, _⟩ | ⟨hans, hover, _⟩ | ⟨provider, hans, hover, rfl⟩
  · have henabled := (hok honly).1
    rw [hdis] at henabled
    cases henabled
  · exact ⟨hmiss (by rw [hans]; simp), by rw [hover]; simp⟩
  · exact ⟨hmiss (by rw [hans]; simp), by rw [hover]; simp⟩
  · refine ⟨hmiss (by rw [hans]; simp), ?_⟩
    rw [hover]
    intro provider' hp
    cases hp
    by_contra hurl
    have hnone : provider.fullUrl P f.isbnFromTextField = none := by simpa using hurl
    rw [providerCall_of_no_url (f := { f with network }) hnone] at hok
    have henabled := (hok honly).1
    simp [AddMenu.emptyBook, AddMenu.emit, hdis] at henabled

/-- A URL that cannot be built leaves the buttons disabled with no lookup in
flight. -/
theorem an_inner_space_locks_the_form :
    ∃ f, run (step decodedPlatform) (.initial "")
      [.viewDidLoad, .editIsbn "978 2070411429", .search] = some f ∧ ¬ NotLockedUp f := by
  have hrun : (run (step decodedPlatform) (.initial "")
      [.viewDidLoad, .editIsbn "978 2070411429", .search]).map
        (fun f => (f.network.tasks, f.searchEnabled)) = some ([], false) := by decide +kernel
  obtain ⟨f, hf, hpair⟩ := Option.map_eq_some_iff.mp hrun
  refine ⟨f, hf, fun hok => ?_⟩
  have henabled := (hok (congrArg Prod.fst hpair)).1
  rw [show f.searchEnabled = false from congrArg Prod.snd hpair] at henabled
  cases henabled

end xellissime_book.add_menu
