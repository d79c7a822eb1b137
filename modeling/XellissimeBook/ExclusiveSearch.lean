-- The laws of the enabled buttons: a search disables them, and nothing enables
-- them again before the chain of its lookups is over. So searches and saves
-- exclude each other.
import XellissimeBook.OneSearch
import XellissimeBook.SearchButtons

open runs
open xellissime_book.book_record xellissime_book.lookup

namespace xellissime_book.add_menu

variable {Data : Type}

/-! ## The invariant -/

/-- UIKit loads the view once, before anything else happens to it. -/
def LoadsOnce : List (Event Data) → Prop
  | [] => True
  | event :: es => event = .viewDidLoad ∧ .viewDidLoad ∉ es

/-- Both buttons say the same, and while they are enabled no lookup is in
flight. One lookup is in flight at most. -/
structure Exclusive (f : AddMenu) : Prop where
  buttons : f.addToDatabaseEnabled = f.searchEnabled
  free : f.searchEnabled = true → f.network.tasks = []
  one : f.network.tasks.length ≤ 1

/-- The step touches neither the buttons nor the lookups. -/
structure KeepsSearch (f f' : AddMenu) : Prop where
  search : f'.searchEnabled = f.searchEnabled
  save : f'.addToDatabaseEnabled = f.addToDatabaseEnabled
  network : f'.network = f.network

theorem Exclusive.keepsSearch {f f' : AddMenu} (h : Exclusive f) (hk : KeepsSearch f f') :
    Exclusive f' := by
  refine ⟨?_, ?_, ?_⟩
  · rw [hk.save, hk.search]
    exact h.buttons
  · rw [hk.search, hk.network]
    exact h.free
  · rw [hk.network]
    exact h.one

theorem exclusive_of_none {f : AddMenu} (hb : f.addToDatabaseEnabled = f.searchEnabled)
    (hn : f.network.tasks = []) : Exclusive f := by
  refine ⟨hb, fun _ => hn, ?_⟩
  rw [hn]
  exact Nat.zero_le 1

/-! ## One step of the loaded form -/

/-- Only a search and a response change the buttons or the lookups. -/
theorem loaded_cases {P : Platform Data} {f f' : AddMenu} {event : Event Data}
    (hv : event ≠ .viewDidLoad) (h : step P f event = some f') :
    (event = .search ∧ f.searchEnabled = true ∧ f' = f.googleBookCall P) ∨
      (∃ id completion, event = .response id completion) ∨ KeepsSearch f f' := by
  cases event with
  | viewDidLoad => exact absurd rfl hv
  | response id completion => exact Or.inr (Or.inl ⟨id, completion, rfl⟩)
  | save uid =>
    refine Or.inr (Or.inr ?_)
    rcases save_cases h with ⟨_, rfl | rfl | ⟨_, _, rfl⟩⟩ | ⟨_, _, _, rfl⟩
    · exact ⟨rfl, rfl, rfl⟩
    · exact ⟨rfl, rfl, rfl⟩
    · exact ⟨rfl, rfl, rfl⟩
    · exact ⟨rfl, rfl, rfl⟩
  | search =>
    have hf' := search_eq h
    simp only [step] at h
    split at h
    · cases h
    · split at h
      · rename_i henabled
        exact Or.inl ⟨rfl, henabled, hf'⟩
      · cases h
  | viewWillAppear =>
    simp only [step] at h
    split at h
    · cases h
    · cases h
      refine Or.inr (Or.inr ?_)
      split
      · exact ⟨rfl, rfl, rfl⟩
      · exact ⟨rfl, rfl, rfl⟩
  | editTitle text | editAuthor text | editIsbn text | scan code | addManually | cancelDialog =>
    simp only [step] at h
    split at h
    · cases h
    · cases h
      exact Or.inr (Or.inr ⟨rfl, rfl, rfl⟩)

/-- A call with the buttons disabled and no other lookup in flight. -/
theorem exclusive_providerCall {P : Platform Data} {f : AddMenu} (hs : f.searchEnabled = false)
    (ha : f.addToDatabaseEnabled = false) (hn : f.network.tasks = []) (provider : Provider) :
    Exclusive (f.providerCall P provider) := by
  cases hu : provider.fullUrl P f.isbnFromTextField with
  | none =>
    rw [providerCall_of_no_url hu]
    exact exclusive_of_none (ha.trans hs.symm) hn
  | some fullUrl =>
    rw [providerCall_of_url hu]
    refine ⟨ha.trans hs.symm, fun henabled => ?_, ?_⟩
    · exact absurd (hs.symm.trans henabled) Bool.false_ne_true
    · change (f.network.start provider fullUrl f.isbnFromTextField).tasks.length ≤ 1
      rw [← List.length_map (·.id), ids_start, hn]
      exact Nat.le_refl 1

/-- A response leaves no lookup in flight, but for the one that it starts. -/
theorem exclusive_response {P : Platform Data} {f f' : AddMenu} {id : Nat}
    {completion : Completion Data} (hf : Exclusive f)
    (h : step P f (.response id completion) = some f') : Exclusive f' := by
  obtain ⟨t, network, hfin, hcases⟩ := response_cases h
  obtain ⟨ht, hid, hnetwork⟩ := finish_eq_some hfin
  have hdisabled : f.searchEnabled = false := by
    by_contra henabled
    rw [hf.free (by simpa using henabled)] at ht
    cases ht
  have hnone : network.tasks = [] := by
    obtain ⟨only, honly⟩ := List.length_eq_one_iff.mp
      (Nat.le_antisymm hf.one (List.length_pos_of_mem ht))
    rw [honly, List.mem_singleton] at ht
    rw [hnetwork, honly]
    simp [← ht, hid]
  rcases hcases with
    ⟨_, _, _, rfl⟩ | ⟨book, _, _, rfl⟩ | ⟨_, _, rfl⟩ | ⟨provider, _, _, rfl⟩
  · exact exclusive_of_none hf.buttons hnone
  · exact exclusive_of_none rfl hnone
  · exact exclusive_of_none rfl hnone
  · exact exclusive_providerCall (f := { f with network }) hdisabled
      (hf.buttons.trans hdisabled) hnone provider

/-- Each step of the loaded form keeps searches and saves exclusive. -/
theorem exclusive_step (P : Platform Data) (f : AddMenu) (event : Event Data) (f' : AddMenu)
    (hf : Exclusive f) (hv : event ≠ .viewDidLoad) (h : step P f event = some f') :
    Exclusive f' := by
  rcases loaded_cases hv h with ⟨_, henabled, rfl⟩ | ⟨id, completion, rfl⟩ | hk
  · exact exclusive_providerCall (f := f.toggleIndicator false) rfl rfl (hf.free henabled)
      .googleBooks
  · exact exclusive_response hf h
  · exact hf.keepsSearch hk

theorem exclusive_run {P : Platform Data} {f g : AddMenu} {es : List (Event Data)}
    (hf : Exclusive f) (hv : .viewDidLoad ∉ es) (hr : run (step P) f es = some g) :
    Exclusive g := by
  have hmeets : Meets (step P) (fun _ _ event => event ≠ .viewDidLoad) [] f es := by
    rw [meets_event_iff hr]
    exact fun event hin hload => hv (hload ▸ hin)
  exact state_invariant_of_run Exclusive (exclusive_step P) hf hmeets hr

/-- Every state of the form is exclusive, from before its view loads on. -/
theorem exclusive_of_loadsOnce {P : Platform Data} {scannedIsbn : String}
    {es : List (Event Data)} {f : AddMenu} (hl : LoadsOnce es)
    (hr : run (step P) (.initial scannedIsbn) es = some f) : Exclusive f := by
  have hinitial : Exclusive (.initial scannedIsbn) := exclusive_of_none rfl rfl
  cases es with
  | nil =>
    cases hr
    exact hinitial
  | cons event es =>
    obtain ⟨rfl, hv⟩ := hl
    exact exclusive_run (f := { (AddMenu.initial scannedIsbn).toggleIndicator true with
      isbnTextField := scannedIsbn }) (exclusive_of_none rfl rfl) hv hr

/-! ## While a search runs -/

/-- The search is not over after the step: a press that sends its request, a
response that leads to a further one, or any other step. -/
def GoesOn (P : Platform Data) (f : AddMenu) : Event Data → Prop
  | .search => (callOf P .googleBooks f.isbnFromTextField).isSome
  | .response id completion => (sentBy P f (.response id completion)).isSome
  | _ => True

instance decidableGoesOn (P : Platform Data) (f : AddMenu) :
    ∀ event : Event Data, Decidable (GoesOn P f event)
  | .search | .response _ _ => by unfold GoesOn; infer_instance
  | .viewDidLoad | .viewWillAppear | .editTitle _ | .editAuthor _ | .editIsbn _ | .scan _
  | .addManually | .save _ | .cancelDialog => isTrue trivial

/-- A lookup of the search is in flight. -/
structure Searching (f : AddMenu) : Prop where
  exclusive : Exclusive f
  inFlight : f.network.tasks ≠ []

theorem inFlight_of_callOf {P : Platform Data} {provider : Provider} {f : AddMenu}
    (h : (callOf P provider f.isbnFromTextField).isSome) :
    (f.providerCall P provider).network.tasks ≠ [] := by
  apply tasks_providerCall_ne_nil
  rw [callOf, Option.isSome_map] at h
  exact h

theorem searching_search {P : Platform Data} {f f' : AddMenu} (hf : Exclusive f)
    (hg : GoesOn P f .search) (h : step P f .search = some f') : Searching f' := by
  refine ⟨exclusive_step P f .search f' hf (by simp) h, ?_⟩
  rw [search_eq h]
  exact inFlight_of_callOf (f := f.toggleIndicator false) hg

/-- A search that goes on keeps a lookup in flight. -/
theorem searching_step {P : Platform Data} {f f' : AddMenu} {event : Event Data}
    (hf : Searching f) (hv : event ≠ .viewDidLoad) (hg : GoesOn P f event)
    (h : step P f event = some f') : Searching f' := by
  refine ⟨exclusive_step P f event f' hf.exclusive hv h, ?_⟩
  rcases loaded_cases hv h with ⟨_, henabled, rfl⟩ | ⟨id, completion, rfl⟩ | hk
  · exact absurd (hf.exclusive.free henabled) hf.inFlight
  · obtain ⟨t, network, _, hcases⟩ := response_cases h
    have hsent : (sentBy P f (.response id completion)).isSome = true := hg
    unfold sentBy at hsent
    rcases hcases with
      ⟨_, _, hover, _⟩ | ⟨book, _, hover, _⟩ | ⟨_, hover, _⟩ | ⟨provider, _, hover, rfl⟩
    · rw [hover] at hsent
      cases hsent
    · rw [hover] at hsent
      cases hsent
    · rw [hover] at hsent
      cases hsent
    · rw [hover, Option.bind_some, Option.isSome_map] at hsent
      exact inFlight_of_callOf (f := { f with network }) hsent
  · rw [hk.network]
    exact hf.inFlight

theorem searching_run {P : Platform Data} {past : List (AddMenu × Event Data)} {f g : AddMenu}
    {es : List (Event Data)} (hf : Searching f) (hv : .viewDidLoad ∉ es)
    (hm : Meets (step P) (fun _ => GoesOn P) past f es) (hr : run (step P) f es = some g) :
    Searching g := by
  induction es generalizing f past with
  | nil =>
    cases hr
    exact hf
  | cons event es ih =>
    rw [run_cons] at hr
    obtain ⟨f', hstep, hrest⟩ := Option.bind_eq_some_iff.mp hr
    obtain ⟨hg, hm⟩ := hm
    rw [hstep] at hm
    have hne : event ≠ .viewDidLoad := fun he => hv (he ▸ List.mem_cons_self)
    exact ih (searching_step hf hne hg hstep) (fun hin => hv (List.mem_cons_of_mem event hin))
      hm hrest

/-- With a lookup in flight, neither button fires. -/
theorem Searching.no_press {P : Platform Data} {f : AddMenu} (h : Searching f) :
    step P f .search = none ∧ ∀ uid, step P f (.save uid) = none := by
  have hsearch : f.searchEnabled = false := by
    by_contra henabled
    exact h.inFlight (h.exclusive.free (by simpa using henabled))
  have hsave : f.addToDatabaseEnabled = false := h.exclusive.buttons.trans hsearch
  simp [step, hsearch, hsave]

/-! ## The law -/

/-- While a button is enabled, no lookup is in flight, and there is never more
than one. From the press of a search on, as long as the search is not over,
there is no second search and no save. -/
theorem searches_and_saves_exclude_each_other (P : Platform Data) (scannedIsbn : String)
    (es : List (Event Data)) (f : AddMenu) (hl : LoadsOnce es)
    (hr : run (step P) (.initial scannedIsbn) es = some f) :
    (f.searchEnabled = true ∨ f.addToDatabaseEnabled = true → f.network.tasks = []) ∧
      f.network.tasks.length ≤ 1 ∧
      ∀ before during f0, es = before ++ .search :: during →
        run (step P) (.initial scannedIsbn) before = some f0 →
        Meets (step P) (fun _ => GoesOn P) [] f0 (.search :: during) →
        step P f .search = none ∧ ∀ uid, step P f (.save uid) = none := by
  have hf := exclusive_of_loadsOnce hl hr
  refine ⟨fun henabled => ?_, hf.one, ?_⟩
  · apply hf.free
    rcases henabled with h | h
    · exact h
    · exact hf.buttons ▸ h
  · rintro before during f0 rfl hbefore ⟨hg, hm⟩
    have hsplit : LoadsOnce before ∧ .viewDidLoad ∉ during := by
      cases before with
      | nil => cases hl.1
      | cons event rest =>
        obtain ⟨hload, hv⟩ := hl
        refine ⟨⟨hload, fun hin => hv (List.mem_append_left _ hin)⟩, fun hin => hv ?_⟩
        exact List.mem_append_right _ (List.mem_cons_of_mem _ hin)
    rw [run_append, hbefore, Option.bind_some, run_cons] at hr
    obtain ⟨f1, hs, hrest⟩ := Option.bind_eq_some_iff.mp hr
    rw [hs] at hm
    have hf0 := exclusive_of_loadsOnce hsplit.1 hbefore
    exact (searching_run (searching_search hf0 hg hs) hsplit.2 hm hrest).no_press

/-- A search whose first provider failed, while the second one is asked. -/
def halfSearch : List (Event DecodedData) :=
  [.viewDidLoad, .editIsbn "9782070411429", .search, .response 0 offline]

theorem a_half_search_excludes_searches_and_saves :
    ∃ f, run (step decodedPlatform) (.initial "") halfSearch = some f ∧
      f.network.tasks.length ≤ 1 ∧ step decodedPlatform f .search = none ∧
      ∀ uid, step decodedPlatform f (.save uid) = none := by
  have hrun : (run (step decodedPlatform) (.initial "") halfSearch).isSome = true := by
    decide +kernel
  obtain ⟨f, hr⟩ := Option.isSome_iff_exists.mp hrun
  have hl : LoadsOnce halfSearch := ⟨rfl, by simp⟩
  obtain ⟨_, hone, hpress⟩ :=
    searches_and_saves_exclude_each_other decodedPlatform "" halfSearch f hl hr
  have hbefore : ((run (step decodedPlatform) (.initial "")
      [.viewDidLoad, .editIsbn "9782070411429"]).map fun f0 =>
        decide (Meets (step decodedPlatform) (fun _ => GoesOn decodedPlatform) [] f0
          [.search, .response 0 offline])) = some true := by
    decide +kernel
  obtain ⟨f0, h0, hgoes⟩ := Option.map_eq_some_iff.mp hbefore
  exact ⟨f, hr, hone, hpress [.viewDidLoad, .editIsbn "9782070411429"] [.response 0 offline] f0
    rfl h0 (of_decide_eq_true hgoes)⟩

end xellissime_book.add_menu
