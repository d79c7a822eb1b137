-- The laws of one search. A search reads the ISBN field when it starts, and it
-- reads it again before each further provider, so an edit in between can turn
-- it to another ISBN.
import XellissimeBook.AddMenu

open runs
open xellissime_book.book_record xellissime_book.lookup xellissime_book.text

namespace xellissime_book.add_menu

variable {Data : Type}

/-! ## The requests -/

/-- The ISBN and the URL that a call asks with, when the URL can be built. -/
def callOf (P : Platform Data) (provider : Provider) (isbn : String) : Option (String × URL) :=
  (provider.fullUrl P isbn).map fun fullUrl => (isbn, fullUrl)

theorem isbn_of_callOf {P : Platform Data} {provider : Provider} {isbn : String}
    {call : String × URL} (h : callOf P provider isbn = some call) : call.1 = isbn := by
  obtain ⟨fullUrl, _, rfl⟩ := Option.map_eq_some_iff.mp h
  rfl

def requestOf : Effect → Option (Provider × String × URL)
  | .request provider isbn fullUrl => some (provider, isbn, fullUrl)
  | _ => none

/-- The requests of the log, oldest first. -/
def requests (log : List Effect) : List (Provider × String × URL) := log.filterMap requestOf

/-- The request that a response leads to. -/
def sentBy (P : Platform Data) (f : AddMenu) (event : Event Data) :
    Option (Provider × String × URL) :=
  (handsOver P f event).bind fun provider =>
    (callOf P provider f.isbnFromTextField).map fun call => (provider, call)

theorem requests_providerCall (P : Platform Data) (provider : Provider) (f : AddMenu) :
    requests (f.providerCall P provider).log =
      requests f.log ++
        ((callOf P provider f.isbnFromTextField).map fun call => (provider, call)).toList := by
  unfold callOf requests
  cases hu : provider.fullUrl P f.isbnFromTextField with
  | none =>
    rw [providerCall_of_no_url hu]
    simp [AddMenu.emit, AddMenu.emptyBook, requestOf]
  | some fullUrl =>
    rw [providerCall_of_url hu]
    simp [AddMenu.emit, AddMenu.emptyBook, requestOf]

theorem requests_response {P : Platform Data} {f f' : AddMenu} {id : Nat}
    {completion : Completion Data} (h : step P f (.response id completion) = some f') :
    requests f'.log = requests f.log ++ (sentBy P f (.response id completion)).toList := by
  obtain ⟨t, network, _, hcases⟩ := response_cases h
  unfold sentBy
  rcases hcases with
    ⟨_, _, hover, rfl⟩ | ⟨book, _, hover, rfl⟩ | ⟨_, hover, rfl⟩ | ⟨provider, _, hover, rfl⟩
  · simp [hover]
  · simp [hover, requests, AddMenu.emit, AddMenu.showBook, AddMenu.toggleIndicator, requestOf]
  · simp [hover, requests, AddMenu.emit, AddMenu.toggleIndicator, requestOf]
  · rw [hover, requests_providerCall]
    rfl

/-! ## Edits of the field -/

/-- The form with other texts in the ISBN field and in the scanner. -/
def AddMenu.withIsbn (f : AddMenu) (isbnTextField scannedIsbn : String) : AddMenu :=
  { f with isbnTextField, scannedIsbn }

theorem withIsbn_providerCall (P : Platform Data) (provider : Provider) (f : AddMenu) :
    (f.providerCall P provider).withIsbn f.isbnTextField (f.providerCall P provider).scannedIsbn =
      f.providerCall P provider := by
  cases hu : provider.fullUrl P f.isbnFromTextField with
  | none =>
    rw [providerCall_of_no_url hu]
    rfl
  | some fullUrl =>
    rw [providerCall_of_url hu]
    rfl

/-- Typing, a scanned code, and the two ways that the code gets to the field. -/
def isIsbnEdit : Event Data → Bool
  | .editIsbn _ | .scan _ | .addManually | .viewWillAppear => true
  | _ => false

theorem edit_cases {P : Platform Data} {f f' : AddMenu} {event : Event Data}
    (he : isIsbnEdit event = true) (h : step P f event = some f') :
    ∃ isbn scanned, f' = f.withIsbn isbn scanned := by
  unfold step at h
  split at h
  · cases h
  · cases event with
    | viewWillAppear =>
      cases h
      split
      · exact ⟨f.scannedIsbn, f.scannedIsbn, rfl⟩
      · exact ⟨f.isbnTextField, f.scannedIsbn, rfl⟩
    | editIsbn text =>
      cases h
      exact ⟨text, f.scannedIsbn, rfl⟩
    | scan code =>
      cases h
      exact ⟨f.isbnTextField, code, rfl⟩
    | addManually =>
      cases h
      exact ⟨f.scannedIsbn, f.scannedIsbn, rfl⟩
    | viewDidLoad | editTitle _ | editAuthor _ | search | save _ | response _ _ | cancelDialog =>
      cases he

/-- A call with the same ISBN and URL does the same, whatever the field says. -/
theorem providerCall_withIsbn {P : Platform Data} {provider : Provider} {f : AddMenu}
    {isbn scanned : String}
    (h : callOf P provider f.isbnFromTextField =
      callOf P provider (removeFirstAndLastAndDoubleWhitespace isbn)) :
    (f.withIsbn isbn scanned).providerCall P provider =
      (f.providerCall P provider).withIsbn isbn scanned := by
  have hfield : (f.withIsbn isbn scanned).isbnFromTextField =
      removeFirstAndLastAndDoubleWhitespace isbn := rfl
  rw [← hfield] at h
  unfold callOf at h
  cases hu : provider.fullUrl P f.isbnFromTextField with
  | none =>
    rw [hu] at h
    have hu' : provider.fullUrl P (f.withIsbn isbn scanned).isbnFromTextField = none := by
      simpa using h.symm
    rw [providerCall_of_no_url hu, providerCall_of_no_url hu']
    rfl
  | some fullUrl =>
    rw [hu] at h
    obtain ⟨fullUrl', hu', hpair⟩ := Option.map_eq_some_iff.mp h.symm
    obtain ⟨hisbn, rfl⟩ := Prod.mk.inj hpair
    rw [providerCall_of_url hu, providerCall_of_url hu', hisbn]
    rfl

theorem handsOver_withIsbn (P : Platform Data) (f : AddMenu) (event : Event Data)
    (isbn scanned : String) :
    handsOver P (f.withIsbn isbn scanned) event = handsOver P f event := by
  cases event <;> rfl

/-- The request that the response leads to is the one for the ISBN. -/
def SameCall (P : Platform Data) (isbn : String) (f : AddMenu) (event : Event Data) : Prop :=
  ∀ provider ∈ handsOver P f event,
    callOf P provider f.isbnFromTextField = callOf P provider isbn

instance decidableSameCall (P : Platform Data) (isbn : String) (f : AddMenu)
    (event : Event Data) : Decidable (SameCall P isbn f event) := by
  unfold SameCall
  infer_instance

/-- Such a response does the same, whatever the field says. -/
theorem response_withIsbn {P : Platform Data} {f f' : AddMenu} {id : Nat}
    {completion : Completion Data} {isbn scanned : String}
    (hw : SameCall P (removeFirstAndLastAndDoubleWhitespace isbn) f (.response id completion))
    (h : step P f (.response id completion) = some f') :
    step P (f.withIsbn isbn scanned) (.response id completion) =
      some (f'.withIsbn isbn scanned) := by
  simp only [step] at h
  split at h
  · cases h
  · rename_i hraised
    obtain ⟨⟨t, network⟩, hfin, rfl⟩ := Option.map_eq_some_iff.mp h
    have hraised' : ¬ (f.withIsbn isbn scanned).raised.isSome = true := hraised
    have hfin' : (f.withIsbn isbn scanned).network.finish id completion = some (t, network) := hfin
    simp only [step, if_neg hraised', hfin', Option.map_some]
    congr 1
    rcases complete_answers P t.provider t.isbn completion with ⟨hans, _⟩ | ⟨hans | ⟨book, hans⟩, _⟩
    · rw [hans]
      rfl
    · rw [hans]
      change ({ f with network }.withIsbn isbn scanned).tryNext P t.provider =
        (({ f with network } : AddMenu).tryNext P t.provider).withIsbn isbn scanned
      rw [tryNext_eq, tryNext_eq]
      cases hn : next t.provider with
      | none => rfl
      | some provider =>
        have hover : handsOver P f (.response id completion) = some provider := by
          simp only [handsOver, hfin, Option.bind_some, hans, if_true, hn]
        exact providerCall_withIsbn (f := { f with network }) (hw provider hover)
    · rw [hans]
      rfl

/-! ## The lookups of one search -/

/-- What happens while a search runs: edits of the ISBN field, and responses to
the lookups that started with the search or after it. -/
def DuringSearch (first : Nat) (event : Event Data) : Prop :=
  isIsbnEdit event = true ∨ ∃ id completion, event = .response id completion ∧ first ≤ id

/-- At most one lookup of the search is in flight. -/
def OneInFlight (first : Nat) (network : NetworkManager) : Prop :=
  first ≤ network.nextId ∧
    ∀ i ∈ network.tasks.map (·.id), ∀ j ∈ network.tasks.map (·.id), first ≤ i → first ≤ j → i = j

/-- No lookup of the search is in flight. -/
def NoneInFlight (first : Nat) (network : NetworkManager) : Prop :=
  first ≤ network.nextId ∧ ∀ i ∈ network.tasks.map (·.id), i < first

theorem NoneInFlight.oneInFlight {first : Nat} {network : NetworkManager}
    (h : NoneInFlight first network) : OneInFlight first network := by
  refine ⟨h.1, ?_⟩
  intro i hi j _ hfi _
  have := h.2 i hi
  omega

theorem NoneInFlight.start {first : Nat} {network : NetworkManager}
    (h : NoneInFlight first network) (provider : Provider) (fullUrl : URL) (isbn : String) :
    OneInFlight first (network.start provider fullUrl isbn) := by
  obtain ⟨hnext, hids⟩ := h
  have hnext' : (network.start provider fullUrl isbn).nextId = network.nextId + 1 := rfl
  refine ⟨by omega, ?_⟩
  rw [ids_start]
  have hnew : ∀ i ∈ network.tasks.map (·.id) ++ [network.nextId], first ≤ i →
      i = network.nextId := by
    intro i hi hfirst
    rcases List.mem_append.mp hi with hold | hi
    · have := hids i hold
      omega
    · exact List.mem_singleton.mp hi
  intro i hi j hj hfi hfj
  rw [hnew i hi hfi, hnew j hj hfj]

/-- The only lookup of the search that was in flight leaves none. -/
theorem OneInFlight.finish {first id : Nat} {network network' : NetworkManager} {t : DataTask}
    {completion : Completion Data} (h : OneInFlight first network) (hid : first ≤ id)
    (hfin : network.finish id completion = some (t, network')) : NoneInFlight first network' := by
  obtain ⟨ht, htid, rfl⟩ := finish_eq_some hfin
  refine ⟨h.1, ?_⟩
  intro i hi
  obtain ⟨other, hother, rfl⟩ := List.mem_map.mp hi
  obtain ⟨hmem, hne⟩ := List.mem_filter.mp hother
  by_contra hge
  have hsame : other.id = t.id := h.2 other.id (List.mem_map_of_mem hmem) t.id
    (List.mem_map_of_mem ht) (by omega) (by omega)
  rw [htid] at hsame
  simp [hsame] at hne

theorem NoneInFlight.no_finish {first id : Nat} {network : NetworkManager}
    (h : NoneInFlight first network) (hid : first ≤ id) (completion : Completion Data) :
    network.finish id completion = none := by
  cases hfin : network.finish id completion with
  | none => rfl
  | some r =>
    obtain ⟨t, network'⟩ := r
    obtain ⟨ht, htid, _⟩ := finish_eq_some hfin
    have := h.2 t.id (List.mem_map_of_mem ht)
    omega

theorem NoneInFlight.providerCall {P : Platform Data} {first : Nat} {f : AddMenu}
    (h : NoneInFlight first f.network) (provider : Provider) :
    OneInFlight first (f.providerCall P provider).network ∧
      (callOf P provider f.isbnFromTextField = none →
        NoneInFlight first (f.providerCall P provider).network) := by
  unfold callOf
  cases hu : provider.fullUrl P f.isbnFromTextField with
  | none =>
    rw [providerCall_of_no_url hu]
    exact ⟨h.oneInFlight, fun _ => h⟩
  | some fullUrl =>
    rw [providerCall_of_url hu]
    refine ⟨h.start provider fullUrl f.isbnFromTextField, ?_⟩
    intro hn
    cases hn

/-- A response of the search leaves at most one lookup of it in flight, and
none where it sends no request. -/
theorem oneInFlight_response {P : Platform Data} {first id : Nat} {f f' : AddMenu}
    {completion : Completion Data} (hf : OneInFlight first f.network) (hid : first ≤ id)
    (h : step P f (.response id completion) = some f') :
    OneInFlight first f'.network ∧
      (sentBy P f (.response id completion) = none → NoneInFlight first f'.network) := by
  obtain ⟨t, network, hfin, hcases⟩ := response_cases h
  have hnone : NoneInFlight first network := hf.finish hid hfin
  unfold sentBy
  rcases hcases with
    ⟨_, _, _, rfl⟩ | ⟨book, _, _, rfl⟩ | ⟨_, _, rfl⟩ | ⟨provider, _, hover, rfl⟩
  · exact ⟨hnone.oneInFlight, fun _ => hnone⟩
  · exact ⟨hnone.oneInFlight, fun _ => hnone⟩
  · exact ⟨hnone.oneInFlight, fun _ => hnone⟩
  · have hcall := NoneInFlight.providerCall (P := P) (f := { f with network }) hnone provider
    refine ⟨hcall.1, fun hsent => hcall.2 ?_⟩
    rw [hover, Option.bind_some] at hsent
    exact Option.map_eq_none_iff.mp hsent

/-- With none in flight, only edits are left and no request is sent. -/
theorem requests_of_noneInFlight {P : Platform Data} {first : Nat} {f g : AddMenu}
    {es : List (Event Data)} (hf : NoneInFlight first f.network)
    (he : ∀ event ∈ es, DuringSearch first event) (hr : run (step P) f es = some g) :
    requests g.log = requests f.log := by
  induction es generalizing f with
  | nil =>
    cases hr
    rfl
  | cons event es ih =>
    rw [run_cons] at hr
    obtain ⟨f', hstep, hrest⟩ := Option.bind_eq_some_iff.mp hr
    have hes : ∀ event ∈ es, DuringSearch first event :=
      fun e hm => he e (List.mem_cons_of_mem event hm)
    rcases he event List.mem_cons_self with hedit | ⟨id, completion, rfl, hid⟩
    · obtain ⟨isbn, scanned, rfl⟩ := edit_cases hedit hstep
      exact ih (f := f.withIsbn isbn scanned) hf hes hrest
    · obtain ⟨t, network, hfin, _⟩ := response_cases hstep
      rw [hf.no_finish hid completion] at hfin
      cases hfin

/-- Each id is below the next one. -/
def IdsBelow (network : NetworkManager) : Prop := NoneInFlight network.nextId network

theorem idsBelow_start {network : NetworkManager} (h : IdsBelow network) (provider : Provider)
    (fullUrl : URL) (isbn : String) : IdsBelow (network.start provider fullUrl isbn) := by
  have hnext : (network.start provider fullUrl isbn).nextId = network.nextId + 1 := rfl
  refine ⟨Nat.le_refl _, ?_⟩
  rw [ids_start, hnext]
  intro i hi
  rcases List.mem_append.mp hi with hold | hnew
  · have := h.2 i hold
    omega
  · have := List.mem_singleton.mp hnew
    omega

theorem idsBelow_providerCall {P : Platform Data} {f : AddMenu} (h : IdsBelow f.network)
    (provider : Provider) : IdsBelow (f.providerCall P provider).network := by
  cases hu : provider.fullUrl P f.isbnFromTextField with
  | none =>
    rw [providerCall_of_no_url hu]
    exact h
  | some fullUrl =>
    rw [providerCall_of_url hu]
    exact idsBelow_start h provider fullUrl f.isbnFromTextField

theorem idsBelow_step (P : Platform Data) (f : AddMenu) (event : Event Data) (f' : AddMenu)
    (hf : IdsBelow f.network) (h : step P f event = some f') : IdsBelow f'.network := by
  rcases step_cases h with ⟨_, rfl⟩ | ⟨id, completion, rfl⟩ | ⟨uid, rfl⟩ | hfields
  · exact idsBelow_providerCall (f := f.toggleIndicator false) hf .googleBooks
  · obtain ⟨t, network, hfin, hcases⟩ := response_cases h
    have hnetwork : IdsBelow network := by
      obtain ⟨_, _, rfl⟩ := finish_eq_some hfin
      refine ⟨Nat.le_refl _, ?_⟩
      intro i hi
      obtain ⟨other, hother, rfl⟩ := List.mem_map.mp hi
      exact hf.2 other.id (List.mem_map_of_mem (List.mem_of_mem_filter hother))
    rcases hcases with ⟨_, _, _, rfl⟩ | ⟨_, _, _, rfl⟩ | ⟨_, _, rfl⟩ | ⟨provider, _, _, rfl⟩
    · exact hnetwork
    · exact hnetwork
    · exact hnetwork
    · exact idsBelow_providerCall (f := { f with network }) hnetwork provider
  · rcases save_cases h with ⟨_, rfl | rfl | ⟨_, _, rfl⟩⟩ | ⟨_, _, _, rfl⟩
    · exact hf
    · exact hf
    · exact hf
    · exact hf
  · rw [hfields.network]
    exact hf

/-! ## One step of a search -/

/-- A step of a search is an edit, or a response with the request that it sends. -/
theorem during_cases {P : Platform Data} {first : Nat} {f f' : AddMenu} {event : Event Data}
    (he : DuringSearch first event) (h : step P f event = some f') :
    requests f'.log = requests f.log ++ (sentBy P f event).toList ∧
      ((isIsbnEdit event = true ∧ handsOver P f event = none ∧
          ∃ isbn scanned, f' = f.withIsbn isbn scanned) ∨
        (isIsbnEdit event = false ∧
          ∃ id completion, event = .response id completion ∧ first ≤ id)) := by
  rcases he with hedit | ⟨id, completion, rfl, hid⟩
  · have hover : handsOver P f event = none := by
      cases event with
      | response id completion => cases hedit
      | viewDidLoad | viewWillAppear | editTitle _ | editAuthor _ | editIsbn _ | scan _
      | addManually | search | save _ | cancelDialog => rfl
    obtain ⟨isbn, scanned, rfl⟩ := edit_cases hedit h
    refine ⟨?_, Or.inl ⟨hedit, hover, isbn, scanned, rfl⟩⟩
    unfold sentBy
    rw [hover]
    simp [AddMenu.withIsbn]
  · exact ⟨requests_response h, Or.inr ⟨rfl, id, completion, rfl, hid⟩⟩

theorem requests_run {P : Platform Data} {first : Nat} {f g : AddMenu} {es : List (Event Data)}
    (he : ∀ event ∈ es, DuringSearch first event) (hr : run (step P) f es = some g) :
    requests f.log <+: requests g.log := by
  induction es generalizing f with
  | nil =>
    cases hr
    exact List.prefix_refl _
  | cons event es ih =>
    rw [run_cons] at hr
    obtain ⟨f', hstep, hrest⟩ := Option.bind_eq_some_iff.mp hr
    obtain ⟨hsent, _⟩ := during_cases (he event List.mem_cons_self) hstep
    have hmore := ih (fun e hm => he e (List.mem_cons_of_mem event hm)) hrest
    rw [hsent] at hmore
    exact (List.prefix_append _ _).trans hmore

/-! ## Searches that keep their ISBN -/

/-- The events with the edits of the ISBN field taken out. -/
def unedited (es : List (Event Data)) : List (Event Data) := es.filter fun e => !isIsbnEdit e

/-- While each call is the one for the ISBN, the edits change nothing else. -/
theorem run_unedited {P : Platform Data} {first : Nat} {f g : AddMenu} {es : List (Event Data)}
    {isbn scanned : String} {past : List (AddMenu × Event Data)}
    (he : ∀ event ∈ es, DuringSearch first event)
    (hm : Meets (step P) (fun _ => SameCall P (removeFirstAndLastAndDoubleWhitespace isbn))
      past f es)
    (hr : run (step P) f es = some g) :
    run (step P) (f.withIsbn isbn scanned) (unedited es) = some (g.withIsbn isbn scanned) := by
  induction es generalizing f past with
  | nil =>
    cases hr
    rfl
  | cons event es ih =>
    rw [run_cons] at hr
    obtain ⟨f', hstep, hrest⟩ := Option.bind_eq_some_iff.mp hr
    have hes : ∀ event ∈ es, DuringSearch first event :=
      fun e hmem => he e (List.mem_cons_of_mem event hmem)
    obtain ⟨hw, hm⟩ := hm
    rw [hstep] at hm
    obtain ⟨_, ⟨hedit, _, i, s, rfl⟩ | ⟨hedit, id, completion, rfl, _⟩⟩ :=
      during_cases (he event List.mem_cons_self) hstep
    · have hrun := ih hes hm hrest
      unfold unedited
      rw [List.filter_cons_of_neg (by simp [hedit])]
      exact hrun
    · unfold unedited
      rw [List.filter_cons_of_pos (by simp [hedit]), run_cons, response_withIsbn hw hstep,
        Option.bind_some]
      exact ih hes hm hrest

/-- While each call is the one for the ISBN, each request is for the ISBN. -/
theorem asked_of_sameCall {P : Platform Data} {first : Nat} {f g : AddMenu}
    {es : List (Event Data)} {isbn : String} {past : List (AddMenu × Event Data)}
    (he : ∀ event ∈ es, DuringSearch first event)
    (hm : Meets (step P) (fun _ => SameCall P isbn) past f es)
    (hr : run (step P) f es = some g) :
    ∃ sent, requests g.log = requests f.log ++ sent ∧ ∀ request ∈ sent, request.2.1 = isbn := by
  induction es generalizing f past with
  | nil =>
    cases hr
    exact ⟨[], by simp, by simp⟩
  | cons event es ih =>
    rw [run_cons] at hr
    obtain ⟨f', hstep, hrest⟩ := Option.bind_eq_some_iff.mp hr
    obtain ⟨hw, hm⟩ := hm
    rw [hstep] at hm
    obtain ⟨hsent, _⟩ := during_cases (he event List.mem_cons_self) hstep
    obtain ⟨sent, hlater, hall⟩ :=
      ih (fun e hmem => he e (List.mem_cons_of_mem event hmem)) hm hrest
    refine ⟨(sentBy P f event).toList ++ sent, ?_, ?_⟩
    · rw [hlater, hsent, List.append_assoc]
    · intro request hreq
      rcases List.mem_append.mp hreq with hnow | hlater
      · obtain ⟨provider, hover, hcall⟩ :=
          Option.bind_eq_some_iff.mp (Option.mem_toList.mp hnow)
        obtain ⟨call, hcallOf, rfl⟩ := Option.map_eq_some_iff.mp hcall
        rw [hw provider hover] at hcallOf
        exact isbn_of_callOf hcallOf
      · exact hall request hlater

/-- A response keeps the ISBN, if the search keeps it up to the end. -/
theorem sameCall_of_response {P : Platform Data} {first id : Nat} {f f' g : AddMenu}
    {completion : Completion Data} {es : List (Event Data)} {isbn scanned : String}
    (hone : OneInFlight first f.network) (hid : first ≤ id)
    (hstep : step P f (.response id completion) = some f')
    (hes : ∀ event ∈ es, DuringSearch first event) (hr : run (step P) f' es = some g)
    (hasked : ∃ sent, requests g.log = requests f.log ++ sent ∧
      ∀ request ∈ sent, request.2.1 = removeFirstAndLastAndDoubleWhitespace isbn)
    (hun : ∃ g', run (step P) (f.withIsbn isbn scanned)
        (.response id completion :: unedited es) = some g' ∧
      requests g'.log = requests g.log) :
    SameCall P (removeFirstAndLastAndDoubleWhitespace isbn) f (.response id completion) := by
  intro provider hover
  have hsent := requests_response hstep
  cases hcall : callOf P provider f.isbnFromTextField with
  | some call =>
    -- the request was sent, so it is for the ISBN, and the field says the same
    have hby : sentBy P f (.response id completion) = some (provider, call) := by
      simp [sentBy, Option.mem_def.mp hover, hcall]
    obtain ⟨sent, hg, hall⟩ := hasked
    obtain ⟨more, hmore⟩ := requests_run hes hr
    rw [hsent, hby, hg, List.append_assoc, List.append_cancel_left_eq] at hmore
    have hin : (provider, call) ∈ sent := by
      rw [← hmore]
      exact List.mem_append_left _ List.mem_cons_self
    have hisbn := (isbn_of_callOf hcall).symm.trans (hall _ hin)
    rw [← hcall, hisbn]
  | none =>
    by_contra hne
    obtain ⟨call, hcall0⟩ := Option.ne_none_iff_exists'.mp (Ne.symm hne)
    -- the search is over, and without the edits it sends one more request
    have hby : sentBy P f (.response id completion) = none := by
      simp [sentBy, Option.mem_def.mp hover, hcall]
    have hover' : handsOver P (f.withIsbn isbn scanned) (.response id completion) =
        some provider := by
      rw [handsOver_withIsbn]
      exact hover
    have hby' : sentBy P (f.withIsbn isbn scanned) (.response id completion) =
        some (provider, call) := by
      unfold sentBy
      rw [hover', Option.bind_some]
      change Option.map _ (callOf P provider (removeFirstAndLastAndDoubleWhitespace isbn)) = _
      rw [hcall0]
      rfl
    have hnone := (oneInFlight_response hone hid hstep).2 hby
    have hg := requests_of_noneInFlight hnone hes hr
    rw [hsent, hby, Option.toList_none, List.append_nil] at hg
    obtain ⟨g', hr', hg'⟩ := hun
    rw [run_cons] at hr'
    obtain ⟨f1, hstep', hrest'⟩ := Option.bind_eq_some_iff.mp hr'
    have hsent' := requests_response hstep'
    have hun' : ∀ event ∈ unedited es, DuringSearch first event :=
      fun event hm => hes event (List.mem_of_mem_filter hm)
    have hlen := (requests_run hun' hrest').length_le
    rw [hsent', hby', hg', hg, List.length_append] at hlen
    simp only [AddMenu.withIsbn, Option.toList_some, List.length_singleton] at hlen
    omega

/-- A search that keeps its ISBN, and sends what it sends without the edits,
makes each call for the ISBN. -/
theorem sameCall_of_run {P : Platform Data} {first : Nat} {f g : AddMenu} {es : List (Event Data)}
    {isbn scanned : String} {past : List (AddMenu × Event Data)}
    (hone : OneInFlight first f.network) (he : ∀ event ∈ es, DuringSearch first event)
    (hr : run (step P) f es = some g)
    (hasked : ∃ sent, requests g.log = requests f.log ++ sent ∧
      ∀ request ∈ sent, request.2.1 = removeFirstAndLastAndDoubleWhitespace isbn)
    (hun : ∃ g', run (step P) (f.withIsbn isbn scanned) (unedited es) = some g' ∧
      requests g'.log = requests g.log) :
    Meets (step P) (fun _ => SameCall P (removeFirstAndLastAndDoubleWhitespace isbn))
      past f es := by
  induction es generalizing f past with
  | nil => trivial
  | cons event es ih =>
    rw [run_cons] at hr
    obtain ⟨f', hstep, hrest⟩ := Option.bind_eq_some_iff.mp hr
    have hes : ∀ event ∈ es, DuringSearch first event :=
      fun e hmem => he e (List.mem_cons_of_mem event hmem)
    obtain ⟨hsent, hcases⟩ := during_cases (he event List.mem_cons_self) hstep
    rcases hcases with ⟨hedit, hover, i, s, rfl⟩ | ⟨hedit, id, completion, rfl, hid⟩
    · refine ⟨?_, ?_⟩
      · intro provider hp
        rw [hover] at hp
        cases hp
      · rw [hstep]
        unfold unedited at hun
        rw [List.filter_cons_of_neg (by simp [hedit])] at hun
        exact ih (f := f.withIsbn i s) hone hes hrest hasked hun
    · unfold unedited at hun
      rw [List.filter_cons_of_pos (by simp [hedit])] at hun
      have hw := sameCall_of_response hone hid hstep hes hrest hasked hun
      refine ⟨hw, ?_⟩
      rw [hstep]
      obtain ⟨g', hr', hg'⟩ := hun
      rw [run_cons, response_withIsbn hw hstep, Option.bind_some] at hr'
      apply ih (oneInFlight_response hone hid hstep).1 hes hrest ?_ ⟨g', hr', hg'⟩
      obtain ⟨sent, hg, hall⟩ := hasked
      obtain ⟨more, hmore⟩ := requests_run hes hrest
      refine ⟨more, hmore.symm, ?_⟩
      intro request hreq
      apply hall request
      rw [hsent, hg, List.append_assoc, List.append_cancel_left_eq] at hmore
      rw [← hmore]
      exact List.mem_append_right _ hreq

/-! ## The laws -/

/-- The search that turned `f0` to `f1` went on to `f` by the events. Each of
its requests was for the cleaned ISBN that stood in the field, and without the
edits it sends the same requests and puts the same book into the form. -/
structure AboutOneIsbn (P : Platform Data) (f0 f1 : AddMenu) (es : List (Event Data))
    (f : AddMenu) : Prop where
  asked : ∃ sent, requests f.log = requests f0.log ++ sent ∧
    ∀ request ∈ sent, request.2.1 = f0.isbnFromTextField
  sameWithoutEdits : ∃ g, run (step P) f1 (unedited es) = some g ∧
    requests g.log = requests f.log ∧ g.bookToSave = f.bookToSave ∧
    g.titleTextField = f.titleTextField ∧ g.authorTextField = f.authorTextField

/-- A search is about one ISBN exactly when each provider that it goes on to is
still called for the ISBN of the start, or for no URL in both cases. -/
theorem a_search_is_about_one_isbn_iff_each_call_is (P : Platform Data) (scannedIsbn : String)
    (before es : List (Event Data)) (f0 f1 f : AddMenu)
    (h0 : run (step P) (.initial scannedIsbn) before = some f0)
    (hs : step P f0 .search = some f1)
    (he : ∀ event ∈ es, DuringSearch f0.network.nextId event)
    (hr : run (step P) f1 es = some f) :
    AboutOneIsbn P f0 f1 es f ↔
      Meets (step P) (fun _ => SameCall P f0.isbnFromTextField) [] f1 es := by
  have hids : IdsBelow f0.network :=
    always_of_run (fun f => IdsBelow f.network) (idsBelow_step P)
      ⟨Nat.le_refl _, fun i hi => by cases hi⟩ h0
  have hf1 : f1 = (f0.toggleIndicator false).providerCall P .googleBooks := search_eq hs
  have hfirst : requests f1.log = requests f0.log ++
      ((callOf P .googleBooks f0.isbnFromTextField).map fun call =>
        (Provider.googleBooks, call)).toList := by
    rw [hf1]
    exact requests_providerCall P .googleBooks (f0.toggleIndicator false)
  have hone : OneInFlight f0.network.nextId f1.network := by
    rw [hf1]
    exact (NoneInFlight.providerCall (f := f0.toggleIndicator false) hids .googleBooks).1
  have hsame : f1.withIsbn f0.isbnTextField f1.scannedIsbn = f1 := by
    rw [hf1]
    exact withIsbn_providerCall P .googleBooks (f0.toggleIndicator false)
  constructor
  · rintro ⟨⟨sent, hsent, hall⟩, g, hg, hreq, _⟩
    have hun : ∃ g, run (step P) (f1.withIsbn f0.isbnTextField f1.scannedIsbn) (unedited es) =
        some g ∧ requests g.log = requests f.log := by
      rw [hsame]
      exact ⟨g, hg, hreq⟩
    apply sameCall_of_run hone he hr ?_ hun
    obtain ⟨more, hmore⟩ := requests_run he hr
    refine ⟨more, hmore.symm, ?_⟩
    intro request hin
    apply hall request
    rw [hfirst, hsent, List.append_assoc, List.append_cancel_left_eq] at hmore
    rw [← hmore]
    exact List.mem_append_right _ hin
  · intro hm
    refine ⟨?_, f.withIsbn f0.isbnTextField f1.scannedIsbn, ?_, rfl, rfl, rfl, rfl⟩
    · obtain ⟨sent, hsent, hall⟩ := asked_of_sameCall he hm hr
      refine ⟨((callOf P .googleBooks f0.isbnFromTextField).map fun call =>
        (Provider.googleBooks, call)).toList ++ sent, ?_, ?_⟩
      · rw [hsent, hfirst, List.append_assoc]
      · intro request hin
        rcases List.mem_append.mp hin with hgoogle | hlater
        · obtain ⟨call, hcall, rfl⟩ := Option.map_eq_some_iff.mp (Option.mem_toList.mp hgoogle)
          exact isbn_of_callOf hcall
        · exact hall request hlater
    · have hrun : run (step P) (f1.withIsbn f0.isbnTextField f1.scannedIsbn) (unedited es) =
          some (f.withIsbn f0.isbnTextField f1.scannedIsbn) := run_unedited he hm hr
      rw [hsame] at hrun
      exact hrun

/-- The user types an ISBN. -/
def typedIsbn : List (Event DecodedData) := [.viewDidLoad, .editIsbn "9782070411429"]

/-- Google Books fails, and then the user adds a space that the cleaning drops. -/
def harmlessEdit : List (Event DecodedData) :=
  [.editIsbn "9782070411429 ", .response 0 offline, .response 1 (ok200 entryOfOtherEdition)]

theorem a_search_with_a_harmless_edit_is_about_one_isbn :
    ∃ f0 f1 f, run (step decodedPlatform) (.initial "") typedIsbn = some f0 ∧
      step decodedPlatform f0 .search = some f1 ∧
      run (step decodedPlatform) f1 harmlessEdit = some f ∧
      AboutOneIsbn decodedPlatform f0 f1 harmlessEdit f := by
  have hrun : ((run (step decodedPlatform) (.initial "") typedIsbn).bind fun f0 =>
      (step decodedPlatform f0 .search).bind fun f1 =>
        (run (step decodedPlatform) f1 harmlessEdit).map fun _ =>
          (f0.network.nextId, decide (Meets (step decodedPlatform)
            (fun _ => SameCall decodedPlatform f0.isbnFromTextField) [] f1 harmlessEdit))) =
      some (0, true) := by
    decide +kernel
  obtain ⟨f0, h0, hrun⟩ := Option.bind_eq_some_iff.mp hrun
  obtain ⟨f1, hs, hrun⟩ := Option.bind_eq_some_iff.mp hrun
  obtain ⟨f, hr, hpair⟩ := Option.map_eq_some_iff.mp hrun
  obtain ⟨hid, hmeets⟩ := Prod.mk.inj hpair
  have he : ∀ event ∈ harmlessEdit, DuringSearch f0.network.nextId event := by
    rw [hid]
    simp [harmlessEdit, DuringSearch, isIsbnEdit]
  exact ⟨f0, f1, f, h0, hs, hr, (a_search_is_about_one_isbn_iff_each_call_is decodedPlatform ""
    typedIsbn harmlessEdit f0 f1 f h0 hs he hr).mpr (of_decide_eq_true hmeets)⟩

/-- The user types another ISBN before Google Books fails. -/
def otherIsbn : List (Event DecodedData) := [.editIsbn "9782253003656", .response 0 offline]

theorem an_edit_turns_the_search_to_another_isbn :
    ∃ f0 f1 f, run (step decodedPlatform) (.initial "") typedIsbn = some f0 ∧
      step decodedPlatform f0 .search = some f1 ∧
      (∀ event ∈ otherIsbn, DuringSearch f0.network.nextId event) ∧
      run (step decodedPlatform) f1 otherIsbn = some f ∧
      ¬ AboutOneIsbn decodedPlatform f0 f1 otherIsbn f := by
  have hrun : ((run (step decodedPlatform) (.initial "") typedIsbn).bind fun f0 =>
      (step decodedPlatform f0 .search).bind fun f1 =>
        (run (step decodedPlatform) f1 otherIsbn).map fun f =>
          ((f0.network.nextId, f0.isbnFromTextField),
            (requests f0.log).length, (requests f.log).map (·.2.1))) =
      some ((0, "9782070411429"), 0, ["9782070411429", "9782253003656"]) := by
    decide +kernel
  obtain ⟨f0, h0, hrun⟩ := Option.bind_eq_some_iff.mp hrun
  obtain ⟨f1, hs, hrun⟩ := Option.bind_eq_some_iff.mp hrun
  obtain ⟨f, hr, hread⟩ := Option.map_eq_some_iff.mp hrun
  simp only [Prod.mk.injEq] at hread
  obtain ⟨⟨hid, hfield⟩, hlog, hasked⟩ := hread
  refine ⟨f0, f1, f, h0, hs, ?_, hr, ?_⟩
  · rw [hid]
    simp [otherIsbn, DuringSearch, isIsbnEdit]
  · rintro ⟨⟨sent, hsent, hall⟩, _⟩
    rw [hsent, List.eq_nil_of_length_eq_zero hlog, List.nil_append] at hasked
    have hin : "9782253003656" ∈ sent.map (·.2.1) := by
      rw [hasked]
      simp
    obtain ⟨request, hmem, hother⟩ := List.mem_map.mp hin
    have hsame := hall request hmem
    rw [hother, hfield] at hsame
    simp at hsame

end xellissime_book.add_menu
