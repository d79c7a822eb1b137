-- The connection never gets stuck: from every state that a run reaches, the
-- network alone can bring it up again and get every write answered.
import XellissimeBook.OrderedAnswers

open path_tree runs

namespace xellissime_book.persistent_connection

open FPersistentConnection

/-! ## The next attempt -/

/-- A connection that nothing interrupts has its next attempt ahead. -/
structure Live (c : FPersistentConnection) : Prop where
  scheduled : c.interruptReasons = [] → c.connectionState = .disconnected →
    c.scheduledRetry = true
  fetching : c.connectionState = .gettingToken → c.currentFetchTokenAttempt ∈ c.fetches

section
variable {c c' : FPersistentConnection}

theorem live_init : Live .init where
  scheduled h := by cases h
  fetching h := by cases h

theorem live_of_hasRealtime (h : c.hasRealtime = true) : Live c where
  scheduled _ hstate := by simp [hasRealtime, isConnected, hstate] at h
  fetching hstate := by simp [hasRealtime, isConnected, hstate] at h

theorem live_tryScheduleReconnect (h : c.connectionState = .disconnected) :
    Live c.tryScheduleReconnect := by
  unfold tryScheduleReconnect
  split
  · exact ⟨fun _ _ => rfl, fun hstate => absurd (h.symm.trans hstate) (by simp)⟩
  · rename_i hreasons
    refine ⟨fun hnone => ?_, fun hstate => absurd (h.symm.trans hstate) (by simp)⟩
    simp [shouldReconnect, hnone] at hreasons

theorem live_onDisconnect (c : FPersistentConnection) : Live c.onDisconnect := by
  simp only [onDisconnect]
  split
  · apply live_tryScheduleReconnect
    rfl
  · rename_i hreasons
    refine ⟨fun hnone => ?_, fun hstate => by cases hstate⟩
    simp only at hnone
    simp [shouldReconnect, hnone] at hreasons

theorem live_resumeForReason (h : Live c) (reason : String) : Live (c.resumeForReason reason) := by
  simp only [resumeForReason]
  split
  · rename_i hdown
    exact live_tryScheduleReconnect hdown.2
  · rename_i hstays
    refine ⟨fun hnone hstate => absurd ⟨?_, hstate⟩ hstays, h.fetching⟩
    exact List.isEmpty_iff.mpr hnone

theorem live_interruptForReason (c : FPersistentConnection) (reason : String) :
    Live (c.interruptForReason reason) := by
  simp only [interruptForReason]
  split
  · exact live_onDisconnect _
  · refine ⟨fun hnone => ?_, fun hstate => by cases hstate⟩
    have hmem : reason ∈ c.interruptReasons.insert reason := List.mem_insert_self
    simp only at hnone
    rw [hnone] at hmem
    cases hmem

theorem live_fetchedToken (h : Live c) {attempt : Nat} {token : Option (Option String)}
    (hs : c.fetchedToken attempt token = some c') : Live c' := by
  simp only [fetchedToken] at hs
  split at hs
  · split at hs
    · cases token with
      | none =>
        cases hs
        apply live_tryScheduleReconnect
        rfl
      | some token =>
        simp only at hs
        split at hs
        · cases hs
          apply live_of_hasRealtime
          simp [hasRealtime, openNetworkConnectionWithToken]
        · rename_i hstate
          cases hs
          exact ⟨h.scheduled, fun hgetting => absurd hgetting hstate⟩
    · rename_i hstale
      cases hs
      refine ⟨h.scheduled, fun hstate => ?_⟩
      exact (List.mem_erase_of_ne (Ne.symm hstale)).mpr (h.fetching hstate)
  · cases hs

theorem live_runCallback (h : c.hasRealtime = true) (status : String) (callback : Callback) :
    Live (c.runCallback status callback) := by
  cases callback with
  | stats => exact live_of_hasRealtime h
  | auth restoreStateAfterComplete =>
    simp only [runCallback]
    split
    · apply live_of_hasRealtime
      split
      · simp [hasRealtime, isConnected, (sends_restoreState _).state]
      · simp [hasRealtime, isConnected]
    · exact live_onDisconnect _
  | put index =>
    simp only [runCallback]
    split
    · split
      · exact live_of_hasRealtime h
      · exact live_of_hasRealtime h
    · exact live_of_hasRealtime h
  | listen path spec =>
    obtain ⟨listens, listened, hrun⟩ := runCallback_listen c status path spec
    rw [hrun]
    simp only
    split
    · exact live_of_hasRealtime h
    · exact live_of_hasRealtime h

theorem live_step {e : ConnectionEvent} (hc : Consistent c) (h : Live c)
    (hs : step c e = some c') : Live c' := by
  cases e with
  | resume reason =>
    cases hs
    exact live_resumeForReason h reason
  | interrupt reason =>
    cases hs
    exact live_interruptForReason c reason
  | reachable =>
    cases hs
    split
    · rename_i hstate
      exact live_tryScheduleReconnect hstate
    · exact h
  | retry =>
    simp only [step, FPersistentConnection.retry] at hs
    split at hs
    · cases hs
      exact ⟨fun _ hstate => (by cases hstate), fun _ => (by simp)⟩
    · cases hs
  | fetchedToken attempt token => exact live_fetchedToken h hs
  | ready =>
    apply live_of_hasRealtime
    rcases onReady_cases hs with hsends | hsends
    · simp [hasRealtime, isConnected, hsends.state]
    · simp [hasRealtime, isConnected, hsends.state]
  | response rn status =>
    simp only [step] at hs
    split at hs
    · rename_i hreal
      cases hs
      rcases onResponse_cases hc rn status with hsame | ⟨callback, before, after, _, hrun⟩
      · rw [hsame]
        exact h
      · rw [hrun]
        apply live_runCallback
        exact hreal
    · cases hs
  | disconnect =>
    simp only [step] at hs
    split at hs
    · cases hs
      exact live_onDisconnect c
    · cases hs
  | kill =>
    cases hs
    exact live_interruptForReason c kFInterruptReasonServerKill
  | authRevoked =>
    simp only [step, onAuthRevoked] at hs
    split at hs
    · cases hs
      exact live_onDisconnect _
    · cases hs
  | listenRevoked path =>
    cases hs
    unfold onListenRevoked
    split
    · exact h
    · exact ⟨h.scheduled, h.fetching⟩
  | refreshAuthToken token =>
    cases hs
    simp only [FPersistentConnection.refreshAuthToken]
    split
    · cases token with
      | none => exact ⟨h.scheduled, h.fetching⟩
      | some token => exact ⟨h.scheduled, h.fetching⟩
    · exact ⟨h.scheduled, h.fetching⟩
  | listen path =>
    simp only [step, FPersistentConnection.listen] at hs
    split at hs
    · cases hs
      split
      · exact ⟨h.scheduled, h.fetching⟩
      · exact ⟨h.scheduled, h.fetching⟩
    · cases hs
  | unlisten path =>
    cases hs
    unfold FPersistentConnection.unlisten
    split
    · exact h
    · simp only
      split
      · exact ⟨h.scheduled, h.fetching⟩
      · exact ⟨h.scheduled, h.fetching⟩
  | put =>
    cases hs
    simp only [putInternal]
    split
    · exact ⟨h.scheduled, h.fetching⟩
    · exact ⟨h.scheduled, h.fetching⟩
  | purge =>
    cases hs
    exact ⟨h.scheduled, h.fetching⟩

theorem live_run {events : List ConnectionEvent} (hrun : run step .init events = some c) :
    Consistent c ∧ Live c := by
  refine always_of_run (fun c => Consistent c ∧ Live c) ?_ ⟨consistent_init, live_init⟩ hrun
  intro c e c' ⟨hc, hl⟩ hs
  exact ⟨consistent_step hc hs, live_step hc hl hs⟩

/-! ## What the network alone can do -/

/-- The attempts, the losses of the connection and the responses. -/
def ConnectionEvent.ofNetwork : ConnectionEvent → Bool
  | .retry => true
  | .fetchedToken _ _ => true
  | .ready => true
  | .response _ _ => true
  | .disconnect => true
  | _ => false

/-- The network alone can bring the connection from the one state to the other. -/
def Reaches (c c' : FPersistentConnection) : Prop :=
  ∃ later, (∀ e ∈ later, ConnectionEvent.ofNetwork e = true) ∧ run step c later = some c'

theorem reaches_refl (c : FPersistentConnection) : Reaches c c :=
  ⟨[], by simp, rfl⟩

theorem Reaches.head {c1 : FPersistentConnection} {e : ConnectionEvent} (h : Reaches c1 c')
    (he : e.ofNetwork = true) (hs : step c e = some c1) : Reaches c c' := by
  obtain ⟨later, hnetwork, hrun⟩ := h
  refine ⟨e :: later, List.forall_mem_cons.mpr ⟨he, hnetwork⟩, ?_⟩
  rw [run_cons, hs, Option.bind_some, hrun]

theorem Reaches.trans {c1 : FPersistentConnection} (h : Reaches c c1) (h' : Reaches c1 c') :
    Reaches c c' := by
  obtain ⟨later, hnetwork, hrun⟩ := h
  obtain ⟨last, hnetwork', hrun'⟩ := h'
  refine ⟨later ++ last, ?_, ?_⟩
  · intro e he
    rcases List.mem_append.mp he with he | he
    · exact hnetwork e he
    · exact hnetwork' e he
  · rw [run_append, hrun, Option.bind_some, hrun']

theorem Reaches.keeps (h : Reaches c c') (hc : Consistent c) (hk : Kept c.writeLog) :
    Consistent c' ∧ Kept c'.writeLog := by
  obtain ⟨later, _, hrun⟩ := h
  exact keeps_run hc hk hrun

/-! ## The requests are answered in turn -/

theorem inOrder_first {rn : Nat} {callback : Callback} {after : List (Nat × Callback)}
    (h : Consistent c) (hfirst : c.requestCBHash = (rn, callback) :: after) (status : String) :
    InOrder c (.response rn status) := by
  intro entry hentry
  have hascending := h.numbered.1
  rw [hfirst] at hentry
  rw [hfirst, List.map_cons, List.pairwise_cons] at hascending
  rcases List.mem_cons.mp hentry with rfl | hlater
  · exact le_rfl
  · exact Nat.le_of_lt (hascending.1 _ (List.mem_map_of_mem hlater))

theorem onResponse_first {rn : Nat} {callback : Callback} {after : List (Nat × Callback)}
    (h : Consistent c) (hfirst : c.requestCBHash = (rn, callback) :: after) (status : String) :
    c.onResponse rn status = { c with requestCBHash := after }.runCallback status callback := by
  have hkey : getKey rn c.requestCBHash = some callback := by simp [hfirst, getKey]
  have hnodup : (c.requestCBHash.map Prod.fst).Nodup := h.numbered.1.imp Nat.ne_of_lt
  obtain ⟨before, rest, hsplit, herase⟩ := exists_split_of_getKey hnodup hkey
  obtain rfl := before_eq_nil h (inOrder_first h hfirst status) hsplit
  rw [hfirst, List.nil_append, List.cons.injEq] at hsplit
  obtain ⟨_, rfl⟩ := hsplit
  unfold onResponse
  rw [hkey]
  simp only [herase, List.nil_append]

/-- While the connection is up, an answer is only held back for a listen. -/
def HeldForListens (c : FPersistentConnection) : Prop :=
  c.putsToAck ≠ [] → 0 < c.unackedListensCount

/-- A request without credentials is answered, and the next one is the first. -/
theorem runCallback_first {callback : Callback} (hauth : ∀ restore, callback ≠ .auth restore)
    (hheld : HeldForListens c) :
    (c.runCallback "ok" callback).requestCBHash = c.requestCBHash ∧
      (c.runCallback "ok" callback).connectionState = c.connectionState ∧
      HeldForListens (c.runCallback "ok" callback) := by
  cases callback with
  | stats => exact ⟨rfl, rfl, hheld⟩
  | auth restoreStateAfterComplete => exact absurd rfl (hauth _)
  | put index =>
    simp only [runCallback]
    split
    · split
      · exact ⟨rfl, rfl, hheld⟩
      · rename_i hcount
        exact ⟨rfl, rfl, fun _ => Nat.pos_of_ne_zero hcount⟩
    · exact ⟨rfl, rfl, hheld⟩
  | listen path spec =>
    obtain ⟨listens, listened, hrun⟩ := runCallback_listen c "ok" path spec
    rw [hrun]
    simp only
    split
    · exact ⟨rfl, rfl, fun hne => absurd rfl hne⟩
    · rename_i hcount
      exact ⟨rfl, rfl, fun _ => Nat.pos_of_ne_zero hcount⟩

/-- The server answers every request that waits, and no write is open then. -/
theorem exists_answered (h : Consistent c) (hk : Kept c.writeLog) (hw : Wired c)
    (hup : c.connectionState = .connected) (hauth : ∀ restore, .auth restore ∉ c.callbacks)
    (hheld : HeldForListens c) :
    ∃ c', Reaches c c' ∧ c'.outstandingPuts = [] ∧ c'.putsToAck = [] := by
  induction hrequests : c.requestCBHash generalizing c with
  | nil =>
    have hnone : c.callbacks = [] := by rw [callbacks, hrequests, List.map_nil]
    refine ⟨c, reaches_refl c, ?_, ?_⟩
    · have hopen := (hw.connected hup).1
      rw [puts, hnone] at hopen
      exact hopen.symm
    · by_contra hne
      have hpos := hheld hne
      rw [h.counted, hnone] at hpos
      exact absurd hpos (by simp)
  | cons entry after ih =>
    obtain ⟨rn, callback⟩ := entry
    have hcallbacks : c.callbacks = callback :: after.map Prod.snd := by
      rw [callbacks, hrequests, List.map_cons]
    have hfirst : ∀ restore, callback ≠ .auth restore := by
      rintro restore rfl
      exact hauth restore (by simp [hcallbacks])
    have hs : step c (.response rn "ok") = some (c.onResponse rn "ok") := by
      simp [step, hasRealtime, isConnected, hup]
    have hrun := onResponse_first h hrequests "ok"
    obtain ⟨hafter, hstate, hheld'⟩ :=
      runCallback_first (c := { c with requestCBHash := after }) hfirst hheld
    rw [← hrun] at hafter hstate hheld'
    have hauth' : ∀ restore, Callback.auth restore ∉ (c.onResponse rn "ok").callbacks := by
      intro restore hmem
      rw [callbacks, hafter] at hmem
      exact hauth restore (by rw [hcallbacks]; exact List.mem_cons_of_mem _ hmem)
    obtain ⟨c', hreaches, hputs, hacks⟩ := ih (consistent_step h hs) (kept_step h hk hs)
      (wired_step h hk hw (inOrder_first h hrequests "ok") hs) (hstate.trans hup) hauth' hheld'
      hafter
    exact ⟨c', hreaches.head rfl hs, hputs, hacks⟩

/-! ## The connection comes up -/

/-- Without credentials the state is restored at once. -/
theorem exists_ready (hstate : c.connectionState = .connecting) (htoken : c.authToken = none) :
    ∃ c', c.onReady = some c' ∧
      Sends (connectStats c ++ restored c) { c with connectionState := .connected } c' := by
  have hready : ∃ c', c.onReady = some c' := by
    simp [onReady, hstate]
  obtain ⟨c', hready⟩ := hready
  refine ⟨c', hready, ?_⟩
  rcases onReady_cases hready with hsends | hsends
  · exact hsends
  · have hauthenticating := hsends.state
    simp only [onReady, hstate, if_true, Option.some.injEq] at hready
    rw [← hready] at hauthenticating
    have hnone :
        (if c.firstConnection then c.sendAction (some .stats) else c).authToken = none := by
      split <;> exact htoken
    simp only [restoreAuth, hnone, (sends_restoreState _).state] at hauthenticating
    cases hauthenticating

theorem exists_retry (hdown : c.connectionState = .disconnected)
    (hscheduled : c.scheduledRetry = true) :
    ∃ d, step c .retry = some d ∧ d.connectionState = .gettingToken ∧
      d.currentFetchTokenAttempt ∈ d.fetches ∧ d.listens = c.listens ∧
      d.writeLog = c.writeLog := by
  let d : FPersistentConnection :=
    { c with
      scheduledRetry := false
      connectionState := .gettingToken
      currentFetchTokenAttempt := c.currentFetchTokenAttempt + 1
      fetches := c.fetches ++ [c.currentFetchTokenAttempt + 1] }
  have hs : step c .retry = some d := if_pos ⟨hscheduled, hdown⟩
  exact ⟨d, hs, rfl, by simp [d], rfl, rfl⟩

/-- A new attempt can begin, with the writes and listens as they are. -/
theorem exists_attempt (hlive : Live c) (hfree : c.interruptReasons = []) :
    ∃ d, Reaches c d ∧ d.connectionState = .gettingToken ∧
      d.currentFetchTokenAttempt ∈ d.fetches ∧ d.listens = c.listens ∧
      d.writeLog = c.writeLog := by
  by_cases hreal : c.hasRealtime = true
  · have hs : step c .disconnect = some c.onDisconnect := by
      rw [step, if_pos hreal]
    have hlost : c.onDisconnect.scheduledRetry = true ∧ c.onDisconnect.listens = c.listens := by
      simp [onDisconnect, tryScheduleReconnect, shouldReconnect, hfree]
    obtain ⟨d, hd, hstate, hfetching, hlistens, hwrites⟩ :=
      exists_retry (drops_onDisconnect c).state hlost.1
    refine ⟨d, ((reaches_refl d).head rfl hd).head rfl hs, hstate, hfetching,
      hlistens.trans hlost.2, hwrites.trans (drops_onDisconnect c).writes⟩
  · cases hstate : c.connectionState with
    | disconnected =>
      obtain ⟨d, hd, hrest⟩ := exists_retry hstate (hlive.scheduled hfree hstate)
      exact ⟨d, (reaches_refl d).head rfl hd, hrest⟩
    | gettingToken => exact ⟨c, reaches_refl c, hstate, hlive.fetching hstate, rfl, rfl⟩
    | connecting => simp [hasRealtime, hstate] at hreal
    | authenticating => simp [hasRealtime, isConnected, hstate] at hreal
    | connected => simp [hasRealtime, isConnected, hstate] at hreal

/-- The attempt succeeds, and the listens and the open writes are sent anew. -/
theorem exists_connected (h : Consistent c) (hk : Kept c.writeLog)
    (hstate : c.connectionState = .gettingToken)
    (hfetching : c.currentFetchTokenAttempt ∈ c.fetches)
    (hlistens : c.putsToAck ≠ [] → c.listens ≠ []) :
    ∃ c', Reaches c c' ∧ c'.connectionState = .connected ∧ Wired c' ∧
      (∀ restore, .auth restore ∉ c'.callbacks) ∧ HeldForListens c' := by
  let d : FPersistentConnection :=
    { c with
      fetches := c.fetches.erase c.currentFetchTokenAttempt
      authToken := none
      connectionState := .connecting }
  have hs : step c (.fetchedToken c.currentFetchTokenAttempt (some none)) = some d := by
    simp [step, fetchedToken, hfetching, hstate, openNetworkConnectionWithToken, d]
  have hd := consistent_step h hs
  have hnone : d.callbacks = [] := hd.offline rfl
  obtain ⟨c', hready, hsends⟩ := exists_ready (c := d) rfl rfl
  have hcomes : step d .ready = some c' := hready
  refine ⟨c', ((reaches_refl c').head rfl hcomes).head rfl hs, hsends.state,
    wired_ready hd (kept_step h hk hs) rfl hready, ?_, ?_⟩
  · intro restore hmem
    have hcallbacks : c'.callbacks = connectStats d ++ restored d := by
      rw [hsends.callbacks]
      exact congrArg (· ++ (connectStats d ++ restored d)) hnone
    rw [hcallbacks] at hmem
    unfold connectStats restored at hmem
    split at hmem <;> simp at hmem
  · intro hheld
    rw [putsToAck_of_writes hsends.writes] at hheld
    have hpos := countP_restored_pos (d := d) (hlistens hheld)
    rw [hsends.counted, List.countP_append]
    omega

/-- No write gets stuck: in whatever state the connection is, when nothing
interrupts it the network alone can get every write answered that the app made,
each once. Only an answer that waits for dropped listens is left waiting. -/
theorem every_write_can_be_answered {events : List ConnectionEvent}
    (hrun : run step .init events = some c) (hfree : c.interruptReasons = [])
    (hlistens : c.putsToAck ≠ [] → c.listens ≠ []) :
    ∃ later c', (∀ e ∈ later, ConnectionEvent.ofNetwork e = true) ∧
      run step c later = some c' ∧
      (c'.completed.map Prod.fst).Perm
        (List.range' 1 (events.countP ConnectionEvent.isPut)) := by
  obtain ⟨hc, hlive⟩ := live_run hrun
  have hk := (kept_run hrun).2
  obtain ⟨d, hattempt, hstate, hfetching, hsame, hwrites⟩ := exists_attempt hlive hfree
  obtain ⟨hd, hkd⟩ := hattempt.keeps hc hk
  have hlistens' : d.putsToAck ≠ [] → d.listens ≠ [] := by
    rw [putsToAck_of_writes hwrites, hsame]
    exact hlistens
  obtain ⟨c1, hcomes, hup, hwired, hauth, hheld⟩ :=
    exists_connected hd hkd hstate hfetching hlistens'
  obtain ⟨hc1, hk1⟩ := hcomes.keeps hd hkd
  obtain ⟨c', hanswered, hputs, hacks⟩ := exists_answered hc1 hk1 hwired hup hauth hheld
  obtain ⟨later, hnetwork, hlater⟩ := (hattempt.trans hcomes).trans hanswered
  refine ⟨later, c', hnetwork, hlater, ?_⟩
  have hall : run step .init (events ++ later) = some c' := by
    rw [run_append, hrun, Option.bind_some, hlater]
  have hnoPut : later.countP ConnectionEvent.isPut = 0 := by
    rw [List.countP_eq_zero]
    intro e he
    have hofNetwork := hnetwork e he
    cases e <;> simp [ConnectionEvent.isPut, ConnectionEvent.ofNetwork] at hofNetwork ⊢
  have hcounter := putCounter_run consistent_init hall
  have honce := (kept_run hall).2.once
  rw [List.countP_append, hnoPut, Nat.add_zero] at hcounter
  simp only [writeLog, hcounter, hputs, hacks, List.append_nil] at honce
  simpa [FPersistentConnection.init] using honce

/-- A write is made while the connection authenticates, and another one after it
is lost again. -/
def lostWrites : List ConnectionEvent :=
  [.resume kFInterruptReasonWaitingForOpen, .listen ["books"], .retry,
    .fetchedToken 1 (some (some "token")), .ready, .put, .disconnect, .put]

theorem the_lost_writes_can_be_answered :
    ∃ c later c', run step .init lostWrites = some c ∧ c.outstandingPuts = [1, 2] ∧
      run step c later = some c' ∧ (c'.completed.map Prod.fst).Perm [1, 2] := by
  have hstate : (run step .init lostWrites).map
      (fun c => (c.outstandingPuts, c.interruptReasons, c.putsToAck)) =
      some ([1, 2], [], []) := by
    decide +kernel
  obtain ⟨c, hrun, heq⟩ := Option.map_eq_some_iff.mp hstate
  simp only [Prod.mk.injEq] at heq
  obtain ⟨hputs, hfree, hacks⟩ := heq
  have hlistens : c.putsToAck ≠ [] → c.listens ≠ [] := fun hne => absurd hacks hne
  obtain ⟨later, c', _, hlater, hanswered⟩ := every_write_can_be_answered hrun hfree hlistens
  exact ⟨c, later, c', hrun, hputs, hlater, hanswered⟩

end

end xellissime_book.persistent_connection
