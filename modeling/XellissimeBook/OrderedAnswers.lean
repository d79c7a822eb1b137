-- The server answers the requests in their order. Then every open write is on
-- the wire while the connection is up, and the app gets the answers of its
-- writes in the order in which it made them.
import XellissimeBook.ConnectionRuns

open path_tree runs

namespace xellissime_book.persistent_connection

open FPersistentConnection

namespace Callback

/-- Whether the request with the credentials restores the state after it. -/
def auth? : Callback → Option Bool
  | .auth restoreStateAfterComplete => some restoreStateAfterComplete
  | _ => none

end Callback

namespace FPersistentConnection

/-- The writes whose requests wait for a response. -/
def puts (c : FPersistentConnection) : List Nat := c.callbacks.filterMap Callback.put?

/-- The requests with credentials that wait for a response. -/
def auths (c : FPersistentConnection) : List Bool := c.callbacks.filterMap Callback.auth?

end FPersistentConnection

/-- A response is to the oldest request that waits for one. -/
def InOrder (c : FPersistentConnection) : ConnectionEvent → Prop
  | .response rn _ => ∀ entry ∈ c.requestCBHash, rn ≤ entry.1
  | _ => True

instance : (c : FPersistentConnection) → (e : ConnectionEvent) → Decidable (InOrder c e)
  | c, .response rn _ => inferInstanceAs (Decidable (∀ entry ∈ c.requestCBHash, rn ≤ entry.1))
  | _, .resume _ => inferInstanceAs (Decidable True)
  | _, .interrupt _ => inferInstanceAs (Decidable True)
  | _, .reachable => inferInstanceAs (Decidable True)
  | _, .retry => inferInstanceAs (Decidable True)
  | _, .fetchedToken _ _ => inferInstanceAs (Decidable True)
  | _, .ready => inferInstanceAs (Decidable True)
  | _, .disconnect => inferInstanceAs (Decidable True)
  | _, .kill => inferInstanceAs (Decidable True)
  | _, .authRevoked => inferInstanceAs (Decidable True)
  | _, .listenRevoked _ => inferInstanceAs (Decidable True)
  | _, .refreshAuthToken _ => inferInstanceAs (Decidable True)
  | _, .listen _ => inferInstanceAs (Decidable True)
  | _, .unlisten _ => inferInstanceAs (Decidable True)
  | _, .put => inferInstanceAs (Decidable True)
  | _, .purge => inferInstanceAs (Decidable True)

/-! ## The requests on the wire -/

/-- While the connection is up, the requests of the open writes wait in their
order; while it authenticates, it sent none and will restore its state. -/
structure Wired (c : FPersistentConnection) : Prop where
  below : ∀ index ∈ c.puts, index < c.putCounter
  connected : c.connectionState = .connected →
    c.puts.filter (· ∈ c.outstandingPuts) = c.outstandingPuts ∧ true ∉ c.auths
  authenticating : c.connectionState = .authenticating →
    c.puts = [] ∧ ∃ rest, c.auths = true :: rest ∧ true ∉ rest

section
variable {c c' : FPersistentConnection} {sent : List Callback}

theorem puts_of_sends (h : Sends sent c c') :
    c'.puts = c.puts ++ sent.filterMap Callback.put? := by
  unfold puts
  rw [h.callbacks, List.filterMap_append]

theorem auths_of_sends (h : Sends sent c c') :
    c'.auths = c.auths ++ sent.filterMap Callback.auth? := by
  unfold auths
  rw [h.callbacks, List.filterMap_append]

theorem completed_of_writes (h : c'.writeLog = c.writeLog) : c'.completed = c.completed :=
  congrArg WriteLog.completed h

theorem putsToAck_of_writes (h : c'.writeLog = c.writeLog) : c'.putsToAck = c.putsToAck :=
  congrArg WriteLog.putsToAck h

theorem putCounter_of_writes (h : c'.writeLog = c.writeLog) : c'.putCounter = c.putCounter :=
  congrArg WriteLog.putCounter h

theorem outstandingPuts_of_writes (h : c'.writeLog = c.writeLog) :
    c'.outstandingPuts = c.outstandingPuts :=
  congrArg WriteLog.outstandingPuts h

theorem wired_init : Wired .init where
  below := by simp [puts, callbacks, FPersistentConnection.init]
  connected h := by cases h
  authenticating h := by cases h

/-- While the connection is down, nothing is on the wire. -/
theorem wired_of_down (h : Consistent c) (hdown : c.isConnected = false) : Wired c where
  below := by simp [puts, h.offline hdown]
  connected hstate := by
    rw [isConnected_iff.mpr (Or.inr hstate)] at hdown
    cases hdown
  authenticating hstate := by
    rw [isConnected_iff.mpr (Or.inl hstate)] at hdown
    cases hdown

theorem Wired.quiet (h : Wired c) (hq : Quiet c c') : Wired c' := by
  obtain ⟨sent, hsends, _, hplain⟩ := hq
  have hputs : c'.puts = c.puts := by
    have hnoput : sent.filterMap Callback.put? = [] :=
      List.filterMap_eq_nil_iff.mpr fun callback hc => (hplain callback hc).1
    rw [puts_of_sends hsends, hnoput, List.append_nil]
  have hnone : true ∉ sent.filterMap Callback.auth? := by
    intro hmem
    obtain ⟨callback, hc, hauth⟩ := List.mem_filterMap.mp hmem
    have hne := (hplain callback hc).2
    cases callback with
    | auth restoreStateAfterComplete =>
      cases hauth
      exact hne rfl
    | _ => cases hauth
  have hauths := auths_of_sends hsends
  refine ⟨?_, fun hstate => ?_, fun hstate => ?_⟩
  · rw [hputs, putCounter_of_writes hsends.writes]
    exact h.below
  · obtain ⟨hopen, hrest⟩ := h.connected (hsends.state ▸ hstate)
    rw [hputs, outstandingPuts_of_writes hsends.writes, hauths]
    exact ⟨hopen, by simp [hrest, hnone]⟩
  · obtain ⟨hno, rest, hrest, htrue⟩ := h.authenticating (hsends.state ▸ hstate)
    rw [hputs, hauths, hrest]
    exact ⟨hno, rest ++ sent.filterMap Callback.auth?, rfl, by simp [htrue, hnone]⟩

/-- The open writes are sent anew in their order. -/
theorem puts_restored (h : Kept c.writeLog) :
    (restored c).filterMap Callback.put? = c.outstandingPuts := by
  have hsorted : c.outstandingPuts.insertionSort (· ≤ ·) = c.outstandingPuts :=
    (h.ascending.imp Nat.le_of_lt).insertionSort_eq
  unfold restored
  rw [hsorted, List.filterMap_append, List.filterMap_map, List.filterMap_map]
  simp [Function.comp_def, Callback.put?]

theorem auths_restored (c : FPersistentConnection) :
    (restored c).filterMap Callback.auth? = [] := by
  unfold restored
  rw [List.filterMap_append, List.filterMap_map, List.filterMap_map]
  simp [Function.comp_def, Callback.auth?]

theorem filter_outstandingPuts (c : FPersistentConnection) :
    c.outstandingPuts.filter (· ∈ c.outstandingPuts) = c.outstandingPuts :=
  List.filter_eq_self.mpr fun _ hmem => by simpa using hmem

/-- The connection restores its state when it has no write on the wire. -/
theorem wired_of_restores (hk : Kept c.writeLog) (hputs : c.puts = [])
    (hauths : true ∉ c.auths) (hstate : c.connectionState = .connected)
    (hsends : Sends (sent ++ restored c) c c') (hplain : ∀ callback ∈ sent, callback = .stats) :
    Wired c' := by
  have hnone : sent.filterMap Callback.put? = [] := by
    rw [List.filterMap_eq_nil_iff]
    intro callback hmem
    rw [hplain callback hmem]
    rfl
  have hnoauth : sent.filterMap Callback.auth? = [] := by
    rw [List.filterMap_eq_nil_iff]
    intro callback hmem
    rw [hplain callback hmem]
    rfl
  have hopen : c'.puts = c.outstandingPuts := by
    rw [puts_of_sends hsends, List.filterMap_append, hnone, puts_restored hk, hputs,
      List.nil_append, List.nil_append]
  have hrest : c'.auths = c.auths := by
    rw [auths_of_sends hsends, List.filterMap_append, hnoauth, auths_restored, List.append_nil,
      List.append_nil]
  refine ⟨?_, fun _ => ⟨?_, hrest ▸ hauths⟩, fun hauth => ?_⟩
  · rw [hopen, putCounter_of_writes hsends.writes]
    exact hk.below
  · rw [hopen, outstandingPuts_of_writes hsends.writes]
    exact filter_outstandingPuts c
  · rw [hsends.state, hstate] at hauth
    cases hauth

theorem wired_ready (h : Consistent c) (hk : Kept c.writeLog)
    (hstate : c.connectionState = .connecting) (hready : c.onReady = some c') : Wired c' := by
  have hnone : c.callbacks = [] := h.offline (by simp [isConnected, hstate])
  have hputs : c.puts = [] := by rw [puts, hnone, List.filterMap_nil]
  have hauths : c.auths = [] := by rw [auths, hnone, List.filterMap_nil]
  have hstats : ∀ callback ∈ connectStats c, callback = .stats := by
    unfold connectStats
    split <;> simp
  rcases onReady_cases hready with hsends | hsends
  · have htrue : true ∉ c.auths := by simp [hauths]
    exact wired_of_restores (c := { c with connectionState := .connected }) hk hputs htrue rfl
      hsends hstats
  · have hnoput : (connectStats c).filterMap Callback.put? = [] := by
      unfold connectStats
      split <;> rfl
    have hnoauth : (connectStats c).filterMap Callback.auth? = [] := by
      unfold connectStats
      split <;> rfl
    have hputs' := puts_of_sends hsends
    have hauths' := auths_of_sends hsends
    rw [List.filterMap_append, hnoput] at hputs'
    rw [List.filterMap_append, hnoauth] at hauths'
    have hnoputs : c'.puts = [] := by
      rw [hputs']
      exact List.append_eq_nil_iff.mpr ⟨hputs, rfl⟩
    refine ⟨by simp [hnoputs], fun hup => ?_, fun _ => ⟨hnoputs, [], ?_, by simp⟩⟩
    · rw [hsends.state] at hup
      cases hup
    · rw [hauths']
      change c.auths ++ ([] ++ [true]) = [true]
      rw [hauths]
      rfl

/-- The request that is answered is the first one that waits. -/
theorem before_eq_nil {rn : Nat} {status : String} {callback : Callback}
    {before after : List (Nat × Callback)} (h : Consistent c)
    (hin : InOrder c (.response rn status))
    (hsplit : c.requestCBHash = before ++ (rn, callback) :: after) : before = [] := by
  cases before with
  | nil => rfl
  | cons entry before =>
    have hascending := h.numbered.1
    have hle := hin entry (by simp [hsplit])
    rw [hsplit, List.cons_append, List.map_cons, List.pairwise_cons] at hascending
    have hlt := hascending.1 rn (by simp)
    omega

section
variable {rn : Nat} {callback : Callback} {after : List (Nat × Callback)} {status : String}

theorem Consistent.isConnected_of_first (h : Consistent c)
    (hfirst : c.requestCBHash = (rn, callback) :: after) : c.isConnected = true := by
  have hsplit : c.requestCBHash = [] ++ (rn, callback) :: after := hfirst
  exact h.isConnected_of_waits hsplit

theorem puts_cons (hfirst : c.requestCBHash = (rn, callback) :: after) :
    c.puts = callback.put?.toList ++ (after.map Prod.snd).filterMap Callback.put? := by
  rw [puts, callbacks, hfirst, List.map_cons, List.filterMap_cons]
  cases callback.put? <;> rfl

theorem auths_cons (hfirst : c.requestCBHash = (rn, callback) :: after) :
    c.auths = callback.auth?.toList ++ (after.map Prod.snd).filterMap Callback.auth? := by
  rw [auths, callbacks, hfirst, List.map_cons, List.filterMap_cons]
  cases callback.auth? <;> rfl

/-- A response that is neither to a write nor to credentials leaves the writes
on the wire. -/
theorem Wired.tail (h : Wired c) (hfirst : c.requestCBHash = (rn, callback) :: after)
    (hput : callback.put? = none) (hauth : callback.auth? = none) :
    Wired { c with requestCBHash := after } := by
  obtain ⟨hbelow, hconnected, hauthenticating⟩ := h
  rw [puts_cons hfirst, hput] at hbelow hconnected hauthenticating
  rw [auths_cons hfirst, hauth] at hconnected hauthenticating
  exact ⟨hbelow, hconnected, hauthenticating⟩

theorem wired_auth {restore : Bool} (h : Consistent c) (hk : Kept c.writeLog) (hw : Wired c)
    (hfirst : c.requestCBHash = (rn, .auth restore) :: after) (status : String) :
    Wired ({ c with requestCBHash := after }.runCallback status (.auth restore)) := by
  have hsplit : c.requestCBHash = [] ++ (rn, .auth restore) :: after := hfirst
  have hconsistent := consistent_runCallback h hsplit status
  have hauths := auths_cons hfirst
  have hputs := puts_cons hfirst
  simp only [runCallback] at hconsistent ⊢
  split
  · rcases isConnected_iff.mp (h.isConnected_of_first hfirst) with hstate | hstate
    · obtain ⟨hno, rest, hrest, htrue⟩ := hw.authenticating hstate
      rw [hauths] at hrest
      obtain ⟨rfl, rfl⟩ := List.cons.inj hrest
      rw [hputs] at hno
      have hnone : ∀ callback ∈ ([] : List Callback), callback = .stats := by simp
      exact wired_of_restores
        (c := { c with requestCBHash := after, connectionState := .connected }) hk hno htrue rfl
        (sends_restoreState _) hnone
    · obtain ⟨hopen, htrue⟩ := hw.connected hstate
      rw [hauths] at htrue
      have hfalse : restore = false := by
        cases restore with
        | false => rfl
        | true => exact absurd List.mem_cons_self htrue
      subst hfalse
      rw [hputs] at hopen
      refine ⟨?_, fun _ => ⟨hopen, fun hmem => htrue (List.mem_cons_of_mem _ hmem)⟩, ?_⟩
      · intro index hmem
        apply hw.below
        rw [hputs]
        exact hmem
      · intro hauth
        cases hauth
  · rename_i hstatus
    rw [if_neg hstatus] at hconsistent
    apply wired_of_down hconsistent
    simp [isConnected, (drops_onDisconnect _).state]

/-- While the connection is up, the answer of an open write is that of the first
open one. -/
theorem open_eq_cons {index : Nat} (hw : Wired c) (h : Consistent c)
    (hfirst : c.requestCBHash = (rn, .put index) :: after) :
    c.connectionState = .connected ∧
      c.outstandingPuts = (index :: (after.map Prod.snd).filterMap Callback.put?).filter
        (· ∈ c.outstandingPuts) := by
  have hputs := puts_cons hfirst
  rcases isConnected_iff.mp (h.isConnected_of_first hfirst) with hstate | hstate
  · have hno := (hw.authenticating hstate).1
    rw [hputs] at hno
    cases hno
  · refine ⟨hstate, ?_⟩
    have hopen := (hw.connected hstate).1
    rw [hputs] at hopen
    exact hopen.symm

/-- The rest of the requests are those of the rest of the open writes. -/
theorem filter_rest {l rest : List Nat} {index : Nat} (hnodup : (index :: rest).Nodup)
    (hrest : rest = l.filter (· ∈ index :: rest)) : l.filter (· ∈ rest) = rest := by
  calc l.filter (· ∈ rest) = l.filter (· ∈ index :: rest) := by
        apply List.filter_congr
        intro i hi
        have hne : i = index → i ∈ rest := by
          rintro rfl
          rw [hrest]
          exact List.mem_filter.mpr ⟨hi, by simp⟩
        by_cases hi' : i = index
        · simp [hne hi']
        · simp [hi']
    _ = rest := hrest.symm

theorem wired_put {index : Nat} (h : Consistent c) (hk : Kept c.writeLog) (hw : Wired c)
    (hfirst : c.requestCBHash = (rn, .put index) :: after) (status : String) :
    Wired ({ c with requestCBHash := after }.runCallback status (.put index)) := by
  obtain ⟨hstate, hopen⟩ := open_eq_cons hw h hfirst
  have htrue := (hw.connected hstate).2
  have hbelow := hw.below
  rw [puts_cons hfirst] at hbelow
  rw [auths_cons hfirst] at htrue
  have hnotauth : c.connectionState ≠ .authenticating := by simp [hstate]
  have hbelow' : ∀ i ∈ (after.map Prod.snd).filterMap Callback.put?, i < c.putCounter :=
    fun i hi => hbelow i (List.mem_cons_of_mem _ hi)
  simp only [runCallback]
  split
  · rename_i hmem
    rw [List.filter_cons_of_pos (by simpa using hmem)] at hopen
    have hnodup : c.outstandingPuts.Nodup := hk.ascending.imp Nat.ne_of_lt
    have hrest : ((after.map Prod.snd).filterMap Callback.put?).filter
        (· ∈ c.outstandingPuts.erase index) = c.outstandingPuts.erase index := by
      obtain ⟨rest, hcons⟩ : ∃ rest, c.outstandingPuts = index :: rest := ⟨_, hopen⟩
      rw [hcons] at hopen hnodup ⊢
      rw [List.erase_cons_head]
      exact filter_rest hnodup (List.cons.inj hopen).2
    split
    · exact ⟨hbelow', fun _ => ⟨hrest, htrue⟩, fun hauth => absurd hauth hnotauth⟩
    · exact ⟨hbelow', fun _ => ⟨hrest, htrue⟩, fun hauth => absurd hauth hnotauth⟩
  · rename_i hmem
    rw [List.filter_cons_of_neg (by simpa using hmem)] at hopen
    exact ⟨hbelow', fun _ => ⟨hopen.symm, htrue⟩, fun hauth => absurd hauth hnotauth⟩

theorem wired_runCallback (h : Consistent c) (hk : Kept c.writeLog) (hw : Wired c)
    (hfirst : c.requestCBHash = (rn, callback) :: after) (status : String) :
    Wired ({ c with requestCBHash := after }.runCallback status callback) := by
  cases callback with
  | stats => exact hw.tail hfirst rfl rfl
  | listen path spec =>
    obtain ⟨listens, listened, hrun⟩ :=
      runCallback_listen { c with requestCBHash := after } status path spec
    obtain ⟨hbelow, hconnected, hauthenticating⟩ := hw.tail hfirst rfl rfl
    rw [hrun]
    simp only
    split
    · exact ⟨hbelow, hconnected, hauthenticating⟩
    · exact ⟨hbelow, hconnected, hauthenticating⟩
  | auth restoreStateAfterComplete => exact wired_auth h hk hw hfirst status
  | put index => exact wired_put h hk hw hfirst status

end

theorem wired_putInternal (hw : Wired c) : Wired c.putInternal := by
  have hnew : ∀ i ∈ c.puts, i ≠ c.putCounter := fun i hi => Nat.ne_of_lt (hw.below i hi)
  have hbelow : ∀ i ∈ c.puts, i < c.putCounter + 1 :=
    fun i hi => Nat.lt_succ_of_lt (hw.below i hi)
  rcases putInternal_cases c with ⟨hstate, hsends⟩ | ⟨hstate, hput⟩
  · obtain ⟨hopen, htrue⟩ := hw.connected hstate
    have hputs : c.putInternal.puts = c.puts ++ [c.putCounter] := puts_of_sends hsends
    have hauths : c.putInternal.auths = c.auths ++ [] := auths_of_sends hsends
    have hcounter : c.putInternal.putCounter = c.putCounter + 1 :=
      putCounter_of_writes hsends.writes
    have houtstanding : c.putInternal.outstandingPuts = c.outstandingPuts ++ [c.putCounter] :=
      outstandingPuts_of_writes hsends.writes
    refine ⟨?_, fun _ => ⟨?_, ?_⟩, fun hauth => ?_⟩
    · rw [hputs, hcounter]
      intro i hi
      rcases List.mem_append.mp hi with hold | hlast
      · exact hbelow i hold
      · rw [List.mem_singleton.mp hlast]
        exact Nat.lt_succ_self _
    · rw [hputs, houtstanding, List.filter_append]
      have hsame : c.puts.filter (· ∈ c.outstandingPuts ++ [c.putCounter]) =
          c.puts.filter (· ∈ c.outstandingPuts) :=
        List.filter_congr fun i hi => by simp [hnew i hi]
      rw [hsame, hopen]
      simp
    · rw [hauths, List.append_nil]
      exact htrue
    · have hconnected : c.putInternal.connectionState = .connected := hsends.state.trans hstate
      rw [hconnected] at hauth
      cases hauth
  · rw [hput]
    exact ⟨hbelow, fun hup => absurd hup hstate, hw.authenticating⟩

theorem wired_step {e : ConnectionEvent} (h : Consistent c) (hk : Kept c.writeLog) (hw : Wired c)
    (hin : InOrder c e) (hs : step c e = some c') : Wired c' := by
  cases step_cases h hs with
  | quiet hquiet => exact hw.quiet hquiet
  | down hdown _ hc => exact wired_of_down hc hdown
  | called heq =>
    rw [heq]
    exact ⟨hw.below, hw.connected, hw.authenticating⟩
  | ready hstate hready => exact wired_ready h hk hstate hready
  | response hsplit heq =>
    obtain rfl := before_eq_nil h hin hsplit
    rw [heq]
    exact wired_runCallback h hk hw hsplit _
  | put heq =>
    rw [heq]
    exact wired_putInternal hw
  | purge heq =>
    rw [heq]
    refine ⟨hw.below, fun hstate => ⟨?_, (hw.connected hstate).2⟩, hw.authenticating⟩
    simp [FPersistentConnection.purgeOutstandingWrites]

theorem wired_run {events : List ConnectionEvent}
    (hin : Meets step (fun _ => InOrder) [] .init events)
    (hrun : run step .init events = some c) : Wired c := by
  have hall : Consistent c ∧ Kept c.writeLog ∧ Wired c := by
    refine state_invariant_of_run (fun c => Consistent c ∧ Kept c.writeLog ∧ Wired c) ?_
      ⟨consistent_init, kept_init, wired_init⟩ hin hrun
    intro c e c' ⟨hc, hk, hw⟩ hcond hs
    exact ⟨consistent_step hc hs, kept_step hc hk hs, wired_step hc hk hw hcond hs⟩
  exact hall.2.2

/-- While the connection is up, the requests of the writes that are still open
wait for their responses, each once and in the order of the writes, however
often the connection was lost before. -/
theorem every_open_write_is_on_the_wire {events : List ConnectionEvent}
    (hin : Meets step (fun _ => InOrder) [] .init events)
    (hrun : run step .init events = some c) (hup : c.connectionState = .connected) :
    c.puts.filter (· ∈ c.outstandingPuts) = c.outstandingPuts :=
  ((wired_run hin hrun).connected hup).1

/-- The connection is lost after a write, and the write is sent anew. A request
of the write waits, and a new write comes after it. -/
def resentWrite : List ConnectionEvent :=
  [.resume kFInterruptReasonWaitingForOpen, .retry, .fetchedToken 1 (some none), .ready, .put,
    .disconnect, .retry, .fetchedToken 2 (some (some "token")), .ready, .response 3 "ok", .put]

theorem the_resent_write_is_on_the_wire :
    ∃ c, run step .init resentWrite = some c ∧ c.outstandingPuts = [1, 2] ∧
      c.puts.filter (· ∈ c.outstandingPuts) = c.outstandingPuts := by
  have hopen : (run step .init resentWrite).map (fun c => (c.outstandingPuts, c.connectionState)) =
      some ([1, 2], .connected) := by
    decide +kernel
  obtain ⟨c, hrun, heq⟩ := Option.map_eq_some_iff.mp hopen
  obtain ⟨hputs, hup⟩ := Prod.mk.inj heq
  have hin : Meets step (fun _ => InOrder) [] .init resentWrite := by decide +kernel
  exact ⟨c, hrun, hputs, every_open_write_is_on_the_wire hin hrun hup⟩

/-! ## The answers of the writes -/

/-- While the connection is not up, an answer that waits for the listens does
not wait for none. -/
def AnswersHeld (c : FPersistentConnection) : Prop :=
  c.connectionState ≠ .connected → c.putsToAck ≠ [] → c.listens ≠ []

instance : DecidablePred AnswersHeld := fun c =>
  inferInstanceAs
    (Decidable (c.connectionState ≠ .connected → c.putsToAck ≠ [] → c.listens ≠ []))

/-- The writes are answered in their order. -/
structure Ordered (c : FPersistentConnection) : Prop where
  order : (c.completed ++ c.putsToAck).map Prod.fst ++ c.outstandingPuts =
    List.range' 1 (c.putCounter - 1)
  held : c.connectionState = .connected → c.putsToAck ≠ [] → 0 < c.unackedListensCount

theorem ordered_init : Ordered .init where
  order := rfl
  held h := by cases h

/-- The order of the answers is a matter of the writes alone. -/
theorem Ordered.order_of_writes (h : Ordered c) (hw : c'.writeLog = c.writeLog) :
    (c'.completed ++ c'.putsToAck).map Prod.fst ++ c'.outstandingPuts =
      List.range' 1 (c'.putCounter - 1) := by
  rw [completed_of_writes hw, putsToAck_of_writes hw, outstandingPuts_of_writes hw,
    putCounter_of_writes hw]
  exact h.order

theorem Ordered.sends (h : Ordered c) (hs : Sends sent c c') : Ordered c' where
  order := h.order_of_writes hs.writes
  held hup hheld := by
    rw [putsToAck_of_writes hs.writes] at hheld
    rw [hs.state] at hup
    rw [hs.counted]
    exact Nat.lt_add_right _ (h.held hup hheld)

theorem countP_restored_pos {d : FPersistentConnection} (h : d.listens ≠ []) :
    0 < (restored d).countP Callback.isListen := by
  obtain ⟨listenSpec, hmem⟩ := List.exists_mem_of_ne_nil _ h
  rw [List.countP_pos_iff]
  exact ⟨_, List.mem_append_left _ (List.mem_map_of_mem hmem), rfl⟩

/-- When the state is restored, the listens are sent before the writes. -/
theorem ordered_of_restores (h : Ordered c) (hlistens : c.putsToAck ≠ [] → c.listens ≠ [])
    {d : FPersistentConnection} (hd : d.writeLog = c.writeLog) (hsame : d.listens = c.listens)
    (hs : Sends (sent ++ restored d) d c') : Ordered c' where
  order := h.order_of_writes (hs.writes.trans hd)
  held _ hheld := by
    rw [putsToAck_of_writes (hs.writes.trans hd)] at hheld
    have hpos := countP_restored_pos (hsame ▸ hlistens hheld)
    rw [hs.counted, List.countP_append]
    omega

section
variable {rn : Nat} {callback : Callback} {after : List (Nat × Callback)} {status : String}

theorem ordered_auth {restore : Bool} (h : Consistent c) (hw : Wired c) (ho : Ordered c)
    (hheld : AnswersHeld c) (hfirst : c.requestCBHash = (rn, .auth restore) :: after)
    (status : String) :
    Ordered ({ c with requestCBHash := after }.runCallback status (.auth restore)) := by
  have horder := ho.order_of_writes
    (writeLog_auth { c with requestCBHash := after } status restore)
  refine ⟨horder, ?_⟩
  simp only [runCallback]
  split
  · rcases isConnected_iff.mp (h.isConnected_of_first hfirst) with hstate | hstate
    · obtain ⟨_, rest, hrest, _⟩ := hw.authenticating hstate
      rw [auths_cons hfirst] at hrest
      obtain ⟨rfl, _⟩ := List.cons.inj hrest
      have hlistens := hheld (by simp [hstate])
      let d : FPersistentConnection :=
        { c with requestCBHash := after, connectionState := .connected }
      have hsends : Sends ([] ++ restored d) d d.restoreState := sends_restoreState d
      rw [if_pos rfl]
      exact (ordered_of_restores ho hlistens (d := d) rfl rfl hsends).held
    · have htrue := (hw.connected hstate).2
      rw [auths_cons hfirst] at htrue
      have hfalse : restore = false := by
        cases restore with
        | false => rfl
        | true => exact absurd List.mem_cons_self htrue
      subst hfalse
      exact fun _ => ho.held hstate
  · intro hup
    rw [(drops_onDisconnect _).state] at hup
    cases hup

theorem ordered_put {index : Nat} (h : Consistent c) (hw : Wired c) (ho : Ordered c)
    (hfirst : c.requestCBHash = (rn, .put index) :: after) (status : String) :
    Ordered ({ c with requestCBHash := after }.runCallback status (.put index)) := by
  obtain ⟨hstate, hopen⟩ := open_eq_cons hw h hfirst
  have horder := ho.order
  simp only [runCallback]
  split
  · rename_i hmem
    rw [List.filter_cons_of_pos (by simpa using hmem)] at hopen
    obtain ⟨rest, hcons⟩ : ∃ rest, c.outstandingPuts = index :: rest := ⟨_, hopen⟩
    rw [hcons] at horder
    split
    · rename_i hcount
      have hnone : c.putsToAck = [] := by
        by_contra hheld
        have hpos := ho.held hstate hheld
        omega
      refine ⟨?_, fun _ hheld => absurd hnone hheld⟩
      simp only [hnone, hcons, List.erase_cons_head]
      simpa [hnone] using horder
    · rename_i hcount
      refine ⟨?_, fun _ _ => Nat.pos_of_ne_zero hcount⟩
      simp only [hcons, List.erase_cons_head]
      simpa using horder
  · exact ⟨horder, ho.held⟩

theorem ordered_listen {path : List String} {spec : Nat} (ho : Ordered c) (status : String) :
    Ordered ({ c with requestCBHash := after }.runCallback status (.listen path spec)) := by
  obtain ⟨listens, listened, hrun⟩ :=
    runCallback_listen { c with requestCBHash := after } status path spec
  rw [hrun]
  simp only
  split
  · refine ⟨?_, fun _ hheld => absurd rfl hheld⟩
    simpa [FPersistentConnection.ackPuts] using ho.order
  · rename_i hcount
    exact ⟨ho.order, fun _ _ => Nat.pos_of_ne_zero hcount⟩

end

theorem ordered_step {e : ConnectionEvent} (h : Consistent c) (hk : Kept c.writeLog)
    (hw : Wired c) (ho : Ordered c) (hheld : AnswersHeld c) (hin : InOrder c e)
    (hs : step c e = some c') : Ordered c' := by
  cases step_cases h hs with
  | quiet hquiet =>
    obtain ⟨sent, hsends, _⟩ := hquiet
    exact ho.sends hsends
  | down hdown hwrites _ =>
    refine ⟨ho.order_of_writes hwrites, fun hup => ?_⟩
    rw [isConnected_iff.mpr (Or.inr hup)] at hdown
    cases hdown
  | called heq =>
    rw [heq]
    exact ⟨ho.order, ho.held⟩
  | ready hstate hready =>
    have hlistens := hheld (by simp [hstate])
    rcases onReady_cases hready with hsends | hsends
    · exact ordered_of_restores ho hlistens (d := { c with connectionState := .connected }) rfl
        rfl hsends
    · refine ⟨ho.order_of_writes hsends.writes, fun hup => ?_⟩
      rw [hsends.state] at hup
      cases hup
  | @response rn status callback before after hsplit heq =>
    obtain rfl := before_eq_nil h hin hsplit
    rw [heq]
    cases callback with
    | stats => exact ⟨ho.order, ho.held⟩
    | auth restoreStateAfterComplete => exact ordered_auth h hw ho hheld hsplit status
    | put index => exact ordered_put h hw ho hsplit status
    | listen path spec => exact ordered_listen ho status
  | put heq =>
    have hopened : Ordered c.opened := by
      refine ⟨?_, ho.held⟩
      obtain ⟨n, hn⟩ : ∃ n, c.putCounter = n + 1 :=
        Nat.exists_eq_succ_of_ne_zero hk.positive.ne'
      have horder := ho.order
      simp only [opened, hn, Nat.add_sub_cancel] at horder ⊢
      rw [← List.append_assoc, horder, List.range'_concat]
      simp [Nat.add_comm]
    rcases putInternal_cases c with ⟨_, hsends⟩ | ⟨_, hput⟩
    · rw [heq]
      exact hopened.sends hsends
    · rw [heq, hput]
      exact hopened
  | purge heq =>
    have hsorted : c.outstandingPuts.insertionSort (· ≤ ·) = c.outstandingPuts :=
      (hk.ascending.imp Nat.le_of_lt).insertionSort_eq
    rw [heq]
    refine ⟨?_, fun _ hheld => absurd rfl hheld⟩
    simp only [purgeOutstandingWrites, FPersistentConnection.ackPuts, hsorted]
    simpa [Function.comp_def] using ho.order

/-- What a run keeps in which the requests are answered in their order. -/
structure AnswersInTurn (c : FPersistentConnection) : Prop where
  consistent : Consistent c
  kept : Kept c.writeLog
  wired : Wired c
  ordered : Ordered c

theorem answersInTurn_init : AnswersInTurn .init :=
  ⟨consistent_init, kept_init, wired_init, ordered_init⟩

theorem answersInTurn_step {e : ConnectionEvent} (h : AnswersInTurn c) (hheld : AnswersHeld c)
    (hin : InOrder c e) (hs : step c e = some c') : AnswersInTurn c' where
  consistent := consistent_step h.consistent hs
  kept := kept_step h.consistent h.kept hs
  wired := wired_step h.consistent h.kept h.wired hin hs
  ordered := ordered_step h.consistent h.kept h.wired h.ordered hheld hin hs

/-- An answer that the app gets, or that waits for the listens, waited before or
has the status of the response. -/
theorem answers_runCallback (c : FPersistentConnection) (status : String) (callback : Callback) :
    ∃ given, (c.runCallback status callback).completed = c.completed ++ given ∧
      ∀ put ∈ given ++ (c.runCallback status callback).putsToAck,
        put ∈ c.putsToAck ∨ put.2 = status := by
  cases callback with
  | stats => exact ⟨[], (List.append_nil _).symm, fun put hmem => Or.inl hmem⟩
  | auth restoreStateAfterComplete =>
    have hwrites := writeLog_auth c status restoreStateAfterComplete
    rw [completed_of_writes hwrites, putsToAck_of_writes hwrites]
    exact ⟨[], (List.append_nil _).symm, fun put hmem => Or.inl hmem⟩
  | put index =>
    simp only [runCallback]
    split
    · split
      · refine ⟨[(index, status)], rfl, fun put hmem => ?_⟩
        rcases List.mem_append.mp hmem with hnew | hold
        · exact Or.inr (by rw [List.mem_singleton.mp hnew])
        · exact Or.inl hold
      · refine ⟨[], (List.append_nil _).symm, fun put hmem => ?_⟩
        rw [List.nil_append] at hmem
        rcases List.mem_append.mp hmem with hold | hnew
        · exact Or.inl hold
        · exact Or.inr (by rw [List.mem_singleton.mp hnew])
    · exact ⟨[], (List.append_nil _).symm, fun put hmem => Or.inl hmem⟩
  | listen path spec =>
    obtain ⟨listens, listened, hrun⟩ := runCallback_listen c status path spec
    rw [hrun]
    simp only
    split
    · exact ⟨c.putsToAck, rfl, fun put hmem => Or.inl (by simpa [ackPuts] using hmem)⟩
    · exact ⟨[], (List.append_nil _).symm, fun put hmem => Or.inl hmem⟩

theorem answers_step {e : ConnectionEvent} (h : Consistent c) (hs : step c e = some c')
    (hpurge : e ≠ .purge) :
    ∃ given, c'.completed = c.completed ++ given ∧
      ∀ put ∈ given ++ c'.putsToAck, put ∈ c.putsToAck ∨ ∃ rn, e = .response rn put.2 := by
  cases writes_step h hs with
  | same hwrites =>
    rw [completed_of_writes hwrites, putsToAck_of_writes hwrites]
    exact ⟨[], (List.append_nil _).symm, fun put hmem => Or.inl hmem⟩
  | @answered rn status requests callback hwrites =>
    obtain ⟨given, hcompleted, hanswers⟩ :=
      answers_runCallback { c with requestCBHash := requests } status callback
    rw [completed_of_writes hwrites, putsToAck_of_writes hwrites]
    refine ⟨given, hcompleted, fun put hmem => ?_⟩
    rcases hanswers put hmem with hold | rfl
    · exact Or.inl hold
    · exact Or.inr ⟨rn, rfl⟩
  | put hwrites =>
    rw [completed_of_writes hwrites, putsToAck_of_writes hwrites]
    exact ⟨[], (List.append_nil _).symm, fun put hmem => Or.inl hmem⟩
  | purge heq => exact absurd rfl hpurge

/-- Where the server answers in order and no answer waits for listens that were
dropped, the app gets the answers of its writes in the order in which it made
them, and the writes that it still waits for are the last ones. -/
theorem the_answers_come_in_the_order_of_the_writes {events : List ConnectionEvent}
    (hin : Meets step (fun _ => InOrder) [] .init events)
    (hheld : Throughout step AnswersHeld .init events) (hrun : run step .init events = some c) :
    (c.completed ++ c.putsToAck).map Prod.fst ++ c.outstandingPuts =
      List.range' 1 (events.countP ConnectionEvent.isPut) := by
  have hturn : AnswersInTurn c := invariant_of_throughout AnswersInTurn AnswersHeld
    (fun _ _ _ h ha _ hc hs => answersInTurn_step h ha hc hs) answersInTurn_init hheld hin hrun
  have hcounter := putCounter_run consistent_init hrun
  have horder := hturn.ordered.order
  rw [hcounter] at horder
  simpa [FPersistentConnection.init] using horder

/-- A listen waits while the first write is answered. The connection is lost, and
the listen is answered after it is up again. -/
def waitingAnswer : List ConnectionEvent :=
  [.resume kFInterruptReasonWaitingForOpen, .retry, .fetchedToken 1 (some none), .ready,
    .put, .listen ["books"], .response 1 "ok", .response 2 "ok", .put, .disconnect, .retry,
    .fetchedToken 2 (some none), .ready, .response 5 "ok", .response 6 "ok"]

theorem the_waiting_answer_comes_first :
    ∃ c, run step .init waitingAnswer = some c ∧ c.completed = [(1, "ok"), (2, "ok")] ∧
      (c.completed ++ c.putsToAck).map Prod.fst ++ c.outstandingPuts =
        List.range' 1 (waitingAnswer.countP ConnectionEvent.isPut) := by
  have hanswers : (run step .init waitingAnswer).map (·.completed) =
      some [(1, "ok"), (2, "ok")] := by
    decide +kernel
  obtain ⟨c, hrun, hcompleted⟩ := Option.map_eq_some_iff.mp hanswers
  have hin : Meets step (fun _ => InOrder) [] .init waitingAnswer := by decide +kernel
  have hheld : Throughout step AnswersHeld .init waitingAnswer := by decide +kernel
  exact ⟨c, hrun, hcompleted, the_answers_come_in_the_order_of_the_writes hin hheld hrun⟩

end

end xellissime_book.persistent_connection
