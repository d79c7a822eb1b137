-- What every run of the connection keeps, in whatever order the responses, the
-- losses of the connection and the calls of the client come.
import Mathlib.Data.List.Perm.Basic
import XellissimeBook.PersistentConnection

open path_tree runs

namespace xellissime_book.persistent_connection

/-! ## What a call sends -/

namespace Callback

def isListen : Callback → Bool
  | .listen _ _ => true
  | _ => false

end Callback

/-- What the connection knows of the writes. -/
structure WriteLog where
  completed : List (Nat × String)
  putsToAck : List (Nat × String)
  outstandingPuts : List Nat
  putCounter : Nat

/-- What the connection knows of its requests. -/
structure Wire where
  connectionState : ConnectionState
  scheduledRetry : Bool
  currentFetchTokenAttempt : Nat
  fetches : List Nat
  requestNumber : Nat
  requestCBHash : List (Nat × Callback)
  unackedListensCount : Nat

namespace FPersistentConnection

/-- The callbacks that wait for a response, in the order of their requests. -/
def callbacks (c : FPersistentConnection) : List Callback := c.requestCBHash.map Prod.snd

/-- The request numbers ascend. -/
def Numbered (c : FPersistentConnection) : Prop :=
  (c.requestCBHash.map Prod.fst).Pairwise (· < ·) ∧
    ∀ rn ∈ c.requestCBHash.map Prod.fst, rn < c.requestNumber

def writeLog (c : FPersistentConnection) : WriteLog where
  completed := c.completed
  putsToAck := c.putsToAck
  outstandingPuts := c.outstandingPuts
  putCounter := c.putCounter

def wire (c : FPersistentConnection) : Wire where
  connectionState := c.connectionState
  scheduledRetry := c.scheduledRetry
  currentFetchTokenAttempt := c.currentFetchTokenAttempt
  fetches := c.fetches
  requestNumber := c.requestNumber
  requestCBHash := c.requestCBHash
  unackedListensCount := c.unackedListensCount

end FPersistentConnection

open FPersistentConnection

/-- The call sends requests with these callbacks, and does nothing else to the
requests, the writes and the state of the connection. -/
structure Sends (sent : List Callback) (c c' : FPersistentConnection) : Prop where
  callbacks : c'.callbacks = c.callbacks ++ sent
  numbered : c.Numbered → c'.Numbered
  counted : c'.unackedListensCount = c.unackedListensCount + sent.countP Callback.isListen
  state : c'.connectionState = c.connectionState
  writes : c'.writeLog = c.writeLog
  attempt : c'.currentFetchTokenAttempt = c.currentFetchTokenAttempt
  fetches : c'.fetches = c.fetches
  scheduled : c'.scheduledRetry = true →
    c.scheduledRetry = true ∨ c.connectionState = .disconnected

section
variable {c c' c'' : FPersistentConnection} {sent sent' : List Callback}

theorem sends_refl (c : FPersistentConnection) : Sends [] c c :=
  ⟨by simp, id, by simp, rfl, rfl, rfl, rfl, Or.inl⟩

theorem Sends.trans (h : Sends sent c c') (h' : Sends sent' c' c'') :
    Sends (sent ++ sent') c c'' where
  callbacks := by rw [h'.callbacks, h.callbacks, List.append_assoc]
  numbered := h'.numbered ∘ h.numbered
  counted := by rw [h'.counted, h.counted, List.countP_append, Nat.add_assoc]
  state := h'.state.trans h.state
  writes := h'.writes.trans h.writes
  attempt := h'.attempt.trans h.attempt
  fetches := h'.fetches.trans h.fetches
  scheduled hs := by
    rcases h'.scheduled hs with hretry | hstate
    · exact h.scheduled hretry
    · exact Or.inr (h.state ▸ hstate)

theorem numbered_sendAction (onMessage : Option Callback) (h : c.Numbered) :
    (c.sendAction onMessage).Numbered := by
  obtain ⟨hascending, hbelow⟩ := h
  cases onMessage with
  | none => exact ⟨hascending, fun rn hrn => Nat.lt_succ_of_lt (hbelow rn hrn)⟩
  | some callback =>
    simp only [Numbered, sendAction, List.map_append, List.map_cons, List.map_nil]
    constructor
    · rw [List.pairwise_append]
      refine ⟨hascending, List.pairwise_singleton _ _, fun rn hrn last hlast => ?_⟩
      rw [List.mem_singleton.mp hlast]
      exact hbelow rn hrn
    · intro rn hrn
      rcases List.mem_append.mp hrn with hold | hnew
      · exact Nat.lt_succ_of_lt (hbelow rn hold)
      · rw [List.mem_singleton.mp hnew]
        omega

theorem sends_none (c : FPersistentConnection) : Sends [] c (c.sendAction none) :=
  ⟨by simp [callbacks, sendAction], numbered_sendAction none, rfl, rfl, rfl, rfl, rfl, Or.inl⟩

theorem sends_some {callback : Callback} (h : callback.isListen = false) :
    Sends [callback] c (c.sendAction (some callback)) where
  callbacks := by simp [callbacks, sendAction]
  numbered := numbered_sendAction (some callback)
  counted := by simp [sendAction, h]
  state := rfl
  writes := rfl
  attempt := rfl
  fetches := rfl
  scheduled := Or.inl

/-- A write is open before it is sent. -/
def FPersistentConnection.opened (c : FPersistentConnection) : FPersistentConnection :=
  { c with
    putCounter := c.putCounter + 1
    outstandingPuts := c.outstandingPuts ++ [c.putCounter] }

theorem putInternal_cases (c : FPersistentConnection) :
    (c.connectionState = .connected ∧ Sends [.put c.putCounter] c.opened c.putInternal) ∨
      (c.connectionState ≠ .connected ∧ c.putInternal = c.opened) := by
  by_cases hstate : c.connectionState = .connected
  · have hsent : c.putInternal = c.opened.sendPut c.putCounter := by
      simp [putInternal, opened, canSendWrites, hstate]
    rw [hsent]
    exact Or.inl ⟨hstate, sends_some rfl⟩
  · refine Or.inr ⟨hstate, ?_⟩
    simp [putInternal, opened, canSendWrites, hstate]

theorem writeLog_putInternal (c : FPersistentConnection) :
    c.putInternal.writeLog = c.opened.writeLog := by
  rcases putInternal_cases c with ⟨_, hsends⟩ | ⟨_, hopened⟩
  · exact hsends.writes
  · rw [hopened]

theorem sends_sendListen (c : FPersistentConnection) (listenSpec : List String × Nat) :
    Sends [.listen listenSpec.1 listenSpec.2] c (c.sendListen listenSpec) where
  callbacks := by simp [callbacks, sendListen, sendAction]
  numbered := numbered_sendAction (some (.listen listenSpec.1 listenSpec.2))
  counted := by simp [sendListen, sendAction, Callback.isListen]
  state := rfl
  writes := rfl
  attempt := rfl
  fetches := rfl
  scheduled := Or.inl

theorem sends_foldl {α : Type} {send : FPersistentConnection → α → FPersistentConnection}
    {callback : α → Callback} (h : ∀ c x, Sends [callback x] c (send c x)) (xs : List α)
    (c : FPersistentConnection) : Sends (xs.map callback) c (xs.foldl send c) := by
  induction xs generalizing c with
  | nil => exact sends_refl c
  | cons x rest ih => exact (h c x).trans (ih (send c x))

/-- The callbacks of the listens and the writes that are open, the writes in
ascending order. -/
def restored (c : FPersistentConnection) : List Callback :=
  c.listens.map (fun listenSpec => .listen listenSpec.1 listenSpec.2) ++
    (c.outstandingPuts.insertionSort (· ≤ ·)).map .put

theorem sends_restoreState (c : FPersistentConnection) : Sends (restored c) c c.restoreState := by
  unfold restoreState restored
  have hlistens := sends_foldl sends_sendListen c.listens c
  have hopen := congrArg WriteLog.outstandingPuts hlistens.writes
  have hput : ∀ c index, Sends [.put index] c (sendPut index c) := fun _ _ => sends_some rfl
  have hputs := sends_foldl hput
    (c.outstandingPuts.insertionSort (· ≤ ·))
    (c.listens.foldl (fun c listenSpec => c.sendListen listenSpec) c)
  simp only [writeLog] at hopen
  simp only [hopen]
  exact hlistens.trans hputs

theorem sends_tryScheduleReconnect (h : c.connectionState = .disconnected) :
    Sends [] c c.tryScheduleReconnect := by
  unfold tryScheduleReconnect
  split
  · exact ⟨by simp [callbacks], id, rfl, rfl, rfl, rfl, rfl, fun _ => Or.inr h⟩
  · exact sends_refl c

end

/-! ## What holds in every order of events -/

/-- The requests are counted, and the states of the connection follow in turn. -/
structure Consistent (c : FPersistentConnection) : Prop where
  numbered : c.Numbered
  counted : c.unackedListensCount = c.callbacks.countP Callback.isListen
  offline : c.isConnected = false → c.callbacks = []
  nodup : c.fetches.Nodup
  made : ∀ attempt ∈ c.fetches, attempt ≤ c.currentFetchTokenAttempt
  latest : c.currentFetchTokenAttempt ∈ c.fetches →
    c.connectionState = .gettingToken ∨ c.connectionState = .disconnected
  scheduled : c.scheduledRetry = true → c.connectionState = .disconnected

/-- The connection is lost: no request waits any more. -/
structure Drops (c c' : FPersistentConnection) : Prop where
  state : c'.connectionState = .disconnected
  requests : c'.requestCBHash = []
  counted : c'.unackedListensCount = 0
  writes : c'.writeLog = c.writeLog
  attempt : c'.currentFetchTokenAttempt = c.currentFetchTokenAttempt
  fetches : c'.fetches = c.fetches

section
variable {c c' : FPersistentConnection}

theorem consistent_init : Consistent .init where
  numbered := by simp [Numbered, FPersistentConnection.init]
  counted := rfl
  offline _ := rfl
  nodup := List.nodup_nil
  made := by simp [FPersistentConnection.init]
  latest h := by simp [FPersistentConnection.init] at h
  scheduled _ := rfl

theorem isConnected_iff :
    c.isConnected = true ↔
      c.connectionState = .authenticating ∨ c.connectionState = .connected := by
  simp [isConnected]

theorem isConnected_congr (h : c'.connectionState = c.connectionState) :
    c'.isConnected = c.isConnected := by
  simp [isConnected, h]

theorem Consistent.congr (h : Consistent c) (hwire : c'.wire = c.wire) : Consistent c' := by
  obtain ⟨hnumbered, hcounted, hoffline, hnodup, hmade, hlatest, hscheduled⟩ := h
  cases c
  cases c'
  simp only [wire, Wire.mk.injEq] at hwire
  obtain ⟨rfl, rfl, rfl, rfl, rfl, rfl, rfl⟩ := hwire
  exact ⟨hnumbered, hcounted, hoffline, hnodup, hmade, hlatest, hscheduled⟩

theorem Consistent.noRequests (h : Consistent c) (hdown : c.isConnected = false) :
    c.requestCBHash = [] ∧ c.unackedListensCount = 0 := by
  have hnone := h.offline hdown
  refine ⟨List.map_eq_nil_iff.mp hnone, ?_⟩
  rw [h.counted, hnone, List.countP_nil]

theorem Consistent.sends {sent : List Callback} (h : Consistent c) (hs : Sends sent c c')
    (hup : sent ≠ [] → c.isConnected = true) : Consistent c' where
  numbered := hs.numbered h.numbered
  counted := by rw [hs.counted, hs.callbacks, List.countP_append, h.counted]
  offline hdown := by
    rw [isConnected_congr hs.state] at hdown
    have hnone : sent = [] := by
      by_contra hsent
      rw [hup hsent] at hdown
      cases hdown
    rw [hs.callbacks, h.offline hdown, hnone, List.append_nil]
  nodup := hs.fetches ▸ h.nodup
  made := by
    rw [hs.fetches, hs.attempt]
    exact h.made
  latest hmem := by
    rw [hs.fetches, hs.attempt] at hmem
    rw [hs.state]
    exact h.latest hmem
  scheduled hretry := by
    rw [hs.state]
    rcases hs.scheduled hretry with hold | hstate
    · exact h.scheduled hold
    · exact hstate

theorem Consistent.drops (h : Consistent c) (hd : Drops c c') : Consistent c' where
  numbered := by simp [Numbered, hd.requests]
  counted := by simp [hd.counted, callbacks, hd.requests]
  offline _ := by simp [callbacks, hd.requests]
  nodup := hd.fetches ▸ h.nodup
  made := by
    rw [hd.fetches, hd.attempt]
    exact h.made
  latest _ := Or.inr hd.state
  scheduled _ := hd.state

theorem drops_onDisconnect (c : FPersistentConnection) : Drops c c.onDisconnect := by
  unfold onDisconnect tryScheduleReconnect
  simp only
  split
  · exact ⟨rfl, rfl, rfl, rfl, rfl, rfl⟩
  · exact ⟨rfl, rfl, rfl, rfl, rfl, rfl⟩

theorem drops_interruptForReason (h : Consistent c) (reason : String) :
    Drops c (c.interruptForReason reason) := by
  unfold interruptForReason
  simp only
  split
  · obtain ⟨hstate, hrequests, hcounted, hwrites, hattempt, hfetches⟩ :=
      drops_onDisconnect { c with interruptReasons := c.interruptReasons.insert reason }
    exact ⟨hstate, hrequests, hcounted, hwrites, hattempt, hfetches⟩
  · rename_i hrealtime
    have hdown : c.isConnected = false := by
      simp only [hasRealtime, Bool.or_eq_true, not_or, Bool.not_eq_true] at hrealtime
      exact hrealtime.2
    obtain ⟨hrequests, hcounted⟩ := h.noRequests hdown
    exact ⟨rfl, hrequests, hcounted, rfl, rfl, rfl⟩

/-- The state can go up when no fetched token is awaited. -/
theorem Consistent.goesUp (h : Consistent c) {s : ConnectionState}
    (hstate : c.connectionState = .connecting ∨ c.isConnected = true)
    (hup : s = .authenticating ∨ s = .connected) :
    Consistent { c with connectionState := s } where
  numbered := h.numbered
  counted := h.counted
  offline hdown := by
    rw [← Bool.not_eq_true, isConnected_iff] at hdown
    exact absurd hup hdown
  nodup := h.nodup
  made := h.made
  latest hmem := by
    have hlatest := h.latest hmem
    rw [isConnected_iff] at hstate
    grind
  scheduled hretry := by
    have hdown := h.scheduled hretry
    rw [isConnected_iff] at hstate
    grind

/-- A response goes to the callback of its request, which no longer waits. -/
theorem onResponse_cases (h : Consistent c) (rn : Nat) (status : String) :
    c.onResponse rn status = c ∨
      ∃ callback before after, c.requestCBHash = before ++ (rn, callback) :: after ∧
        c.onResponse rn status =
          { c with requestCBHash := before ++ after }.runCallback status callback := by
  unfold onResponse
  cases hkey : getKey rn c.requestCBHash with
  | none => exact Or.inl rfl
  | some callback =>
    have hnodup : (c.requestCBHash.map Prod.fst).Nodup := h.numbered.1.imp Nat.ne_of_lt
    obtain ⟨before, after, hsplit, herase⟩ := exists_split_of_getKey hnodup hkey
    refine Or.inr ⟨callback, before, after, hsplit, ?_⟩
    simp only [herase]

/-- The answer of a listen is counted, and the last one lets the answers of the
writes go. -/
theorem runCallback_listen (c : FPersistentConnection) (status : String) (path : List String)
    (spec : Nat) :
    ∃ listens listened, c.runCallback status (.listen path spec) =
      let d := { c with
        listens := listens
        listened := listened
        unackedListensCount := c.unackedListensCount - 1 }
      if c.unackedListensCount - 1 = 0 then d.ackPuts else d := by
  simp only [runCallback]
  by_cases hspec : getKey path c.listens = some spec
  · simp only [hspec, if_true]
    exact ⟨_, _, rfl⟩
  · simp only [hspec, if_false]
    exact ⟨c.listens, c.listened, rfl⟩

section
variable {rn : Nat} {callback : Callback} {before after : List (Nat × Callback)}

theorem callbacks_split (hsplit : c.requestCBHash = before ++ (rn, callback) :: after) :
    c.callbacks = before.map Prod.snd ++ callback :: after.map Prod.snd := by
  rw [callbacks, hsplit, List.map_append, List.map_cons]

theorem Consistent.isConnected_of_waits (h : Consistent c)
    (hsplit : c.requestCBHash = before ++ (rn, callback) :: after) : c.isConnected = true := by
  by_contra hdown
  have hnone := h.offline (by simpa using hdown)
  rw [callbacks_split hsplit] at hnone
  simp at hnone

theorem Consistent.counted_split (h : Consistent c)
    (hsplit : c.requestCBHash = before ++ (rn, callback) :: after) :
    c.unackedListensCount = (before.map Prod.snd ++ after.map Prod.snd).countP Callback.isListen +
      if callback.isListen then 1 else 0 := by
  rw [h.counted, callbacks_split hsplit, List.countP_append, List.countP_cons,
    List.countP_append, Nat.add_assoc]

/-- The request that got its response is taken out. -/
theorem Consistent.takeOut (h : Consistent c)
    (hsplit : c.requestCBHash = before ++ (rn, callback) :: after) :
    Consistent
      { c with
        requestCBHash := before ++ after
        unackedListensCount := c.unackedListensCount - if callback.isListen then 1 else 0 } where
  numbered := by
    obtain ⟨hascending, hbelow⟩ := h.numbered
    have hsub : ((before ++ after).map Prod.fst).Sublist (c.requestCBHash.map Prod.fst) := by
      rw [hsplit]
      exact ((List.sublist_cons_self _ _).append_left before).map Prod.fst
    exact ⟨hascending.sublist hsub, fun rn hrn => hbelow rn (hsub.subset hrn)⟩
  counted := by
    simp only [callbacks, List.map_append]
    rw [h.counted_split hsplit, Nat.add_sub_cancel]
  offline hdown := by
    have hup := (h.isConnected_of_waits hsplit).symm.trans hdown
    cases hup
  nodup := h.nodup
  made := h.made
  latest := h.latest
  scheduled := h.scheduled

theorem consistent_runCallback (h : Consistent c)
    (hsplit : c.requestCBHash = before ++ (rn, callback) :: after) (status : String) :
    Consistent ({ c with requestCBHash := before ++ after }.runCallback status callback) := by
  have hup := h.isConnected_of_waits hsplit
  have hout := h.takeOut hsplit
  cases callback with
  | stats => exact hout
  | auth restoreStateAfterComplete =>
    have hconnected := hout.goesUp (s := .connected) (Or.inr hup) (Or.inr rfl)
    simp only [runCallback]
    split
    · split
      · exact hconnected.sends (sends_restoreState _) fun _ => rfl
      · exact hconnected
    · refine Consistent.drops ?_ (drops_onDisconnect _)
      exact hconnected.congr rfl
  | put index =>
    apply hout.congr
    simp only [runCallback]
    split
    · split <;> rfl
    · rfl
  | listen path spec =>
    obtain ⟨listens, listened, hrun⟩ :=
      runCallback_listen { c with requestCBHash := before ++ after } status path spec
    rw [hrun]
    apply hout.congr
    simp only
    split <;> rfl

end

/-! ## The steps -/

namespace Callback

/-- The write that the request is for. -/
def put? : Callback → Option Nat
  | .put index => some index
  | _ => none

end Callback

/-- The call sends no write and restores nothing. -/
def Quiet (c c' : FPersistentConnection) : Prop :=
  ∃ sent, Sends sent c c' ∧ (sent ≠ [] → c.isConnected = true) ∧
    ∀ callback ∈ sent, callback.put? = none ∧ callback ≠ .auth true

theorem quiet_of_sends_nil (h : Sends [] c c') : Quiet c c' :=
  ⟨[], h, fun hne => absurd rfl hne, by simp⟩

theorem quiet_resumeForReason (c : FPersistentConnection) (reason : String) :
    Quiet c (c.resumeForReason reason) := by
  apply quiet_of_sends_nil
  simp only [resumeForReason]
  have hresumed : Sends [] c
      { c with interruptReasons := c.interruptReasons.filter (· ≠ reason) } :=
    ⟨by simp [callbacks], id, rfl, rfl, rfl, rfl, rfl, Or.inl⟩
  split
  · rename_i hdown
    exact hresumed.trans (sends_tryScheduleReconnect hdown.2)
  · exact hresumed

theorem quiet_listen {path : List String} (h : c.listen path = some c') : Quiet c c' := by
  simp only [FPersistentConnection.listen] at h
  split at h
  · cases h
    have hlistens : Sends [] c
        { c with listens := c.listens ++ [(path, c.specs)], specs := c.specs + 1 } :=
      ⟨by simp [callbacks], id, rfl, rfl, rfl, rfl, rfl, Or.inl⟩
    split
    · rename_i hup
      refine ⟨_, hlistens.trans (sends_sendListen _ _), fun _ => hup, ?_⟩
      simp [Callback.put?]
    · exact quiet_of_sends_nil hlistens
  · cases h

theorem quiet_unlisten (c : FPersistentConnection) (path : List String) :
    Quiet c (c.unlisten path) := by
  apply quiet_of_sends_nil
  simp only [unlisten]
  have hlistens : Sends [] c { c with listens := eraseKey path c.listens } :=
    ⟨by simp [callbacks], id, rfl, rfl, rfl, rfl, rfl, Or.inl⟩
  split
  · exact sends_refl c
  · split
    · exact hlistens.trans (sends_none _)
    · exact hlistens

theorem quiet_onListenRevoked (c : FPersistentConnection) (path : List String) :
    Quiet c (c.onListenRevoked path) := by
  apply quiet_of_sends_nil
  simp only [onListenRevoked]
  split
  · exact sends_refl c
  · exact ⟨by simp [callbacks], id, rfl, rfl, rfl, rfl, rfl, Or.inl⟩

theorem quiet_refreshAuthToken (c : FPersistentConnection) (token : Option String) :
    Quiet c (c.refreshAuthToken token) := by
  simp only [refreshAuthToken]
  have htoken : Sends [] c { c with authToken := token } :=
    ⟨by simp [callbacks], id, rfl, rfl, rfl, rfl, rfl, Or.inl⟩
  split
  · rename_i hup
    cases token with
    | none => exact quiet_of_sends_nil (htoken.trans (sends_none _))
    | some token =>
      have hauth : Sends [.auth false] { c with authToken := some token }
        ({ c with authToken := some token }.sendAuthAndRestoreStateAfterComplete false) :=
        sends_some rfl
      refine ⟨_, htoken.trans hauth, fun _ => hup, ?_⟩
      simp [Callback.put?]
  · exact quiet_of_sends_nil htoken

/-- What a step does to a consistent connection. -/
inductive Change (c c' : FPersistentConnection) : ConnectionEvent → Prop where
  | quiet {e : ConnectionEvent} (h : Quiet c c') : Change c c' e
  | down {e : ConnectionEvent} (hdown : c'.isConnected = false)
      (hwrites : c'.writeLog = c.writeLog) (hc : Consistent c') : Change c c' e
  | called {attempt : Nat} {e : ConnectionEvent}
      (h : c' = { c with fetches := c.fetches.erase attempt }) : Change c c' e
  | ready (hstate : c.connectionState = .connecting) (h : c.onReady = some c') :
      Change c c' .ready
  | response {rn : Nat} {status : String} {callback : Callback}
      {before after : List (Nat × Callback)}
      (hsplit : c.requestCBHash = before ++ (rn, callback) :: after)
      (h : c' = { c with requestCBHash := before ++ after }.runCallback status callback) :
      Change c c' (.response rn status)
  | put (h : c' = c.putInternal) : Change c c' .put
  | purge (h : c' = c.purgeOutstandingWrites) : Change c c' .purge

theorem Consistent.change_of_drops {e : ConnectionEvent} (h : Consistent c) (hd : Drops c c') :
    Change c c' e :=
  .down (by simp [isConnected, hd.state]) hd.writes (h.drops hd)

theorem change_retry (h : Consistent c) (hs : c.retry = some c') : Change c c' .retry := by
  simp only [FPersistentConnection.retry] at hs
  split at hs
  · rename_i hdown
    cases hs
    refine .down rfl rfl ⟨h.numbered, h.counted, ?_, ?_, ?_, fun _ => Or.inl rfl, ?_⟩
    · intro _
      exact h.offline (by simp [isConnected, hdown.2])
    · rw [List.nodup_append]
      refine ⟨h.nodup, List.nodup_singleton _, fun attempt hmem last hlast => ?_⟩
      have hle := h.made attempt hmem
      simp only [List.mem_singleton] at hlast
      omega
    · intro attempt hmem
      rcases List.mem_append.mp hmem with hold | hnew
      · exact Nat.le_succ_of_le (h.made attempt hold)
      · rw [List.mem_singleton.mp hnew]
    · intro hretry
      cases hretry
  · cases hs

/-- The token provider has called back for an attempt. -/
theorem Consistent.calledBack (h : Consistent c) (attempt : Nat) :
    Consistent { c with fetches := c.fetches.erase attempt } where
  numbered := h.numbered
  counted := h.counted
  offline := h.offline
  nodup := h.nodup.erase attempt
  made a ha := h.made a (List.mem_of_mem_erase ha)
  latest hmem := h.latest (List.mem_of_mem_erase hmem)
  scheduled := h.scheduled

theorem change_fetchedToken {attempt : Nat} {token : Option (Option String)} (h : Consistent c)
    (hs : c.fetchedToken attempt token = some c') :
    Change c c' (.fetchedToken attempt token) := by
  have hcalled := h.calledBack attempt
  simp only [FPersistentConnection.fetchedToken] at hs
  split at hs
  · rename_i hmem
    split at hs
    · rename_i hlatest
      have hdown : c.isConnected = false := by
        rcases h.latest (hlatest ▸ hmem) with hstate | hstate <;> simp [isConnected, hstate]
      have hfailed : Consistent
          { c with fetches := c.fetches.erase attempt, connectionState := .disconnected } :=
        ⟨h.numbered, h.counted, fun _ => h.offline hdown, hcalled.nodup, hcalled.made,
          fun _ => Or.inr rfl, fun _ => rfl⟩
      cases token with
      | none =>
        cases hs
        have hsends := sends_tryScheduleReconnect
          (c := { c with fetches := c.fetches.erase attempt, connectionState := .disconnected })
          rfl
        refine .down ?_ hsends.writes (hfailed.sends hsends fun hne => absurd rfl hne)
        rw [isConnected_congr hsends.state]
        rfl
      | some token =>
        simp only at hs
        split at hs
        · rename_i hgetting
          cases hs
          refine .down rfl rfl ⟨h.numbered, h.counted, fun _ => h.offline hdown, hcalled.nodup,
            hcalled.made, ?_, ?_⟩
          · intro hagain
            rw [hlatest] at hagain
            exact absurd hagain h.nodup.not_mem_erase
          · intro hretry
            have hstate := h.scheduled hretry
            rw [hgetting] at hstate
            cases hstate
        · cases hs
          exact .called rfl
    · cases hs
      exact .called rfl
  · cases hs

theorem step_cases {e : ConnectionEvent} (h : Consistent c) (hs : step c e = some c') :
    Change c c' e := by
  cases e with
  | resume reason =>
    cases hs
    exact .quiet (quiet_resumeForReason c reason)
  | interrupt reason =>
    cases hs
    exact h.change_of_drops (drops_interruptForReason h reason)
  | reachable =>
    cases hs
    refine .quiet (quiet_of_sends_nil ?_)
    split
    · rename_i hdown
      exact sends_tryScheduleReconnect hdown
    · exact sends_refl c
  | retry => exact change_retry h hs
  | fetchedToken attempt token => exact change_fetchedToken h hs
  | ready =>
    have hready := hs
    simp only [step, onReady] at hready
    split at hready
    · rename_i hstate
      exact .ready hstate hs
    · cases hready
  | response rn status =>
    simp only [step] at hs
    split at hs
    · cases hs
      rcases onResponse_cases h rn status with hsame | ⟨callback, before, after, hsplit, hrun⟩
      · rw [hsame]
        exact .quiet (quiet_of_sends_nil (sends_refl c))
      · exact .response hsplit hrun
    · cases hs
  | disconnect =>
    simp only [step] at hs
    split at hs
    · cases hs
      exact h.change_of_drops (drops_onDisconnect c)
    · cases hs
  | kill =>
    cases hs
    exact h.change_of_drops (drops_interruptForReason h _)
  | authRevoked =>
    simp only [step, onAuthRevoked] at hs
    split at hs
    · cases hs
      obtain ⟨hstate, hrequests, hcounted, hwrites, hattempt, hfetches⟩ :=
        drops_onDisconnect { c with authToken := none, forceAuthTokenRefresh := true }
      exact h.change_of_drops ⟨hstate, hrequests, hcounted, hwrites, hattempt, hfetches⟩
    · cases hs
  | listenRevoked path =>
    cases hs
    exact .quiet (quiet_onListenRevoked c path)
  | refreshAuthToken token =>
    cases hs
    exact .quiet (quiet_refreshAuthToken c token)
  | listen path => exact .quiet (quiet_listen hs)
  | unlisten path =>
    cases hs
    exact .quiet (quiet_unlisten c path)
  | put =>
    cases hs
    exact .put rfl
  | purge =>
    cases hs
    exact .purge rfl

/-- What the first connection sends before anything else. -/
def connectStats (c : FPersistentConnection) : List Callback :=
  if c.firstConnection then [.stats] else []

theorem sends_connectStats (c : FPersistentConnection) (s : ConnectionState) :
    Sends (connectStats c) { c with connectionState := s }
      { (if c.firstConnection then c.sendAction (some .stats) else c) with
        connectionState := s } := by
  unfold connectStats
  split
  · exact sends_some (c := { c with connectionState := s }) rfl
  · exact sends_refl _

theorem restoreAuth_cases (c : FPersistentConnection) :
    c.restoreAuth = { c with connectionState := .connected }.restoreState ∨
      c.restoreAuth = { c with connectionState := .authenticating }.sendAction
        (some (.auth true)) := by
  unfold restoreAuth
  split
  · exact Or.inl rfl
  · exact Or.inr rfl

/-- The connection comes up: it restores its state at once, or it sends its
credentials and restores it then. -/
theorem onReady_cases (hs : c.onReady = some c') :
    Sends (connectStats c ++ restored c) { c with connectionState := .connected } c' ∨
      Sends (connectStats c ++ [.auth true]) { c with connectionState := .authenticating } c' := by
  simp only [onReady] at hs
  split at hs
  · cases hs
    have hstats := sends_connectStats c
    have hopen : restored (if c.firstConnection then c.sendAction (some .stats) else c) =
        restored c := by
      split <;> rfl
    generalize (if c.firstConnection then c.sendAction (some .stats) else c) = c1
      at hstats hopen ⊢
    have hlast : ∀ d : FPersistentConnection, Sends [] d { d with firstConnection := false } :=
      fun d => ⟨by simp [callbacks], id, rfl, rfl, rfl, rfl, rfl, Or.inl⟩
    rcases restoreAuth_cases c1 with hauth | hauth
    · have hrestore := sends_restoreState { c1 with connectionState := .connected }
      have hsent := ((hstats .connected).trans hrestore).trans (hlast _)
      rw [List.append_nil, ← hauth] at hsent
      rw [← hopen]
      exact Or.inl hsent
    · have hsend : Sends [.auth true] { c1 with connectionState := .authenticating }
        ({ c1 with connectionState := .authenticating }.sendAction (some (.auth true))) :=
        sends_some rfl
      have hsent := ((hstats .authenticating).trans hsend).trans (hlast _)
      rw [List.append_nil, ← hauth] at hsent
      exact Or.inr hsent
  · cases hs

theorem consistent_step {e : ConnectionEvent} (h : Consistent c) (hs : step c e = some c') :
    Consistent c' := by
  cases step_cases h hs with
  | quiet hquiet =>
    obtain ⟨sent, hsends, hup, _⟩ := hquiet
    exact h.sends hsends hup
  | down _ _ hc => exact hc
  | called hc =>
    rw [hc]
    exact h.calledBack _
  | ready hstate hready =>
    rcases onReady_cases hready with hsends | hsends
    · exact (h.goesUp (Or.inl hstate) (Or.inr rfl)).sends hsends fun _ => rfl
    · exact (h.goesUp (Or.inl hstate) (Or.inl rfl)).sends hsends fun _ => rfl
  | response hsplit hrun =>
    rw [hrun]
    exact consistent_runCallback h hsplit _
  | put hc =>
    have hopened : Consistent c.opened := h.congr rfl
    rcases putInternal_cases c with ⟨hstate, hsends⟩ | ⟨_, hput⟩
    · rw [hc]
      exact hopened.sends hsends fun _ => isConnected_iff.mpr (Or.inr hstate)
    · rw [hc, hput]
      exact hopened
  | purge hc =>
    rw [hc]
    exact h.congr rfl

theorem consistent_run {events : List ConnectionEvent} (hrun : run step .init events = some c) :
    Consistent c :=
  always_of_run Consistent (fun _ _ _ h hs => consistent_step h hs) consistent_init hrun

/-- The assertions that the code makes at the event. -/
def Asserts (c : FPersistentConnection) : ConnectionEvent → Prop
  | .retry => c.scheduledRetry = true → c.connectionState = .disconnected
  | .fetchedToken attempt _ =>
    attempt ∈ c.fetches → attempt = c.currentFetchTokenAttempt →
      c.connectionState = .gettingToken ∨ c.connectionState = .disconnected
  | .response rn _ =>
    ∀ path spec, getKey rn c.requestCBHash = some (.listen path spec) →
      0 < c.unackedListensCount
  | _ => True

theorem Consistent.asserts (h : Consistent c) (e : ConnectionEvent) : Asserts c e := by
  cases e with
  | retry => exact h.scheduled
  | fetchedToken attempt token =>
    intro hmem hlatest
    exact h.latest (hlatest ▸ hmem)
  | response rn status =>
    intro path spec hkey
    have hwaits : Callback.listen path spec ∈ c.callbacks :=
      List.mem_map_of_mem (mem_of_getKey hkey)
    rw [h.counted, List.countP_pos_iff]
    exact ⟨_, hwaits, rfl⟩
  | _ => exact trivial

/-- Whatever happens to the connection, none of its assertions fails: the count
of the open listens is that of the requests that wait, and no request waits
while the connection is down. -/
theorem no_assertion_of_the_connection_fails {events : List ConnectionEvent}
    (hrun : run step .init events = some c) (e : ConnectionEvent) :
    Asserts c e ∧ c.unackedListensCount = c.callbacks.countP Callback.isListen ∧
      (c.isConnected = false → c.requestCBHash = []) := by
  have hconsistent := consistent_run hrun
  refine ⟨hconsistent.asserts e, hconsistent.counted, fun hdown => ?_⟩
  exact (hconsistent.noRequests hdown).1

/-- The app listens and saves before the connection is up, and the connection is
lost before the listen is answered. -/
def lostListen : List ConnectionEvent :=
  [.resume kFInterruptReasonWaitingForOpen, .listen ["books"], .put, .retry,
    .fetchedToken 1 (some (some "token")), .ready, .response 2 "ok", .response 4 "ok",
    .disconnect]

theorem the_lost_listen_is_not_counted :
    ∃ c, run step .init lostListen = some c ∧ c.putsToAck = [(1, "ok")] ∧ Asserts c .retry ∧
      c.unackedListensCount = c.callbacks.countP Callback.isListen ∧
      (c.isConnected = false → c.requestCBHash = []) := by
  have hwaits : (run step .init lostListen).map (·.putsToAck) = some [(1, "ok")] := by
    decide +kernel
  obtain ⟨c, hrun, hputs⟩ := Option.map_eq_some_iff.mp hwaits
  exact ⟨c, hrun, hputs, no_assertion_of_the_connection_fails hrun .retry⟩

/-! ## Each write is answered once -/

/-- Each write so far is answered, waits for the listens, or is open. -/
structure Kept (w : WriteLog) : Prop where
  once : ((w.completed ++ w.putsToAck).map Prod.fst ++ w.outstandingPuts).Perm
    (List.range' 1 (w.putCounter - 1))
  ascending : w.outstandingPuts.Pairwise (· < ·)
  positive : 0 < w.putCounter

theorem kept_init : Kept FPersistentConnection.init.writeLog where
  once := by simp [writeLog, FPersistentConnection.init]
  ascending := List.Pairwise.nil
  positive := by simp [writeLog, FPersistentConnection.init]

theorem Kept.below {w : WriteLog} (h : Kept w) : ∀ index ∈ w.outstandingPuts,
    index < w.putCounter := by
  intro index hmem
  have hrange := h.once.subset (List.mem_append_right _ hmem)
  rw [List.mem_range'_1] at hrange
  have hpositive := h.positive
  omega

section
variable {w : WriteLog}

theorem Kept.put (h : Kept w) :
    Kept { w with
      putCounter := w.putCounter + 1
      outstandingPuts := w.outstandingPuts ++ [w.putCounter] } where
  once := by
    obtain ⟨n, hn⟩ := Nat.exists_eq_add_of_lt h.positive
    have honce := h.once
    simp only [hn, Nat.zero_add, Nat.add_sub_cancel] at honce ⊢
    rw [List.range'_concat, ← List.append_assoc]
    simpa [Nat.add_comm] using honce.append_right [1 + n]
  ascending := by
    rw [List.pairwise_append]
    refine ⟨h.ascending, List.pairwise_singleton _ _, fun index hmem last hlast => ?_⟩
    rw [List.mem_singleton.mp hlast]
    exact h.below index hmem
  positive := Nat.succ_pos _

theorem Kept.ackPuts (h : Kept w) :
    Kept { w with completed := w.completed ++ w.putsToAck, putsToAck := [] } where
  once := by simpa using h.once
  ascending := h.ascending
  positive := h.positive

/-- An open write is answered, at once or when the listens are. -/
theorem Kept.answer (h : Kept w) {completed putsToAck : List (Nat × String)} {index : Nat}
    (status : String) (hopen : index ∈ w.outstandingPuts)
    (hanswer : (completed ++ putsToAck).Perm ((index, status) :: (w.completed ++ w.putsToAck))) :
    Kept { w with
      completed := completed
      putsToAck := putsToAck
      outstandingPuts := w.outstandingPuts.erase index } where
  once := by
    have hrest := (List.perm_cons_erase hopen).append_left
      ((w.completed ++ w.putsToAck).map Prod.fst)
    refine ((hanswer.map Prod.fst).append_right _).trans ?_
    refine List.Perm.trans ?_ (hrest.symm.trans h.once)
    exact List.perm_middle.symm
  ascending := h.ascending.sublist List.erase_sublist
  positive := h.positive

theorem Kept.purge (h : Kept w) (status : String) :
    Kept { w with
      completed := w.completed ++ w.putsToAck ++
        (w.outstandingPuts.insertionSort (· ≤ ·)).map fun index => (index, status)
      putsToAck := []
      outstandingPuts := [] } where
  once := by
    have hsorted := (List.perm_insertionSort (· ≤ ·) w.outstandingPuts).append_left
      ((w.completed ++ w.putsToAck).map Prod.fst)
    simpa [Function.comp_def] using hsorted.trans h.once
  ascending := List.Pairwise.nil
  positive := h.positive

end

theorem writeLog_auth (c : FPersistentConnection) (status : String) (restore : Bool) :
    (c.runCallback status (.auth restore)).writeLog = c.writeLog := by
  simp only [runCallback]
  split
  · split
    · exact (sends_restoreState _).writes
    · rfl
  · exact (drops_onDisconnect _).writes

theorem kept_runCallback (h : Kept c.writeLog) (status : String) (callback : Callback) :
    Kept (c.runCallback status callback).writeLog := by
  cases callback with
  | stats => exact h
  | auth restoreStateAfterComplete =>
    rw [writeLog_auth]
    exact h
  | put index =>
    simp only [runCallback]
    split
    · rename_i hopen
      split
      · refine h.answer status hopen ?_
        simp only [writeLog, List.append_assoc]
        exact List.perm_middle
      · refine h.answer status hopen ?_
        simp only [writeLog, ← List.append_assoc]
        exact List.perm_append_singleton _ _
    · exact h
  | listen path spec =>
    obtain ⟨listens, listened, hrun⟩ := runCallback_listen c status path spec
    rw [hrun]
    simp only
    split
    · exact h.ackPuts
    · exact h

/-- What a step does to the writes. -/
inductive WritesChange (c c' : FPersistentConnection) : ConnectionEvent → Prop where
  | same {e : ConnectionEvent} (h : c'.writeLog = c.writeLog) : WritesChange c c' e
  | answered {rn : Nat} {status : String} {requests : List (Nat × Callback)}
      {callback : Callback}
      (h : c'.writeLog =
        ({ c with requestCBHash := requests }.runCallback status callback).writeLog) :
      WritesChange c c' (.response rn status)
  | put (h : c'.writeLog = c.opened.writeLog) : WritesChange c c' .put
  | purge (h : c' = c.purgeOutstandingWrites) : WritesChange c c' .purge

theorem writes_step {e : ConnectionEvent} (hc : Consistent c) (hs : step c e = some c') :
    WritesChange c c' e := by
  cases step_cases hc hs with
  | quiet hquiet =>
    obtain ⟨sent, hsends, _⟩ := hquiet
    exact .same hsends.writes
  | down _ hwrites => exact .same hwrites
  | called heq => exact .same (by rw [heq]; rfl)
  | ready hstate hready =>
    rcases onReady_cases hready with hsends | hsends
    · exact .same hsends.writes
    · exact .same hsends.writes
  | response hsplit heq => exact .answered (congrArg FPersistentConnection.writeLog heq)
  | put heq => exact .put (by rw [heq, writeLog_putInternal])
  | purge heq => exact .purge heq

theorem kept_step {e : ConnectionEvent} (hc : Consistent c) (h : Kept c.writeLog)
    (hs : step c e = some c') : Kept c'.writeLog := by
  cases writes_step hc hs with
  | same hwrites => exact hwrites ▸ h
  | answered hwrites =>
    rw [hwrites]
    apply kept_runCallback
    exact h
  | put hwrites =>
    rw [hwrites]
    exact h.put
  | purge heq =>
    rw [heq]
    exact h.purge kFErrorWriteCanceled

theorem keeps_run {events : List ConnectionEvent} (hc : Consistent c) (hk : Kept c.writeLog)
    (hrun : run step c events = some c') : Consistent c' ∧ Kept c'.writeLog := by
  refine always_of_run (fun c => Consistent c ∧ Kept c.writeLog) ?_ ⟨hc, hk⟩ hrun
  intro c e c' ⟨hc, hk⟩ hs
  exact ⟨consistent_step hc hs, kept_step hc hk hs⟩

theorem kept_run {events : List ConnectionEvent} (hrun : run step .init events = some c) :
    Consistent c ∧ Kept c.writeLog := keeps_run consistent_init kept_init hrun

def ConnectionEvent.isPut : ConnectionEvent → Bool
  | .put => true
  | _ => false

theorem putCounter_runCallback (c : FPersistentConnection) (status : String)
    (callback : Callback) : (c.runCallback status callback).putCounter = c.putCounter := by
  cases callback with
  | stats => rfl
  | auth restoreStateAfterComplete =>
    exact congrArg WriteLog.putCounter (writeLog_auth c status restoreStateAfterComplete)
  | put index =>
    simp only [runCallback]
    split
    · split <;> rfl
    · rfl
  | listen path spec =>
    obtain ⟨listens, listened, hrun⟩ := runCallback_listen c status path spec
    rw [hrun]
    simp only
    split <;> rfl

theorem putCounter_step {e : ConnectionEvent} (hc : Consistent c) (hs : step c e = some c') :
    c'.putCounter = c.putCounter + if e.isPut then 1 else 0 := by
  by_cases he : e = .put
  · subst he
    cases hs
    exact congrArg WriteLog.putCounter (writeLog_putInternal c)
  · have hother : e.isPut = false := by
      cases e <;> first | rfl | exact absurd rfl he
    rw [hother]
    cases writes_step hc hs with
    | same hwrites => exact congrArg WriteLog.putCounter hwrites
    | answered hwrites =>
      exact (congrArg WriteLog.putCounter hwrites).trans (putCounter_runCallback _ _ _)
    | put hwrites => exact absurd rfl he
    | purge heq => rw [heq]; rfl

theorem putCounter_run {events : List ConnectionEvent} (hc : Consistent c)
    (hrun : run step c events = some c') :
    c'.putCounter = c.putCounter + events.countP ConnectionEvent.isPut := by
  induction events generalizing c with
  | nil =>
    cases hrun
    rfl
  | cons e rest ih =>
    rw [run_cons] at hrun
    obtain ⟨c1, hs, hrest⟩ := Option.bind_eq_some_iff.mp hrun
    rw [ih (consistent_step hc hs) hrest, putCounter_step hc hs, List.countP_cons]
    omega

/-- In whatever order the server answers and the connection comes and goes, each
write that the app made is answered once, waits for the listens with its answer,
or is still open. -/
theorem each_write_is_answered_at_most_once {events : List ConnectionEvent}
    (hrun : run step .init events = some c) :
    ((c.completed ++ c.putsToAck).map Prod.fst ++ c.outstandingPuts).Perm
      (List.range' 1 (events.countP ConnectionEvent.isPut)) := by
  have hcounter := putCounter_run consistent_init hrun
  have honce := (kept_run hrun).2.once
  simp only [writeLog, hcounter] at honce
  simpa [FPersistentConnection.init] using honce

/-- Two writes are made, the first one is answered, and then the app drops the
open ones. -/
def droppedWrite : List ConnectionEvent :=
  [.resume kFInterruptReasonWaitingForOpen, .put, .retry, .fetchedToken 1 (some none), .ready,
    .put, .response 2 "ok", .disconnect, .purge]

theorem two_writes_are_answered_once :
    ∃ c, run step .init droppedWrite = some c ∧
      c.completed = [(1, "ok"), (2, kFErrorWriteCanceled)] ∧
      ((c.completed ++ c.putsToAck).map Prod.fst ++ c.outstandingPuts).Perm
        (List.range' 1 (droppedWrite.countP ConnectionEvent.isPut)) := by
  have hanswers : (run step .init droppedWrite).map (·.completed) =
      some [(1, "ok"), (2, kFErrorWriteCanceled)] := by
    decide +kernel
  obtain ⟨c, hrun, hcompleted⟩ := Option.map_eq_some_iff.mp hanswers
  exact ⟨c, hrun, hcompleted, each_write_is_answered_at_most_once hrun⟩

end

end xellissime_book.persistent_connection
