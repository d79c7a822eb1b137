-- The connection of the client to the server (Pods/FirebaseDatabase,
-- FPersistentConnection.m): it comes up, is lost and comes up again, and each
-- time the listens and the writes that are still open are sent anew.
import Mathlib.Data.List.Sort
import XellissimeBook.PathTree
import XellissimeBook.Runs

open path_tree runs

namespace xellissime_book.persistent_connection

/-! ## The connection -/

inductive ConnectionState where
  | disconnected
  | gettingToken
  | connecting
  | authenticating
  | connected
  deriving DecidableEq

/-- What the client does with the response to a request. A listen is known by
its path and by the object that was made for it. -/
inductive Callback where
  | stats
  | auth (restoreStateAfterComplete : Bool)
  | put (index : Nat)
  | listen (path : List String) (spec : Nat)
  deriving DecidableEq

/-- `FPersistentConnection`, with the calls that it makes to the callbacks of
its clients. The app makes no transaction and no write at disconnect. The request
number of the source is an int that wraps: a run is one of fewer than 2^32 requests. -/
structure FPersistentConnection where
  connectionState : ConnectionState
  firstConnection : Bool
  interruptReasons : List String
  /-- The retry helper holds a block to run. -/
  scheduledRetry : Bool
  currentFetchTokenAttempt : Nat
  /-- The attempts that the token provider has not called back for. -/
  fetches : List Nat
  authToken : Option String
  forceAuthTokenRefresh : Bool
  listens : List (List String × Nat)
  /-- The objects made for listens so far. -/
  specs : Nat
  outstandingPuts : List Nat
  putCounter : Nat
  requestNumber : Nat
  requestCBHash : List (Nat × Callback)
  unackedListensCount : Nat
  putsToAck : List (Nat × String)
  /-- The calls of `onCompleteBlock` of the writes, with the status. -/
  completed : List (Nat × String)
  /-- The calls of `onComplete` of the listens. -/
  listened : List (List String × String)

def kFInterruptReasonWaitingForOpen : String := "waiting_for_open"
def kFInterruptReasonServerKill : String := "server_kill"
def kFErrorWriteCanceled : String := "write_canceled"

namespace FPersistentConnection

def init : FPersistentConnection where
  connectionState := .disconnected
  firstConnection := true
  interruptReasons := [kFInterruptReasonWaitingForOpen]
  scheduledRetry := false
  currentFetchTokenAttempt := 0
  fetches := []
  authToken := none
  forceAuthTokenRefresh := false
  listens := []
  specs := 0
  outstandingPuts := []
  putCounter := 1
  requestNumber := 1
  requestCBHash := []
  unackedListensCount := 0
  putsToAck := []
  completed := []
  listened := []

/-- `connected`. -/
def isConnected (c : FPersistentConnection) : Bool :=
  c.connectionState = .authenticating || c.connectionState = .connected

def canSendWrites (c : FPersistentConnection) : Bool := c.connectionState = .connected

/-- `sendAction:body:sensitive:callback:`. -/
def sendAction (onMessage : Option Callback) (c : FPersistentConnection) :
    FPersistentConnection :=
  { c with
    requestNumber := c.requestNumber + 1
    requestCBHash :=
      match onMessage with
      | some callback => c.requestCBHash ++ [(c.requestNumber, callback)]
      | none => c.requestCBHash }

/-- `sendListen:`. -/
def sendListen (listenSpec : List String × Nat) (c : FPersistentConnection) :
    FPersistentConnection :=
  let c := c.sendAction (some (.listen listenSpec.1 listenSpec.2))
  { c with unackedListensCount := c.unackedListensCount + 1 }

/-- `sendPut:`. -/
def sendPut (index : Nat) (c : FPersistentConnection) : FPersistentConnection :=
  c.sendAction (some (.put index))

/-- `restoreState`. -/
def restoreState (c : FPersistentConnection) : FPersistentConnection :=
  let c := c.listens.foldl (fun c listenSpec => c.sendListen listenSpec) c
  let keys := c.outstandingPuts.insertionSort (· ≤ ·)
  keys.foldl (fun c index => c.sendPut index) c

/-- `sendAuthAndRestoreStateAfterComplete:`. -/
def sendAuthAndRestoreStateAfterComplete (restoreStateAfterComplete : Bool)
    (c : FPersistentConnection) : FPersistentConnection :=
  c.sendAction (some (.auth restoreStateAfterComplete))

/-- `restoreAuth`. -/
def restoreAuth (c : FPersistentConnection) : FPersistentConnection :=
  match c.authToken with
  | none => { c with connectionState := .connected }.restoreState
  | some _ =>
    { c with connectionState := .authenticating }.sendAuthAndRestoreStateAfterComplete true

/-- `ackPuts`. -/
def ackPuts (c : FPersistentConnection) : FPersistentConnection :=
  { c with completed := c.completed ++ c.putsToAck, putsToAck := [] }

def shouldReconnect (c : FPersistentConnection) : Bool := c.interruptReasons.isEmpty

/-- `tryScheduleReconnect`. -/
def tryScheduleReconnect (c : FPersistentConnection) : FPersistentConnection :=
  if c.shouldReconnect then { c with forceAuthTokenRefresh := false, scheduledRetry := true }
  else c

/-- `onDisconnect:withReason:`. Closing the connection ends there too. -/
def onDisconnect (c : FPersistentConnection) : FPersistentConnection :=
  let c :=
    { c with connectionState := .disconnected, requestCBHash := [], unackedListensCount := 0 }
  if c.shouldReconnect then c.tryScheduleReconnect else c

/-- There is a `realtime` connection. -/
def hasRealtime (c : FPersistentConnection) : Bool :=
  c.connectionState = .connecting || c.isConnected

/-- `interruptForReason:`. -/
def interruptForReason (reason : String) (c : FPersistentConnection) : FPersistentConnection :=
  let c := { c with interruptReasons := c.interruptReasons.insert reason }
  if c.hasRealtime then c.onDisconnect
  else { c with connectionState := .disconnected, scheduledRetry := false }

/-- `resumeForReason:`. -/
def resumeForReason (reason : String) (c : FPersistentConnection) : FPersistentConnection :=
  let c := { c with interruptReasons := c.interruptReasons.filter (· ≠ reason) }
  if c.shouldReconnect ∧ c.connectionState = .disconnected then c.tryScheduleReconnect else c

/-- The block of `tryScheduleReconnect` up to the fetch of the token. -/
def retry (c : FPersistentConnection) : Option FPersistentConnection :=
  if c.scheduledRetry ∧ c.connectionState = .disconnected then
    some
      { c with
        scheduledRetry := false
        connectionState := .gettingToken
        currentFetchTokenAttempt := c.currentFetchTokenAttempt + 1
        fetches := c.fetches ++ [c.currentFetchTokenAttempt + 1] }
  else none

/-- `openNetworkConnectionWithToken:`. -/
def openNetworkConnectionWithToken (token : Option String) (c : FPersistentConnection) :
    FPersistentConnection :=
  { c with authToken := token, connectionState := .connecting }

/-- The callback of the token provider, `none` for an error. It comes once for
each attempt. -/
def fetchedToken (attempt : Nat) (token : Option (Option String)) (c : FPersistentConnection) :
    Option FPersistentConnection :=
  if attempt ∈ c.fetches then
    let c := { c with fetches := c.fetches.erase attempt }
    if attempt = c.currentFetchTokenAttempt then
      match token with
      | none => some { c with connectionState := .disconnected }.tryScheduleReconnect
      | some token =>
        if c.connectionState = .gettingToken then some (c.openNetworkConnectionWithToken token)
        else some c
    else some c
  else none

/-- `onReady:atTime:sessionID:`. -/
def onReady (c : FPersistentConnection) : Option FPersistentConnection :=
  if c.connectionState = .connecting then
    let c := if c.firstConnection then c.sendAction (some .stats) else c
    some { c.restoreAuth with firstConnection := false }
  else none

/-- What a callback does with the status of the response. -/
def runCallback (status : String) (c : FPersistentConnection) :
    Callback → FPersistentConnection
  | .stats => c
  | .auth restoreStateAfterComplete =>
    let c := { c with connectionState := .connected }
    if status = "ok" then
      if restoreStateAfterComplete then c.restoreState else c
    else { c with authToken := none, forceAuthTokenRefresh := true }.onDisconnect
  | .put index =>
    if index ∈ c.outstandingPuts then
      let c := { c with outstandingPuts := c.outstandingPuts.erase index }
      if c.unackedListensCount = 0 then { c with completed := c.completed ++ [(index, status)] }
      else { c with putsToAck := c.putsToAck ++ [(index, status)] }
    else c
  | .listen path spec =>
    let c :=
      if getKey path c.listens = some spec then
        { c with
          listens := if status = "ok" then c.listens else eraseKey path c.listens
          listened := c.listened ++ [(path, status)] }
      else c
    let c := { c with unackedListensCount := c.unackedListensCount - 1 }
    if c.unackedListensCount = 0 then c.ackPuts else c

/-- `onDataMessage:withMessage:`, of a response to a request. -/
def onResponse (rn : Nat) (status : String) (c : FPersistentConnection) :
    FPersistentConnection :=
  match getKey rn c.requestCBHash with
  | none => c
  | some callback =>
    { c with requestCBHash := eraseKey rn c.requestCBHash }.runCallback status callback

/-- `listen:tagId:hash:onComplete:`. A second listen of a path fails an assertion. -/
def listen (path : List String) (c : FPersistentConnection) : Option FPersistentConnection :=
  if (getKey path c.listens).isNone then
    let outstanding := (path, c.specs)
    let c := { c with listens := c.listens ++ [outstanding], specs := c.specs + 1 }
    some (if c.isConnected then c.sendListen outstanding else c)
  else none

/-- `unlisten:tagId:`. -/
def unlisten (path : List String) (c : FPersistentConnection) : FPersistentConnection :=
  match getKey path c.listens with
  | none => c
  | some _ =>
    let c := { c with listens := eraseKey path c.listens }
    if c.isConnected then c.sendAction none else c

/-- `putInternal:forAction:forPath:withHash:withCallback:`. -/
def putInternal (c : FPersistentConnection) : FPersistentConnection :=
  let index := c.putCounter
  let c :=
    { c with putCounter := c.putCounter + 1, outstandingPuts := c.outstandingPuts ++ [index] }
  if c.canSendWrites then c.sendPut index else c

/-- `purgeOutstandingWrites`. -/
def purgeOutstandingWrites (c : FPersistentConnection) : FPersistentConnection :=
  let c := c.ackPuts
  let keys := c.outstandingPuts.insertionSort (· ≤ ·)
  { c with
    completed := c.completed ++ keys.map fun index => (index, kFErrorWriteCanceled)
    outstandingPuts := [] }

/-- `refreshAuthToken:`. -/
def refreshAuthToken (token : Option String) (c : FPersistentConnection) :
    FPersistentConnection :=
  let c := { c with authToken := token }
  if c.isConnected then
    match token with
    | some _ => c.sendAuthAndRestoreStateAfterComplete false
    | none => c.sendAction none
  else c

/-- `onAuthRevokedWithStatus:andReason:`. -/
def onAuthRevoked (c : FPersistentConnection) : Option FPersistentConnection :=
  if c.hasRealtime then
    some { c with authToken := none, forceAuthTokenRefresh := true }.onDisconnect
  else none

/-- `onListenRevoked:`. -/
def onListenRevoked (path : List String) (c : FPersistentConnection) : FPersistentConnection :=
  match getKey path c.listens with
  | none => c
  | some _ =>
    { c with
      listens := eraseKey path c.listens
      listened := c.listened ++ [(path, "permission_denied")] }

end FPersistentConnection

/-! ## Its events -/

inductive ConnectionEvent where
  | resume (reason : String)
  | interrupt (reason : String)
  | reachable
  | retry
  | fetchedToken (attempt : Nat) (token : Option (Option String))
  | ready
  | response (rn : Nat) (status : String)
  | disconnect
  | kill
  | authRevoked
  | listenRevoked (path : List String)
  | refreshAuthToken (token : Option String)
  | listen (path : List String)
  | unlisten (path : List String)
  | put
  | purge

open FPersistentConnection in
def step (c : FPersistentConnection) : ConnectionEvent → Option FPersistentConnection
  | .resume reason => some (c.resumeForReason reason)
  | .interrupt reason => some (c.interruptForReason reason)
  | .reachable =>
    some (if c.connectionState = .disconnected then c.tryScheduleReconnect else c)
  | .retry => c.retry
  | .fetchedToken attempt token => c.fetchedToken attempt token
  | .ready => c.onReady
  | .response rn status => if c.hasRealtime then some (c.onResponse rn status) else none
  | .disconnect => if c.hasRealtime then some c.onDisconnect else none
  | .kill => some (c.interruptForReason kFInterruptReasonServerKill)
  | .authRevoked => c.onAuthRevoked
  | .listenRevoked path => some (c.onListenRevoked path)
  | .refreshAuthToken token => some (c.refreshAuthToken token)
  | .listen path => c.listen path
  | .unlisten path => some (c.unlisten path)
  | .put => some c.putInternal
  | .purge => some c.purgeOutstandingWrites

end xellissime_book.persistent_connection
