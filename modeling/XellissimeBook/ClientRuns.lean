-- The client as a whole (Pods/FirebaseDatabase, FRepo.m): a save goes to the
-- sync tree and to the connection, and the block that the connection runs when
-- the save is answered settles it in the sync tree.
import XellissimeBook.OrderedAnswers
import XellissimeBook.ServerUnderWrites

open path_tree runs
open xellissime_book.key_order
open xellissime_book.database
open xellissime_book.pending_writes
open xellissime_book.answered_writes hiding step
open xellissime_book.local_view hiding step
open xellissime_book.server_under_writes
open xellissime_book.persistent_connection hiding step

namespace xellissime_book.client_runs

/-! ## The client -/

structure FClient where
  repo : FRepo
  connection : FPersistentConnection
  /-- The write id that the block of each put holds, by the index of the put. -/
  blocks : List (Nat × Nat)

/-- `ackWrite:rerunTransactionsAtPath:status:`. -/
def ackWrite (writeId : Nat) (status : String) (repo : FRepo) : Option FRepo :=
  if status = kFErrorWriteCanceled then some repo
  else
    let success := decide (status = "ok")
    repo.ackUserWriteWithWriteId writeId (!success)

namespace FClient

def init : FClient := ⟨.init, .init, []⟩

/-- The blocks of the puts that are answered, in turn. -/
def runBlocks (blocks : List (Nat × Nat)) : List (Nat × String) → FRepo → Option FRepo
  | [], repo => some repo
  | (index, status) :: rest, repo =>
    (getKey index blocks).bind fun writeId =>
      (ackWrite writeId status repo).bind fun repo => runBlocks blocks rest repo

/-- `set:withNode:withCallback:`. -/
def set (key : String) (rest : List String) (node : TidyNode) (client : FClient) : FClient where
  repo := client.repo.set (treePath ++ key :: rest) node.1
  connection := client.connection.putInternal
  blocks := client.blocks ++ [(client.connection.putCounter, client.repo.writeIdCounter)]

/-- Something happens to the connection, which then runs the blocks of the puts
that it got answers for. -/
def network (e : ConnectionEvent) (client : FClient) : Option FClient :=
  (persistent_connection.step client.connection e).bind fun connection =>
    let answered := connection.completed.drop client.connection.completed.length
    (runBlocks client.blocks answered client.repo).map fun repo =>
      { client with repo, connection }

end FClient

/-- The app drops no writes. -/
inductive ClientEvent where
  | set (key : String) (rest : List String) (node : TidyNode)
  | network (e : ConnectionEvent)
  /-- The server sends the node at a path below `books`. -/
  | dataUpdate (path : List String) (data : TidyNode)
  | listenComplete

def step (client : FClient) : ClientEvent → Option FClient
  | .set key rest node => some (client.set key rest node)
  | .network .put => none
  | .network .purge => none
  | .network e => client.network e
  | .dataUpdate path data =>
    (client.repo.applyServerOverwriteAtPath path data.1).map fun repo => { client with repo }
  | .listenComplete => some { client with repo := client.repo.applyListenCompleteAtPath }

/-! ## Settled writes -/

/-- So many writes are answered: the others are pending, in their order. -/
structure Settling (repo : FRepo) (made : List (List String × FNode)) (node : FNode)
    (answers : Nat) : Prop where
  current : Current repo
  receives : Receives repo node
  clear : Clear repo
  length : made.length = repo.writeIdCounter
  ids : repo.pendingWriteTree.allWrites.map (·.writeId) =
    (List.range repo.writeIdCounter).drop answers
  pending : writesOf repo.pendingWriteTree.allWrites = made.drop answers

section
variable {repo repo' : FRepo} {made : List (List String × FNode)} {node : FNode} {answers : Nat}

theorem noLeafAbove_congr {server server' : FNode} (h : PathTree.SameLeaves server server')
    {path : List String} (hclear : compound_writes.FCompoundWrite.NoLeafAbove server path) :
    compound_writes.FCompoundWrite.NoLeafAbove server' path := by
  intro p hp hne
  rw [← h p]
  exact hclear p hp hne

/-- The server node is the same after an answer, and fewer writes are pending. -/
theorem clear_of_receives (h : Clear repo) (hr : Receives repo node) (hr' : Receives repo' node)
    (hsub : ∀ record ∈ repo'.pendingWriteTree.allWrites,
      record ∈ repo.pendingWriteTree.allWrites) : Clear repo' := by
  intro view' hview' record hrecord
  have hserver' := hr'.server view' hview'
  cases hview : repo.view with
  | none =>
    rw [hr.unheard hview] at hserver'
    apply noLeafAbove_congr (sameLeaves_serverRoot hserver'.symm)
    intro p _ _
    rw [serverRoot, PathTree.set_empty_empty, PathTree.leafAt_empty]
  | some view =>
    have hserver := (hr.server view hview).trans hserver'.symm
    apply noLeafAbove_congr (sameLeaves_serverRoot hserver)
    exact h view hview record (hsub record hrecord)

theorem exists_removeWriteId {t : FWriteTree} {record : FWriteRecord}
    {after : List FWriteRecord} (hall : t.allWrites = record :: after) :
    ∃ reevaluate t', t.removeWriteId record.writeId = some (reevaluate, t') ∧
      t'.allWrites = after := by
  have hindex : t.allWrites.findIdx? (fun r => decide (r.writeId = record.writeId)) = some 0 := by
    simp [hall, List.findIdx?_cons]
  have hget : t.allWrites[0]? = some record := by rw [hall]; rfl
  have herase : t.allWrites.eraseIdx 0 = after := by rw [hall]; rfl
  simp only [FWriteTree.removeWriteId, hindex, hget]
  split
  · exact ⟨_, _, rfl, herase⟩
  · split
    · exact ⟨_, _, rfl, herase⟩
    · exact ⟨_, _, rfl, herase⟩

theorem sync_counter (repo : FRepo) (operation : FOperation) :
    (repo.applyOperationToSyncPoints operation).writeIdCounter = repo.writeIdCounter := by
  unfold FRepo.applyOperationToSyncPoints
  split <;> rfl

/-- The answer of the oldest pending write takes it out. -/
theorem exists_ack {record : FWriteRecord} {after : List FWriteRecord}
    (hall : repo.pendingWriteTree.allWrites = record :: after) (success : Bool) :
    ∃ repo', local_view.step repo (.ack record.writeId success) = some repo' ∧
      repo'.pendingWriteTree.allWrites = after ∧
      repo'.writeIdCounter = repo.writeIdCounter := by
  obtain ⟨reevaluate, t', hremove, hafter⟩ := exists_removeWriteId hall
  have hfind : repo.pendingWriteTree.allWrites.find? (·.writeId = record.writeId) =
      some record := by
    simp [hall]
  simp only [local_view.step, FRepo.ackUserWriteWithWriteId, hfind, hremove]
  split
  · refine ⟨_, rfl, ?_, ?_⟩
    · rw [sync_tree]
      exact hafter
    · rw [sync_counter]
  · exact ⟨_, rfl, hafter, rfl⟩

/-- The answer of the oldest pending write settles it. -/
theorem settling_ackWrite (h : Settling repo made node answers)
    (hlt : answers < repo.writeIdCounter) {status : String}
    (hstatus : status ≠ kFErrorWriteCanceled) :
    ∃ repo', ackWrite answers status repo = some repo' ∧
      repo'.writeIdCounter = repo.writeIdCounter ∧ Settling repo' made node (answers + 1) := by
  have hids := h.ids
  have hpending := h.pending
  rw [List.drop_eq_getElem_cons (by simpa using hlt), List.getElem_range] at hids
  obtain ⟨record, after, hall, hid, hafter⟩ := List.map_eq_cons_iff.mp hids
  subst hid
  obtain ⟨repo', hs, hall', hcounter⟩ := exists_ack hall (decide (status = "ok"))
  have hack : ackWrite record.writeId status repo = some repo' := by
    rw [ackWrite, if_neg hstatus]
    exact hs
  have hturn : InTurn repo (.ack record.writeId (decide (status = "ok"))) := by
    intro r hr older holder
    simp [olderWrites, hall] at holder
  have hreceives := receives_step h.current.sound h.receives hs
  have hsub : ∀ r ∈ repo'.pendingWriteTree.allWrites, r ∈ repo.pendingWriteTree.allWrites := by
    rw [hall, hall']
    exact fun r hr => List.mem_cons_of_mem _ hr
  refine ⟨repo', hack, hcounter, current_ack h.current h.clear hturn hs, hreceives,
    clear_of_receives h.clear h.receives hreceives hsub, ?_, ?_, ?_⟩
  · rw [hcounter]
    exact h.length
  · rw [hall', hcounter]
    exact hafter
  · rw [hall] at hpending
    rw [hall', ← List.drop_drop, ← hpending]
    rfl

theorem settling_runBlocks {blocks : List (Nat × Nat)} {given : List (Nat × String)}
    (h : Settling repo made node answers)
    (hblocks : ∀ i < repo.writeIdCounter, getKey (i + 1) blocks = some i)
    (hgiven : given.map Prod.fst = List.range' (answers + 1) given.length)
    (hle : answers + given.length ≤ repo.writeIdCounter)
    (hstatus : ∀ put ∈ given, put.2 ≠ kFErrorWriteCanceled) :
    ∃ repo', FClient.runBlocks blocks given repo = some repo' ∧
      repo'.writeIdCounter = repo.writeIdCounter ∧
      Settling repo' made node (answers + given.length) := by
  induction given generalizing repo answers with
  | nil => exact ⟨repo, rfl, rfl, h⟩
  | cons put rest ih =>
    obtain ⟨index, status⟩ := put
    simp only [List.map_cons, List.length_cons, List.range'_succ, List.cons.injEq] at hgiven
    obtain ⟨rfl, hrest⟩ := hgiven
    rw [List.length_cons] at hle
    rw [List.forall_mem_cons] at hstatus
    have hlt : answers < repo.writeIdCounter := by omega
    obtain ⟨repo1, hack, hcounter, hsettling⟩ := settling_ackWrite h hlt hstatus.1
    rw [← hcounter] at hblocks hle ⊢
    obtain ⟨repo', hrun, hcounter', hsettling'⟩ :=
      ih hsettling hblocks hrest (by omega) hstatus.2
    refine ⟨repo', ?_, hcounter', ?_⟩
    · rw [FClient.runBlocks, hblocks answers (by omega), Option.bind_some, hack,
        Option.bind_some, hrun]
    · rw [List.length_cons, Nat.add_comm rest.length 1, ← Nat.add_assoc]
      exact hsettling'

end

/-! ## Runs -/

/-- The writes of an event, as paths with their nodes. -/
def written : ClientEvent → List (List String × FNode)
  | .set key rest node => [(treePath ++ key :: rest, node.1)]
  | .network _ => []
  | .dataUpdate _ _ => []
  | .listenComplete => []

/-- The node at `books` after an event, as the server sends it. -/
def sent (node : FNode) : ClientEvent → FNode
  | .dataUpdate path data => updateChild path data.1 node
  | .set _ _ _ => node
  | .network _ => node
  | .listenComplete => node

/-- The status that the server sends. -/
def status? : ConnectionEvent → Option String
  | .response _ status => some status
  | _ => none

/-- The server answers the oldest request that waits for it. It does not cancel
a write, as only the client does. -/
def FirstAnswered (client : FClient) : ClientEvent → Prop
  | .network e => InOrder client.connection e ∧ status? e ≠ some kFErrorWriteCanceled
  | .set _ _ _ => True
  | .dataUpdate _ _ => True
  | .listenComplete => True

instance : (client : FClient) → (e : ClientEvent) → Decidable (FirstAnswered client e)
  | client, .network e =>
    inferInstanceAs
      (Decidable (InOrder client.connection e ∧ status? e ≠ some kFErrorWriteCanceled))
  | _, .set _ _ _ => inferInstanceAs (Decidable True)
  | _, .dataUpdate _ _ => inferInstanceAs (Decidable True)
  | _, .listenComplete => inferInstanceAs (Decidable True)

/-- No answer waits for listens that were dropped, and no leaf of the server lies
strictly above a pending write. -/
def Fine (client : FClient) : Prop := AnswersHeld client.connection ∧ Clear client.repo

instance : DecidablePred Fine := fun client =>
  inferInstanceAs (Decidable (AnswersHeld client.connection ∧ Clear client.repo))

/-- The sync tree follows the connection: the writes that are not answered are
the pending ones. -/
structure Following (client : FClient) (made : List (List String × FNode)) (node : FNode) :
    Prop where
  turn : AnswersInTurn client.connection
  settling : Settling client.repo made node client.connection.completed.length
  counters : client.connection.putCounter = client.repo.writeIdCounter + 1
  blocks : client.blocks = (List.range client.repo.writeIdCounter).map fun i => (i + 1, i)
  taken : ∀ put ∈ client.connection.putsToAck, put.2 ≠ kFErrorWriteCanceled

section
variable {client client' : FClient} {made : List (List String × FNode)} {node : FNode}

theorem getKey_blocks (n : Nat) {i : Nat} (h : i < n) :
    getKey (i + 1) ((List.range n).map fun i => (i + 1, i)) = some i := by
  rw [getKey_eq_some_iff]
  · exact List.mem_map.mpr ⟨i, List.mem_range.mpr h, rfl⟩
  · rw [List.map_map]
    exact List.nodup_range.map fun a b hab => Nat.succ.inj hab

theorem following_init : Following .init [] .empty where
  turn := answersInTurn_init
  settling := by
    refine ⟨current_init, ⟨fun view hview => (by cases hview), fun _ => rfl⟩, ?_, rfl, rfl, rfl⟩
    intro view hview
    cases hview
  counters := rfl
  blocks := rfl
  taken := by simp [FClient.init, FPersistentConnection.init]

/-- The answers so far are those of the first writes. -/
theorem completed_le (h : Following client made node) :
    client.connection.completed.length ≤ client.repo.writeIdCounter := by
  have hlength := congrArg List.length h.turn.ordered.order
  have hcounters := h.counters
  simp only [List.length_append, List.length_map, List.length_range'] at hlength
  omega

theorem following_set (h : Following client made node) (hfine : Fine client) (key : String)
    (rest : List String) (data : TidyNode) (hclear : Clear (client.set key rest data).repo) :
    Following (client.set key rest data) (made ++ [(treePath ++ key :: rest, data.1)]) node := by
  have hwritten := writeLog_putInternal client.connection
  have hcompleted : client.connection.putInternal.completed = client.connection.completed :=
    completed_of_writes (c := client.connection.opened) hwritten
  have hputs : client.connection.putInternal.putsToAck = client.connection.putsToAck :=
    putsToAck_of_writes (c := client.connection.opened) hwritten
  have hcounter : client.connection.putInternal.putCounter = client.connection.putCounter + 1 :=
    putCounter_of_writes (c := client.connection.opened) hwritten
  have hle := completed_le h
  have hput : persistent_connection.step client.connection .put =
    some client.connection.putInternal := rfl
  have hset : local_view.step client.repo (.set key rest data) =
    some (client.repo.set (treePath ++ key :: rest) data.1) := rfl
  have hwrites : (client.repo.set (treePath ++ key :: rest) data.1).pendingWriteTree.allWrites =
      client.repo.pendingWriteTree.allWrites ++
        [{ writeId := client.repo.writeIdCounter
           path := treePath ++ key :: rest
           overwrite := data.1 }] := by
    rw [FRepo.set, sync_tree]
    rfl
  have hids : (client.repo.set (treePath ++ key :: rest) data.1).writeIdCounter =
      client.repo.writeIdCounter + 1 := by
    rw [FRepo.set, sync_counter]
  have hsettling := h.settling
  refine ⟨?_, ?_, ?_, ?_, ?_⟩
  · have hin : InOrder client.connection .put := trivial
    exact answersInTurn_step h.turn hfine.1 hin hput
  · change Settling (client.repo.set (treePath ++ key :: rest) data.1) _ node
      client.connection.putInternal.completed.length
    rw [hcompleted]
    have hturn : InTurn client.repo (.set key rest data) := trivial
    refine ⟨current_step hsettling.current hsettling.clear hclear hturn hset,
      receives_step hsettling.current.sound hsettling.receives hset, hclear, ?_, ?_, ?_⟩
    · rw [hids, List.length_append, hsettling.length]
      rfl
    · rw [hwrites, hids, List.map_append, hsettling.ids, List.range_succ,
        List.drop_append_of_le_length (by simpa using hle)]
      rfl
    · rw [hwrites, writesOf, List.map_append,
        List.drop_append_of_le_length (by rw [hsettling.length]; exact hle)]
      rw [← hsettling.pending]
      rfl
  · change client.connection.putInternal.putCounter =
      (client.repo.set (treePath ++ key :: rest) data.1).writeIdCounter + 1
    rw [hcounter, hids, h.counters]
  · change client.blocks ++ [(client.connection.putCounter, client.repo.writeIdCounter)] =
      (List.range (client.repo.set (treePath ++ key :: rest) data.1).writeIdCounter).map
        fun i => (i + 1, i)
    rw [hids, List.range_succ, List.map_append, ← h.blocks, h.counters]
    rfl
  · change ∀ put ∈ client.connection.putInternal.putsToAck, put.2 ≠ kFErrorWriteCanceled
    rw [hputs]
    exact h.taken

/-- What the server sends is no answer. -/
theorem following_sent {repo' : FRepo} {e : RepoEvent} (h : Following client made node)
    (hclear : Clear repo') (hturn : InTurn client.repo e)
    (hs : local_view.step client.repo e = some repo')
    (hwrites : repo'.pendingWriteTree = client.repo.pendingWriteTree)
    (hcounter : repo'.writeIdCounter = client.repo.writeIdCounter) :
    Following { client with repo := repo' } made (received node e) := by
  have hsettling := h.settling
  refine ⟨h.turn, ?_, ?_, ?_, h.taken⟩
  · refine ⟨current_step hsettling.current hsettling.clear hclear hturn hs,
      receives_step hsettling.current.sound hsettling.receives hs, hclear, ?_, ?_, ?_⟩
    · rw [hcounter]
      exact hsettling.length
    · rw [hwrites, hcounter]
      exact hsettling.ids
    · rw [hwrites]
      exact hsettling.pending
  · simp only [hcounter]
    exact h.counters
  · simp only [hcounter]
    exact h.blocks

/-- The answers that the connection hands out are those of the next writes. -/
theorem given_eq {c : FPersistentConnection} {completed given : List (Nat × String)}
    (ho : Ordered c) (hgiven : c.completed = completed ++ given) :
    given.map Prod.fst = List.range' (completed.length + 1) given.length ∧
      completed.length + given.length ≤ c.putCounter - 1 := by
  have horder := ho.order
  rw [hgiven, List.map_append, List.map_append, List.append_assoc, List.append_assoc] at horder
  obtain ⟨k, hk, hfirst, hrest⟩ := List.range'_eq_append_iff.mp horder.symm
  obtain ⟨m, hm, hgiven, _⟩ := List.range'_eq_append_iff.mp hrest.symm
  have hklength := congrArg List.length hfirst
  have hmlength := congrArg List.length hgiven
  simp only [List.length_map, List.length_range'] at hklength hmlength
  subst hklength hmlength
  refine ⟨?_, by omega⟩
  rw [hgiven]
  congr 1
  omega

/-- Every answer finds its write among the pending ones, as the oldest of them. -/
theorem following_network {e : ConnectionEvent} {c' : FPersistentConnection}
    (h : Following client made node) (hfine : Fine client)
    (hcond : FirstAnswered client (.network e)) (hput : e.isPut = false) (hpurge : e ≠ .purge)
    (hs : persistent_connection.step client.connection e = some c') :
    ∃ client', client.network e = some client' ∧ Following client' made node := by
  obtain ⟨given, hcompleted, hanswers⟩ := answers_step h.turn.consistent hs hpurge
  have hturn := answersInTurn_step h.turn hfine.1 hcond.1 hs
  obtain ⟨hgiven, hle⟩ := given_eq hturn.ordered hcompleted
  have hcounter := putCounter_step h.turn.consistent hs
  rw [hput, h.counters] at hcounter
  simp only [Bool.false_eq_true, if_false, Nat.add_zero] at hcounter
  have hstatus : ∀ put ∈ given ++ c'.putsToAck, put.2 ≠ kFErrorWriteCanceled := by
    intro put hmem
    rcases hanswers put hmem with hold | ⟨rn, rfl⟩
    · exact h.taken put hold
    · exact fun hcanceled => hcond.2 (congrArg some hcanceled)
  have hblocks : ∀ i < client.repo.writeIdCounter, getKey (i + 1) client.blocks = some i := by
    intro i hi
    rw [h.blocks]
    exact getKey_blocks _ hi
  obtain ⟨repo', hrun, hcounter', hsettling⟩ := settling_runBlocks h.settling hblocks hgiven
    (by omega) fun put hmem => hstatus put (List.mem_append_left _ hmem)
  refine ⟨{ client with repo := repo', connection := c' }, ?_, hturn, ?_, ?_, ?_, ?_⟩
  · simp [FClient.network, hs, hcompleted, hrun]
  · simp only [hcompleted, List.length_append]
    exact hsettling
  · simp only [hcounter']
    exact hcounter
  · simp only [hcounter']
    exact h.blocks
  · exact fun put hmem => hstatus put (List.mem_append_right _ hmem)

theorem following_step {e : ClientEvent} (h : Following client made node) (hfine : Fine client)
    (hfine' : Fine client') (hcond : FirstAnswered client e) (hs : step client e = some client') :
    Following client' (made ++ written e) (sent node e) := by
  cases e with
  | set key rest data =>
    cases hs
    exact following_set h hfine key rest data hfine'.2
  | network e =>
    rw [written, List.append_nil, sent]
    have hnetwork : client.network e = some client' ∧ e.isPut = false ∧ e ≠ .purge := by
      cases e <;> first | cases hs | exact ⟨hs, rfl, by simp⟩
    obtain ⟨hnet, hput, hpurge⟩ := hnetwork
    obtain ⟨c', hc, _⟩ := Option.bind_eq_some_iff.mp hnet
    obtain ⟨client1, hclient, hfollowing⟩ := following_network h hfine hcond hput hpurge hc
    rw [hclient] at hnet
    cases hnet
    exact hfollowing
  | dataUpdate path data =>
    rw [written, List.append_nil]
    obtain ⟨repo', hs', rfl⟩ := Option.map_eq_some_iff.mp hs
    have hkept : repo'.pendingWriteTree = client.repo.pendingWriteTree ∧
        repo'.writeIdCounter = client.repo.writeIdCounter := by
      unfold FRepo.applyServerOverwriteAtPath at hs'
      split at hs'
      · cases hs'
        exact ⟨rfl, rfl⟩
      · cases hs'
      · cases hs'
        exact ⟨sync_tree _ _, sync_counter _ _⟩
    have hturn : InTurn client.repo (.dataUpdate path data) := trivial
    exact following_sent h hfine'.2 hturn hs' hkept.1 hkept.2
  | listenComplete =>
    rw [written, List.append_nil]
    cases hs
    have hkept : client.repo.applyListenCompleteAtPath.pendingWriteTree =
          client.repo.pendingWriteTree ∧
        client.repo.applyListenCompleteAtPath.writeIdCounter = client.repo.writeIdCounter := by
      unfold FRepo.applyListenCompleteAtPath
      split
      · exact ⟨rfl, rfl⟩
      · exact ⟨sync_tree _ _, sync_counter _ _⟩
    have hturn : InTurn client.repo .listenComplete := trivial
    exact following_sent h hfine'.2 hturn rfl hkept.1 hkept.2

theorem following_run {events : List ClientEvent} {past : List (FClient × ClientEvent)}
    (h : Following client made node)
    (hcond : Meets step (fun _ => FirstAnswered) past client events)
    (hfine : Throughout step Fine client events) (hrun : run step client events = some client') :
    Following client' (made ++ events.flatMap written) (events.foldl sent node) := by
  induction events generalizing client made node past with
  | nil =>
    cases hrun
    simpa using h
  | cons e rest ih =>
    rw [run_cons] at hrun
    obtain ⟨client1, hs, hrest⟩ := Option.bind_eq_some_iff.mp hrun
    rw [throughout_cons hs] at hfine
    unfold Meets at hcond
    rw [hs] at hcond
    have hfine1 : Fine client1 := hfine.2 [] rest client1 rfl rfl
    have hstep := following_step h hfine.1 hfine1 hcond.1 hs
    have hall := ih hstep hcond.2 hfine.2 hrest
    rw [List.append_assoc] at hall
    exact hall

/-- In the same runs an answer that the connection takes is never refused: its
write is pending. -/
theorem every_answer_finds_its_save {events : List ClientEvent}
    (hcond : Meets step (fun _ => FirstAnswered) [] .init events)
    (hfine : Throughout step Fine .init events) (hrun : run step .init events = some client)
    {rn : Nat} {status : String} (hfirst : FirstAnswered client (.network (.response rn status)))
    (hup : client.connection.hasRealtime = true) :
    ∃ client', step client (.network (.response rn status)) = some client' := by
  have hfollowing := following_run following_init hcond hfine hrun
  have hs : persistent_connection.step client.connection (.response rn status) =
      some (client.connection.onResponse rn status) := by
    rw [persistent_connection.step, if_pos hup]
  have hpurge : ConnectionEvent.response rn status ≠ .purge := by simp
  obtain ⟨client', hclient, _⟩ :=
    following_network hfollowing (hfine.last hrun) hfirst rfl hpurge hs
  exact ⟨client', hclient⟩

/-- Two records are saved while the connection is down. It comes up, the list is
sent with the first record in it, and the first save is answered. -/
def answeredFirst : List ClientEvent :=
  [.set "1" [] (textAt ["title"] "Dune"), .set "2" [] (textAt ["title"] "Ubik"),
    .network (.resume kFInterruptReasonWaitingForOpen), .network .retry,
    .network (.fetchedToken 1 (some none)), .network .ready,
    .dataUpdate [] (textAt ["1", "title"] "Dune"), .network (.response 1 "ok"),
    .network (.response 2 "ok")]

/-- The answer of the second save. -/
theorem the_second_answer_finds_its_save :
    ∃ client client', run step .init answeredFirst = some client ∧
      step client (.network (.response 3 "ok")) = some client' := by
  have hsome : (run step .init answeredFirst).isSome = true := by decide +kernel
  obtain ⟨client, hrun⟩ := Option.isSome_iff_exists.mp hsome
  have hcond : Meets step (fun _ => FirstAnswered) [] .init answeredFirst := by decide +kernel
  have hfine : Throughout step Fine .init answeredFirst := by decide +kernel
  have hstate : (run step .init answeredFirst).map
      (fun client => (client.connection.hasRealtime, client.connection.requestCBHash)) =
      some (true, [(3, .put 2)]) := by decide +kernel
  rw [hrun, Option.map_some, Option.some.injEq, Prod.mk.injEq] at hstate
  have hfirst : FirstAnswered client (.network (.response 3 "ok")) := by
    refine ⟨?_, by decide⟩
    intro entry hentry
    rw [hstate.2, List.mem_singleton] at hentry
    rw [hentry]
  obtain ⟨client', hs⟩ := every_answer_finds_its_save hcond hfine hrun hfirst hstate.1
  exact ⟨client, client', hrun, hs⟩

end

end xellissime_book.client_runs
