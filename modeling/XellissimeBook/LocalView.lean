-- What the client shows of the node `books` (Pods/FirebaseDatabase,
-- FViewProcessor.m, FSyncTree.m, FRepo.m). It keeps the node of the server and
-- the node that the app sees, and every write, answer and update of the server
-- changes the latter in place. A snapshot goes to the observer when it changed.
import XellissimeBook.AnsweredWrites
import XellissimeBook.ViewChanges

open path_tree runs
open xellissime_book.key_order
open xellissime_book.database xellissime_book.compound_writes
open xellissime_book.pending_writes
open xellissime_book.answered_writes (TreeKeeps treeKeeps_init)
open xellissime_book.view_changes

namespace xellissime_book.local_view

/-! ## The view -/

/-- `FViewCache`, both of whose nodes are complete, and not filtered. -/
structure FViewCache where
  cachedEventSnap : FNode
  cachedServerSnap : FNode

/-- The path of the view. -/
def treePath : List String := booksReference.path

/-- `calculateCompleteEventCacheWithCompleteServerCache:`. With a server cache
the answer is a node. -/
def completeEventCache (writesCache : FWriteTree) (completeServerCache : FNode) : FNode :=
  (writesCache.calculateCompleteEventCacheAtPath treePath (some completeServerCache)).getD .empty

/-- `generateEventCacheAfterServerEvent:path:writesCache:source:accumulator:`. -/
def generateEventCacheAfterServerEvent (writesCache : FWriteTree) (changePath : List String)
    (viewCache : FViewCache) : FViewCache × List FChange :=
  let oldEventSnap := viewCache.cachedEventSnap
  if (writesCache.shadowingWriteAtPath (treePath ++ changePath)).isSome then (viewCache, [])
  else
    let newEventCache :=
      match changePath with
      | [] =>
        updateFullNode oldEventSnap (completeEventCache writesCache viewCache.cachedServerSnap)
      | childKey :: childChangePath =>
        let newEventChild :=
          match writesCache.calculateEventCacheAfterServerOverwriteAtPath treePath
            (childKey :: childChangePath) viewCache.cachedServerSnap with
          | some eventChildUpdate =>
            updateChild childChangePath eventChildUpdate (oldEventSnap.child childKey)
          | none => oldEventSnap.child childKey
        updateChildIn oldEventSnap childKey newEventChild childChangePath
    ({ viewCache with cachedEventSnap := newEventCache.1 }, newEventCache.2)

/-- The server cache of `applyServerOverwriteTo:`. -/
def updateServerSnap (changePath : List String) (changedSnap oldServerSnap : FNode) : FNode :=
  match changePath with
  | [] => (updateFullNode oldServerSnap changedSnap).1
  | childKey :: childChangePath =>
    let newChildNode := updateChild childChangePath changedSnap (oldServerSnap.child childKey)
    (updateChildIn oldServerSnap childKey newChildNode childChangePath).1

/-- `applyServerOverwriteTo:changePath:snap:writesCache:completeCache:filterServerNode:accumulator:`. -/
def applyServerOverwriteTo (writesCache : FWriteTree) (changePath : List String)
    (changedSnap : FNode) (oldViewCache : FViewCache) : FViewCache × List FChange :=
  generateEventCacheAfterServerEvent writesCache changePath
    { oldViewCache with
      cachedServerSnap := updateServerSnap changePath changedSnap oldViewCache.cachedServerSnap }

/-- `applyUserOverwriteTo:changePath:changedSnap:writesCache:completeCache:accumulator:`. -/
def applyUserOverwriteTo (changePath : List String) (changedSnap : FNode)
    (oldViewCache : FViewCache) : FViewCache × List FChange :=
  let oldEventSnap := oldViewCache.cachedEventSnap
  match changePath with
  | [] =>
    let newEventCache := updateFullNode oldEventSnap changedSnap
    ({ oldViewCache with cachedEventSnap := newEventCache.1 }, newEventCache.2)
  | childKey :: childChangePath =>
    let oldChild := oldEventSnap.child childKey
    let newChild :=
      if childChangePath = [] then changedSnap
      else updateChild childChangePath changedSnap oldChild
    if PathTree.isEqual oldChild newChild then (oldViewCache, [])
    else
      let newEventSnap := updateChildIn oldEventSnap childKey newChild childChangePath
      ({ oldViewCache with cachedEventSnap := newEventSnap.1 }, newEventSnap.2)

/-- `ackUserWriteOn:ackPath:affectedTree:writesCache:completeCache:accumulator:`, of
an overwrite. -/
def ackUserWriteOn (writesCache : FWriteTree) (ackPath : List String) (viewCache : FViewCache) :
    FViewCache × List FChange :=
  if (writesCache.shadowingWriteAtPath (treePath ++ ackPath)).isSome then (viewCache, [])
  else
    applyServerOverwriteTo writesCache ackPath (getChild ackPath viewCache.cachedServerSnap)
      viewCache

/-- `revertUserWriteOn:path:writesCache:completeCache:accumulator:`. -/
def revertUserWriteOn (writesCache : FWriteTree) (path : List String) (viewCache : FViewCache) :
    FViewCache × List FChange :=
  if (writesCache.shadowingWriteAtPath (treePath ++ path)).isSome then (viewCache, [])
  else
    let oldEventCache := viewCache.cachedEventSnap
    let complete := completeEventCache writesCache viewCache.cachedServerSnap
    let newEventCache :=
      match path with
      | [] => updateFullNode oldEventCache complete
      | childKey :: rest =>
        let newChild :=
          writesCache.calculateCompleteChildAtPath treePath childKey viewCache.cachedServerSnap
        let updated := updateChildIn oldEventCache childKey newChild rest
        -- all writes below may be gone, and the old event a leaf
        if updated.1.isEmpty ∧ isLeafNode complete then
          let full := updateFullNode updated.1 complete
          (full.1, updated.2 ++ full.2)
        else updated
    ({ viewCache with cachedEventSnap := newEventCache.1 }, newEventCache.2)

/-- The operations on a view, with their paths below it. -/
inductive FOperation where
  | userOverwrite (path : List String) (snap : FNode)
  | serverOverwrite (path : List String) (snap : FNode)
  | ackUserWrite (path : List String) (revert : Bool)
  | listenComplete (path : List String)

/-- The branches of `applyOperationOn:`. -/
def operate (writesCache : FWriteTree) (viewCache : FViewCache) :
    FOperation → FViewCache × List FChange
  | .userOverwrite path snap => applyUserOverwriteTo path snap viewCache
  | .serverOverwrite path snap => applyServerOverwriteTo writesCache path snap viewCache
  | .ackUserWrite path revert =>
    if revert then revertUserWriteOn writesCache path viewCache
    else ackUserWriteOn writesCache path viewCache
  | .listenComplete path => generateEventCacheAfterServerEvent writesCache path viewCache

/-- `applyOperationOn:operation:writesCache:completeCache:`. -/
def applyOperationOn (writesCache : FWriteTree) (oldViewCache : FViewCache)
    (operation : FOperation) : FViewCache × List FChange :=
  let result := operate writesCache oldViewCache operation
  (result.1,
    maybeAddValue oldViewCache.cachedEventSnap result.1.cachedEventSnap result.2)

/-! ## The client -/

/-- A node as the client makes it: no key twice, no empty child. -/
abbrev TidyNode := { node : FNode // node.Tidy }

/-- `FRepo` with its sync tree, which has one view. -/
structure FRepo where
  writeIdCounter : Nat
  pendingWriteTree : FWriteTree
  /-- The view at `books`, once its server cache is complete. Before that no
  value event is raised. -/
  view : Option FViewCache
  /-- The snapshots that the observer of `books` got, oldest first. -/
  shown : List FNode

namespace FRepo

def init : FRepo := { writeIdCounter := 0, pendingWriteTree := .init, view := none, shown := [] }

/-- `applyOperationToSyncPoints:`, and what it raises. -/
def applyOperationToSyncPoints (operation : FOperation) (repo : FRepo) : FRepo :=
  match repo.view with
  | none => repo
  | some view =>
    let result := applyOperationOn repo.pendingWriteTree view operation
    { repo with view := some result.1, shown := repo.shown ++ valueEvents result.2 }

/-- `set:withNode:withCallback:`, with `applyUserOverwriteAtPath:newData:writeId:isVisible:`. -/
def set (path : List String) (node : FNode) (repo : FRepo) : FRepo :=
  let writeId := repo.writeIdCounter
  let repo :=
    { repo with
      writeIdCounter := writeId + 1
      pendingWriteTree := repo.pendingWriteTree.addOverwrite path node writeId }
  repo.applyOperationToSyncPoints (.userOverwrite (relativePathFrom treePath path) node)

/-- `ackUserWriteWithWriteId:revert:persist:clock:`. -/
def ackUserWriteWithWriteId (writeId : Nat) (revert : Bool) (repo : FRepo) : Option FRepo :=
  match repo.pendingWriteTree.allWrites.find? (·.writeId = writeId),
    repo.pendingWriteTree.removeWriteId writeId with
  | some write, some (needToReevaluate, pendingWriteTree) =>
    let repo := { repo with pendingWriteTree }
    if needToReevaluate then
      some (repo.applyOperationToSyncPoints
        (.ackUserWrite (relativePathFrom treePath write.path) revert))
    else some repo
  | _, _ => none

/-- The first complete server cache: the view comes up, with its first value event. -/
def firstServerCache (node : FNode) (repo : FRepo) : FRepo :=
  let event := completeEventCache repo.pendingWriteTree node
  { repo with
    view := some { cachedEventSnap := event, cachedServerSnap := node }
    shown := repo.shown ++ [event] }

/-- `applyServerOverwriteAtPath:newData:`. The server sends a node that is
listened to before anything below it. -/
def applyServerOverwriteAtPath (path : List String) (newData : FNode) (repo : FRepo) :
    Option FRepo :=
  match repo.view, path with
  | none, [] => some (repo.firstServerCache newData)
  | none, _ :: _ => none
  | some _, path => some (repo.applyOperationToSyncPoints (.serverOverwrite path newData))

/-- `applyListenCompleteAtPath:`, of the one listen. -/
def applyListenCompleteAtPath (repo : FRepo) : FRepo :=
  match repo.view with
  | none => repo.firstServerCache .empty
  | some _ => repo.applyOperationToSyncPoints (.listenComplete [])

end FRepo

inductive RepoEvent where
  /-- The app writes below `books`, at a record or deeper. -/
  | set (key : String) (rest : List String) (node : TidyNode)
  /-- The server answers a write. -/
  | ack (writeId : Nat) (success : Bool)
  /-- The server sends the node at a path below `books`. -/
  | dataUpdate (path : List String) (data : TidyNode)
  | listenComplete

def step (repo : FRepo) : RepoEvent → Option FRepo
  | .set key rest node => some (repo.set (treePath ++ key :: rest) node.1)
  | .ack writeId success => repo.ackUserWriteWithWriteId writeId (!success)
  | .dataUpdate path data => repo.applyServerOverwriteAtPath path data.1
  | .listenComplete => some repo.applyListenCompleteAtPath

/-! ## What an operation keeps -/

/-- Both nodes of the view have the property. -/
structure FViewCache.Keeps (P : FNode → Prop) (view : FViewCache) : Prop where
  event : P view.cachedEventSnap
  server : P view.cachedServerSnap

abbrev FViewCache.Tidy (view : FViewCache) : Prop := view.Keeps PathTree.Tidy

/-- The path of an operation. -/
def FOperation.path : FOperation → List String
  | .userOverwrite path _ => path
  | .serverOverwrite path _ => path
  | .ackUserWrite path _ => path
  | .listenComplete path => path

/-- The node that comes with an operation has the property. -/
def FOperation.Carries (P : FNode → Prop) : FOperation → Prop
  | .userOverwrite _ snap => P snap
  | .serverOverwrite _ snap => P snap
  | .ackUserWrite _ _ => True
  | .listenComplete _ => True

section
variable {Fine : String → Prop} {P : FNode → Prop} (hkept : PathTree.Kept Fine P)
include hkept

theorem kept_updateServerSnap {changedSnap oldServerSnap : FNode} (hn : P changedSnap)
    (hs : P oldServerSnap) (changePath : List String) (hpath : ∀ k ∈ changePath, Fine k) :
    P (updateServerSnap changePath changedSnap oldServerSnap) := by
  cases changePath with
  | nil => exact hn
  | cons childKey childChangePath =>
    rw [List.forall_mem_cons] at hpath
    have hnew := hkept.set hpath.2 hn (hkept.child hs childKey)
    exact kept_updateChildIn hkept hs hnew hpath.1 _

theorem keeps_userOverwrite {view : FViewCache} (hv : view.Keeps P) {snap : FNode}
    (hn : P snap) {path : List String} (hpath : ∀ k ∈ path, Fine k) :
    (applyUserOverwriteTo path snap view).1.Keeps P := by
  cases path with
  | nil => exact ⟨hn, hv.server⟩
  | cons childKey childChangePath =>
    rw [List.forall_mem_cons] at hpath
    simp only [applyUserOverwriteTo]
    generalize hchild : (if childChangePath = [] then snap
      else updateChild childChangePath snap (view.cachedEventSnap.child childKey)) = newChild
    have hnew : P newChild := by
      rw [← hchild]
      split
      · exact hn
      · exact hkept.set hpath.2 hn (hkept.child hv.event childKey)
    split
    · exact hv
    · exact ⟨kept_updateChildIn hkept hv.event hnew hpath.1 _, hv.server⟩

variable {writesCache : FWriteTree} {view : FViewCache}
  (hw : writesCache.visibleWrites.WritesKeep Fine P)
include hw

theorem kept_completeEventCache {node : FNode} (hn : P node) :
    P (completeEventCache writesCache node) := by
  unfold completeEventCache
  cases hnode : writesCache.calculateCompleteEventCacheAtPath treePath (some node) with
  | none => exact hkept.empty
  | some event => exact FWriteTree.kept_calculateCompleteEventCacheAtPath hkept hw hn hnode

theorem keeps_generate (hv : view.Keeps P) {changePath : List String}
    (hpath : ∀ k ∈ changePath, Fine k) :
    (generateEventCacheAfterServerEvent writesCache changePath view).1.Keeps P := by
  simp only [generateEventCacheAfterServerEvent]
  split
  · exact hv
  · cases changePath with
    | nil => exact ⟨kept_completeEventCache hkept hw hv.server, hv.server⟩
    | cons childKey childChangePath =>
      rw [List.forall_mem_cons] at hpath
      have hold := hkept.child hv.event childKey
      simp only
      split
      · rename_i eventChildUpdate hupdate
        have hnew := FWriteTree.kept_calculateEventCacheAfterServerOverwrite hkept hw hv.server
          hupdate
        exact ⟨kept_updateChildIn hkept hv.event (hkept.set hpath.2 hnew hold) hpath.1 _,
          hv.server⟩
      · exact ⟨kept_updateChildIn hkept hv.event hold hpath.1 _, hv.server⟩

theorem keeps_serverOverwrite (hv : view.Keeps P) {snap : FNode} (hn : P snap)
    {path : List String} (hpath : ∀ k ∈ path, Fine k) :
    (applyServerOverwriteTo writesCache path snap view).1.Keeps P := by
  have hserver := kept_updateServerSnap hkept hn hv.server path hpath
  have hview : FViewCache.Keeps P
      { view with cachedServerSnap := updateServerSnap path snap view.cachedServerSnap } :=
    ⟨hv.event, hserver⟩
  exact keeps_generate hkept hw hview hpath

theorem keeps_ackUserWrite (hv : view.Keeps P) {path : List String}
    (hpath : ∀ k ∈ path, Fine k) : (ackUserWriteOn writesCache path view).1.Keeps P := by
  simp only [ackUserWriteOn]
  split
  · exact hv
  · exact keeps_serverOverwrite hkept hw hv (hkept.get path hv.server) hpath

theorem keeps_revertUserWrite (hv : view.Keeps P) {path : List String}
    (hpath : ∀ k ∈ path, Fine k) : (revertUserWriteOn writesCache path view).1.Keeps P := by
  simp only [revertUserWriteOn]
  have hcomplete := kept_completeEventCache hkept hw hv.server
  split
  · exact hv
  · cases path with
    | nil => exact ⟨hcomplete, hv.server⟩
    | cons childKey rest =>
      simp only
      have hchild := FWriteTree.kept_calculateCompleteChildAtPath hkept hw hv.server treePath
        childKey
      split
      · exact ⟨hcomplete, hv.server⟩
      · exact ⟨kept_updateChildIn hkept hv.event hchild (hpath _ List.mem_cons_self) _,
          hv.server⟩

theorem keeps_operate (hv : view.Keeps P) {operation : FOperation} (hn : operation.Carries P)
    (hpath : ∀ k ∈ operation.path, Fine k) : (operate writesCache view operation).1.Keeps P := by
  cases operation with
  | userOverwrite path snap => exact keeps_userOverwrite hkept hv hn hpath
  | serverOverwrite path snap => exact keeps_serverOverwrite hkept hw hv hn hpath
  | ackUserWrite path revert =>
    cases revert
    · exact keeps_ackUserWrite hkept hw hv hpath
    · exact keeps_revertUserWrite hkept hw hv hpath
  | listenComplete path => exact keeps_generate hkept hw hv hpath

end

/-! ## What an operation reports -/

section
variable {writesCache : FWriteTree} {view : FViewCache}

/-- The changes are the difference that the operation made for the app. -/
def Reports (view : FViewCache) (result : FViewCache × List FChange) : Prop :=
  Difference view.cachedEventSnap result.1.cachedEventSnap result.2

theorem reports_unchanged (hv : view.Tidy) : Reports view (view, []) :=
  difference_refl hv.event

theorem reports_generate (hw : writesCache.visibleWrites.TidyWrites) (hv : view.Tidy)
    (changePath : List String) :
    Reports view (generateEventCacheAfterServerEvent writesCache changePath view) := by
  simp only [generateEventCacheAfterServerEvent]
  split
  · exact reports_unchanged hv
  · cases changePath with
    | nil =>
      exact difference_updateFullNode hv.event
        (kept_completeEventCache PathTree.kept_tidy hw hv.server)
    | cons childKey childChangePath =>
      have hold := hv.event.child childKey
      simp only
      split
      · rename_i eventChildUpdate hupdate
        have hnew := FWriteTree.kept_calculateEventCacheAfterServerOverwrite PathTree.kept_tidy hw
          hv.server hupdate
        exact difference_updateChildIn hv.event (hnew.set hold childChangePath) _ _
      · exact difference_updateChildIn hv.event hold _ _

theorem reports_serverOverwrite (hw : writesCache.visibleWrites.TidyWrites) (hv : view.Tidy)
    {snap : FNode} (hn : snap.Tidy) (path : List String) :
    Reports view (applyServerOverwriteTo writesCache path snap view) := by
  have hserver := kept_updateServerSnap PathTree.kept_tidy hn hv.server path fun _ _ => trivial
  have hview : FViewCache.Tidy
      { view with cachedServerSnap := updateServerSnap path snap view.cachedServerSnap } :=
    ⟨hv.event, hserver⟩
  exact reports_generate hw hview path

theorem reports_userOverwrite (hv : view.Tidy) {snap : FNode} (hn : snap.Tidy)
    (path : List String) : Reports view (applyUserOverwriteTo path snap view) := by
  cases path with
  | nil => exact difference_updateFullNode hv.event hn
  | cons childKey childChangePath =>
    simp only [applyUserOverwriteTo]
    generalize hchild : (if childChangePath = [] then snap
      else updateChild childChangePath snap (view.cachedEventSnap.child childKey)) = newChild
    have hnew : newChild.Tidy := by
      rw [← hchild]
      split
      · exact hn
      · exact hn.set (hv.event.child childKey) childChangePath
    split
    · exact reports_unchanged hv
    · exact difference_updateChildIn hv.event hnew _ _

theorem reports_ackUserWrite (hw : writesCache.visibleWrites.TidyWrites) (hv : view.Tidy)
    (path : List String) : Reports view (ackUserWriteOn writesCache path view) := by
  simp only [ackUserWriteOn]
  split
  · exact reports_unchanged hv
  · exact reports_serverOverwrite hw hv (hv.server.get path) path

theorem reports_revertUserWrite (hw : writesCache.visibleWrites.TidyWrites) (hv : view.Tidy)
    (path : List String) : Reports view (revertUserWriteOn writesCache path view) := by
  simp only [revertUserWriteOn]
  have hcomplete := kept_completeEventCache PathTree.kept_tidy hw hv.server
  split
  · exact reports_unchanged hv
  · cases path with
    | nil => exact difference_updateFullNode hv.event hcomplete
    | cons childKey rest =>
      simp only
      have hchild := FWriteTree.kept_calculateCompleteChildAtPath PathTree.kept_tidy hw hv.server
        treePath childKey
      have hdifference := difference_updateChildIn hv.event hchild childKey rest
      generalize updateChildIn view.cachedEventSnap childKey
        (writesCache.calculateCompleteChildAtPath treePath childKey view.cachedServerSnap)
        rest = updated at hdifference ⊢
      generalize completeEventCache writesCache view.cachedServerSnap = complete
      split
      · -- the empty node and the leaf have the same children: none
        rename_i hleaf
        obtain ⟨hempty, hleaf⟩ := hleaf
        rw [PathTree.isEmpty_iff] at hempty
        cases complete with
        | branch cs => cases hleaf
        | leaf v =>
          have hnone : (updateFullNode updated.1 (.leaf v)).2 = [] := by
            rw [hempty]
            rfl
          unfold Reports
          rw [hnone, List.append_nil]
          apply hdifference.congr
          intro k
          rw [hempty]
          rfl
      · exact hdifference

theorem reports_operate (hw : writesCache.visibleWrites.TidyWrites) (hv : view.Tidy)
    {operation : FOperation} (hn : operation.Carries PathTree.Tidy) :
    Reports view (operate writesCache view operation) := by
  cases operation with
  | userOverwrite path snap => exact reports_userOverwrite hv hn path
  | serverOverwrite path snap => exact reports_serverOverwrite hw hv hn path
  | ackUserWrite path revert =>
    cases revert
    · exact reports_ackUserWrite hw hv path
    · exact reports_revertUserWrite hw hv path
  | listenComplete path => exact reports_generate hw hv path

end

/-! ## What the observer is shown -/

/-- A snapshot that is shown after another one differs from it. -/
def Differs (before : List FNode) (snapshot : FNode) : Prop :=
  ∀ last, before.getLast? = some last → ¬ PathTree.SameLeaves last snapshot

/-- All nodes have the property, the last snapshot shown is up to date, and each
snapshot was news. -/
structure SoundFor (Fine : String → Prop) (P : FNode → Prop) (repo : FRepo) : Prop where
  tree : TreeKeeps Fine P repo.pendingWriteTree
  view : ∀ view, repo.view = some view → view.Keeps P
  shown : ∀ snapshot ∈ repo.shown, P snapshot
  unseen : repo.view = none → repo.shown = []
  last : ∀ view, repo.view = some view → ∃ snapshot, repo.shown.getLast? = some snapshot ∧
    PathTree.SameLeaves snapshot view.cachedEventSnap
  differs : EachAfter Differs repo.shown

abbrev Sound (repo : FRepo) : Prop := SoundFor (fun _ => True) PathTree.Tidy repo

/-- What an event brings in has the property. -/
def Brings (Fine : String → Prop) (P : FNode → Prop) : RepoEvent → Prop
  | .set key rest node => (∀ k ∈ treePath ++ key :: rest, Fine k) ∧ P node.1
  | .ack _ _ => True
  | .dataUpdate path data => (∀ k ∈ path, Fine k) ∧ P data.1
  | .listenComplete => True

section
variable {Fine : String → Prop} {P : FNode → Prop} {repo repo' : FRepo}

theorem soundFor_init : SoundFor Fine P .init where
  tree := treeKeeps_init
  view := fun _ hview => by cases hview
  shown := fun _ hsnapshot => by cases hsnapshot
  unseen := fun _ => rfl
  last := fun _ hview => by cases hview
  differs := eachAfter_nil _

variable (hkept : PathTree.Kept Fine P) (htidy : ∀ t, P t → t.Tidy)
include hkept htidy

theorem soundFor_sync (h : SoundFor Fine P repo) {operation : FOperation}
    (hn : operation.Carries P) (hpath : ∀ k ∈ operation.path, Fine k) :
    SoundFor Fine P (repo.applyOperationToSyncPoints operation) := by
  unfold FRepo.applyOperationToSyncPoints
  cases hview : repo.view with
  | none => exact h
  | some view =>
    have hv := h.view view hview
    have hv' := keeps_operate hkept h.tree.visible hv hn hpath
    have hwrites : repo.pendingWriteTree.visibleWrites.TidyWrites :=
      fun p v hp => ⟨fun _ _ => trivial, htidy v (h.tree.visible p v hp).2⟩
    have hcarries : operation.Carries PathTree.Tidy := by
      cases operation with
      | userOverwrite path snap => exact htidy snap hn
      | serverOverwrite path snap => exact htidy snap hn
      | ackUserWrite path revert => trivial
      | listenComplete path => trivial
    have hreports := reports_operate hwrites ⟨htidy _ hv.event, htidy _ hv.server⟩ hcarries
    obtain ⟨snapshot, hlast, hsame⟩ := h.last view hview
    have hevents := valueEvents_maybeAddValue (htidy _ hv.event) (htidy _ hv'.event) hreports
    have hequal := PathTree.isEqual_iff (htidy _ hv.event) (htidy _ hv'.event)
    simp only [applyOperationOn, hevents]
    split
    · rename_i hunchanged
      rw [List.append_nil]
      refine ⟨h.tree, ?_, h.shown, (by intro hnone; cases hnone), ?_, h.differs⟩
      · intro view' hview'
        cases hview'
        exact hv'
      · intro view' hview'
        cases hview'
        exact ⟨snapshot, hlast, hsame.trans (hequal.mp hunchanged)⟩
    · rename_i hchanged
      refine ⟨h.tree, ?_, ?_, (by intro hnone; cases hnone), ?_, ?_⟩
      · intro view' hview'
        cases hview'
        exact hv'
      · intro snapshot' hsnapshot'
        rcases List.mem_append.mp hsnapshot' with hold | hnew
        · exact h.shown snapshot' hold
        · cases List.mem_singleton.mp hnew
          exact hv'.event
      · intro view' hview'
        cases hview'
        exact ⟨_, by simp, PathTree.sameLeaves_refl _⟩
      · rw [eachAfter_snoc]
        refine ⟨h.differs, fun last hlast' => ?_⟩
        rw [hlast] at hlast'
        cases hlast'
        exact fun hnew => hchanged (hequal.mpr (hsame.symm.trans hnew))

omit htidy in
theorem soundFor_firstServerCache (h : SoundFor Fine P repo) (hview : repo.view = none)
    {node : FNode} (hn : P node) : SoundFor Fine P (repo.firstServerCache node) := by
  have hshown := h.unseen hview
  have hevent := kept_completeEventCache hkept h.tree.visible hn
  unfold FRepo.firstServerCache
  rw [hshown]
  refine ⟨h.tree, ?_, ?_, (by intro hnone; cases hnone), ?_, ?_⟩
  · intro view' hview'
    cases hview'
    exact ⟨hevent, hn⟩
  · intro snapshot hsnapshot
    cases List.mem_singleton.mp hsnapshot
    exact hevent
  · intro view' hview'
    cases hview'
    exact ⟨_, rfl, PathTree.sameLeaves_refl _⟩
  · rw [eachAfter_snoc]
    refine ⟨eachAfter_nil _, fun last hlast => ?_⟩
    cases hlast

theorem soundFor_step {e : RepoEvent} (h : SoundFor Fine P repo) (he : Brings Fine P e)
    (hs : step repo e = some repo') : SoundFor Fine P repo' := by
  cases e with
  | set key rest node =>
    cases hs
    obtain ⟨hpath, hnode⟩ := he
    have hrelative : relativePathFrom treePath (treePath ++ key :: rest) = key :: rest :=
      relativePathFrom_append _ _
    have hsound : SoundFor Fine P { repo with
        writeIdCounter := repo.writeIdCounter + 1
        pendingWriteTree := repo.pendingWriteTree.addOverwrite (treePath ++ key :: rest) node.1
          repo.writeIdCounter } :=
      ⟨h.tree.addOverwrite hkept hpath hnode _, h.view, h.shown, h.unseen, h.last, h.differs⟩
    unfold FRepo.set
    rw [hrelative]
    exact soundFor_sync hkept htidy hsound hnode fun k hk =>
      hpath k (List.mem_append_right treePath hk)
  | ack writeId success =>
    simp only [step, FRepo.ackUserWriteWithWriteId] at hs
    split at hs
    · rename_i write needToReevaluate tree hfind hremove
      have hsound : SoundFor Fine P { repo with pendingWriteTree := tree } :=
        ⟨h.tree.removeWriteId hkept hremove, h.view, h.shown, h.unseen, h.last, h.differs⟩
      have hpath : ∀ k ∈ relativePathFrom treePath write.path, Fine k := fun k hk =>
        h.tree.paths write (List.mem_of_find?_eq_some hfind) k (List.mem_of_mem_drop hk)
      split at hs
      · cases hs
        exact soundFor_sync hkept htidy hsound trivial hpath
      · cases hs
        exact hsound
    · cases hs
  | dataUpdate path data =>
    simp only [step, FRepo.applyServerOverwriteAtPath] at hs
    split at hs
    · rename_i hview
      cases hs
      exact soundFor_firstServerCache hkept h hview he.2
    · cases hs
    · cases hs
      exact soundFor_sync hkept htidy h he.2 he.1
  | listenComplete =>
    cases hs
    unfold FRepo.applyListenCompleteAtPath
    split
    · rename_i hview
      exact soundFor_firstServerCache hkept h hview hkept.empty
    · exact soundFor_sync hkept htidy h trivial fun k hk => by cases hk

end

/-- The nodes of the events are tidy. -/
theorem brings_tidy (e : RepoEvent) : Brings (fun _ => True) PathTree.Tidy e := by
  cases e with
  | set key rest node => exact ⟨fun _ _ => trivial, node.2⟩
  | ack writeId success => trivial
  | dataUpdate path data => exact ⟨fun _ _ => trivial, data.2⟩
  | listenComplete => trivial

theorem sound_step {repo repo' : FRepo} {e : RepoEvent} (h : Sound repo)
    (hs : step repo e = some repo') : Sound repo' :=
  soundFor_step PathTree.kept_tidy (fun _ ht => ht) h (brings_tidy e) hs

/-! ## Plain names -/

/-- The node of the client has plain names only. -/
def PlainNode (node : FNode) : Prop := node.Tidy ∧ PathTree.Named PlainAscii node

/-- Every name that the event brings in is plain ASCII. -/
def PlainEvent (e : RepoEvent) : Prop := Brings PlainAscii (PathTree.Named PlainAscii) e

theorem plainRepo_step {repo repo' : FRepo} {e : RepoEvent}
    (h : SoundFor PlainAscii PlainNode repo) (he : PlainEvent e)
    (hs : step repo e = some repo') : SoundFor PlainAscii PlainNode repo' := by
  have hkept : PathTree.Kept PlainAscii PlainNode := PathTree.kept_tidy.and PathTree.kept_named
  have hbrings : Brings PlainAscii PlainNode e := by
    cases e with
    | set key rest node => exact ⟨he.1, node.2, he.2⟩
    | ack writeId success => trivial
    | dataUpdate path data => exact ⟨he.1, data.2, he.2⟩
    | listenComplete => trivial
  exact soundFor_step hkept (fun _ ht => ht.1) h hbrings hs

theorem plainRepo_run {events : List RepoEvent} {repo : FRepo}
    (hplain : ∀ e ∈ events, PlainEvent e) (hrun : run step .init events = some repo) :
    SoundFor PlainAscii PlainNode repo :=
  invariant_of_events (SoundFor PlainAscii PlainNode)
    (fun _ _ _ h he hs => plainRepo_step h he hs) soundFor_init hplain hrun

/-- In every run the last snapshot that the observer got is the node of the
view, no snapshot repeats the one before it, and no name comes up that the client
could take for another one. -/
theorem every_change_is_shown_once {events : List RepoEvent} {repo : FRepo}
    (hplain : ∀ e ∈ events, PlainEvent e) (hrun : run step .init events = some repo) :
    (∀ view, repo.view = some view → ∃ snapshot, repo.shown.getLast? = some snapshot ∧
      PathTree.SameLeaves snapshot view.cachedEventSnap) ∧
    EachAfter Differs repo.shown ∧
    ∀ snapshot ∈ repo.shown, PathTree.Named PlainAscii snapshot := by
  have hsound := plainRepo_run hplain hrun
  exact ⟨hsound.last, hsound.differs, fun snapshot hmem => (hsound.shown snapshot hmem).2⟩

/-- The node with one text. -/
def textAt (path : List String) (text : String) : TidyNode :=
  ⟨PathTree.set path (.leaf (.string text)) .empty,
    PathTree.Tidy.set ⟨.leaf _, .leaf _⟩ PathTree.tidy_empty path⟩

theorem named_textAt {path : List String} (hpath : ∀ name ∈ path, PlainAscii name)
    (text : String) : PathTree.Named PlainAscii (textAt path text).1 :=
  PathTree.kept_named.set hpath (PathTree.named_leaf _) PathTree.kept_named.empty

/-- The list is empty, a record is saved, and the server refuses it. -/
def refusedSave : List RepoEvent :=
  [.listenComplete, .set "1" [] (textAt ["title"] "Dune"), .ack 0 false]

theorem a_refused_save_is_shown_and_taken_back :
    ∃ repo, run step .init refusedSave = some repo ∧ repo.shown.length = 3 ∧
      (∀ view, repo.view = some view → ∃ snapshot, repo.shown.getLast? = some snapshot ∧
        PathTree.SameLeaves snapshot view.cachedEventSnap) ∧
      EachAfter Differs repo.shown ∧
      ∀ snapshot ∈ repo.shown, PathTree.Named PlainAscii snapshot := by
  have hlength : (run step .init refusedSave).map (fun repo => repo.shown.length) = some 3 := by
    decide +kernel
  obtain ⟨repo, hrun, hthree⟩ := Option.map_eq_some_iff.mp hlength
  have hplain : ∀ e ∈ refusedSave, PlainEvent e := by
    intro e he
    simp only [refusedSave, List.mem_cons, List.not_mem_nil, or_false] at he
    rcases he with rfl | rfl | rfl
    · trivial
    · exact ⟨by decide +kernel, named_textAt (by decide +kernel) _⟩
    · trivial
  exact ⟨repo, hrun, hthree, every_change_is_shown_once hplain hrun⟩

end xellissime_book.local_view
