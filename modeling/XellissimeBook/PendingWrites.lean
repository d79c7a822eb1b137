-- The writes that the server has not answered yet (Pods/FirebaseDatabase,
-- FWriteTree.m). They are kept in a list, and once more layered into one
-- compound write, from which the nodes that the app sees are calculated.
import XellissimeBook.CompoundWrites

open path_tree
open xellissime_book.database xellissime_book.immutable_tree xellissime_book.compound_writes

namespace xellissime_book.pending_writes

/-! ## The write tree -/

/-- `FWriteRecord` of an overwrite. The app makes no merge and no write that is
not visible. -/
structure FWriteRecord where
  writeId : Nat
  path : List String
  overwrite : FNode

/-- The writes layered on top of a compound write. -/
def addWrites (compoundWrite : FCompoundWrite) (writes : List FWriteRecord) : FCompoundWrite :=
  writes.foldl (fun w record => w.addWrite record.overwrite record.path) compoundWrite

/-- `layerTreeFromWrites:filter:treeRoot:` with the default filter at the root. -/
def layerTreeFromWrites (writes : List FWriteRecord) : FCompoundWrite :=
  addWrites .emptyWrite writes

structure FWriteTree where
  visibleWrites : FCompoundWrite
  allWrites : List FWriteRecord
  /-- `none` stands for -1, before the first write. -/
  lastWriteId : Option Nat

/-- `contains:` of FPath. -/
def contains (path other : List String) : Bool := path.isPrefixOf other

theorem contains_iff {path other : List String} : contains path other = true ↔ path <+: other :=
  List.isPrefixOf_iff_prefix

namespace FWriteTree

def init : FWriteTree := ⟨.emptyWrite, [], none⟩

/-- `addOverwriteAtPath:newData:writeId:isVisible:`. -/
def addOverwrite (path : List String) (newData : FNode) (writeId : Nat) (t : FWriteTree) :
    FWriteTree where
  visibleWrites := t.visibleWrites.addWrite newData path
  allWrites := t.allWrites ++ [{ writeId, path, overwrite := newData }]
  lastWriteId := some writeId

/-- `resetTree`. -/
def resetTree (t : FWriteTree) : FWriteTree :=
  { t with
    visibleWrites := layerTreeFromWrites t.allWrites
    lastWriteId := t.allWrites.getLast?.map (·.writeId) }

/-- The loop of `removeWriteId:`, from the last write on. It gives whether the
removed write was visible, and whether it overlaps with another one. -/
def overlapLoop (writeToRemove : FWriteRecord) (index : Nat) :
    List (FWriteRecord × Nat) → Bool → Bool × Bool
  | [], overlaps => (true, overlaps)
  | (currentWrite, i) :: rest, overlaps =>
    if index ≤ i ∧ contains currentWrite.path writeToRemove.path then (false, overlaps)
    else
      overlapLoop writeToRemove index rest
        (if contains writeToRemove.path currentWrite.path then true else overlaps)

/-- `removeWriteId:`, with its answer whether the views have to look again. An
id that is not there fails an assertion. -/
def removeWriteId (writeId : Nat) (t : FWriteTree) : Option (Bool × FWriteTree) :=
  match t.allWrites.findIdx? (·.writeId = writeId) with
  | none => none
  | some index =>
    match t.allWrites[index]? with
    | none => none
    | some writeToRemove =>
      let t' := { t with allWrites := t.allWrites.eraseIdx index }
      let loop := overlapLoop writeToRemove index t'.allWrites.zipIdx.reverse false
      if loop.1 = false then some (false, t')
      else if loop.2 then some (true, t'.resetTree)
      else
        some (true,
          { t' with visibleWrites := t'.visibleWrites.removeWriteAtPath writeToRemove.path })

/-! ### What the app sees through the writes -/

/-- `calculateCompleteEventCacheAtPath:completeServerCache:excludeWriteIds:includeHiddenWrites:`,
with no write excluded and none hidden. -/
def calculateCompleteEventCacheAtPath (treePath : List String)
    (completeServerCache : Option FNode) (t : FWriteTree) : Option FNode :=
  match t.visibleWrites.completeNodeAtPath treePath with
  | some shadowingNode => some shadowingNode
  | none =>
    let subMerge := t.visibleWrites.childCompoundWriteAtPath treePath
    if subMerge.isEmpty then completeServerCache
    else if completeServerCache.isNone ∧ ¬ subMerge.hasCompleteWriteAtPath [] then none
    else some (subMerge.applyToNode (completeServerCache.getD .empty))

/-- `calculateEventCacheAfterServerOverwriteAtPath:childPath:existingEventSnap:existingServerSnap:`,
with a server snap. -/
def calculateEventCacheAfterServerOverwriteAtPath (treePath childPath : List String)
    (existingServerSnap : FNode) (t : FWriteTree) : Option FNode :=
  let path := treePath ++ childPath
  if t.visibleWrites.hasCompleteWriteAtPath path then none
  else
    let childMerge := t.visibleWrites.childCompoundWriteAtPath path
    if childMerge.isEmpty then some (getChild childPath existingServerSnap)
    else some (childMerge.applyToNode (getChild childPath existingServerSnap))

/-- `calculateCompleteChildAtPath:childKey:cache:`, with a complete cache. -/
def calculateCompleteChildAtPath (treePath : List String) (childKey : String)
    (existingServerCache : FNode) (t : FWriteTree) : FNode :=
  let path := treePath ++ [childKey]
  match t.visibleWrites.completeNodeAtPath path with
  | some shadowingNode => shadowingNode
  | none =>
    (t.visibleWrites.childCompoundWriteAtPath path).applyToNode
      (existingServerCache.child childKey)

/-- `shadowingWriteAtPath:`. -/
def shadowingWriteAtPath (path : List String) (t : FWriteTree) : Option FNode :=
  t.visibleWrites.completeNodeAtPath path

end FWriteTree

/-! ## Writes that are alike -/

/-- The two have the same nodes at the same paths. -/
def SameWrites (w w' : FCompoundWrite) : Prop := ∀ p, w.writeAt p = w'.writeAt p

theorem sameWrites_refl (w : FCompoundWrite) : SameWrites w w := fun _ => rfl

theorem SameWrites.addWrite {w w' : FCompoundWrite} (h : SameWrites w w') (n : FNode)
    (path : List String) : SameWrites (w.addWrite n path) (w'.addWrite n path) := by
  intro p
  rcases w.shadowed_or_unshadowed path with ⟨r, s, v, rfl, hv⟩ | hun
  · rw [FCompoundWrite.writeAt_addWrite_of_shadowed hv,
      FCompoundWrite.writeAt_addWrite_of_shadowed (h r ▸ hv), h]
  · have hun' : w'.Unshadowed path := fun r hr => by rw [← h r, hun r hr]
    rw [FCompoundWrite.writeAt_addWrite_of_unshadowed hun,
      FCompoundWrite.writeAt_addWrite_of_unshadowed hun', h]

theorem SameWrites.symm {w w' : FCompoundWrite} (h : SameWrites w w') : SameWrites w' w :=
  fun p => (h p).symm

theorem SameWrites.trans {w w' w'' : FCompoundWrite} (h : SameWrites w w')
    (h' : SameWrites w' w'') : SameWrites w w'' :=
  fun p => (h p).trans (h' p)

theorem SameWrites.removeWriteAtPath {w w' : FCompoundWrite} (h : SameWrites w w')
    (path : List String) : SameWrites (w.removeWriteAtPath path) (w'.removeWriteAtPath path) := by
  intro p
  rw [FCompoundWrite.writeAt_removeWriteAtPath, FCompoundWrite.writeAt_removeWriteAtPath, h]

theorem SameWrites.completeNodeAtPath_eq {w w' : FCompoundWrite} (h : SameWrites w w')
    (path : List String) : w.completeNodeAtPath path = w'.completeNodeAtPath path := by
  rcases w.shadowed_or_unshadowed path with ⟨r, s, v, rfl, hv⟩ | hun
  · rw [FCompoundWrite.completeNodeAtPath_append hv,
      FCompoundWrite.completeNodeAtPath_append (h r ▸ hv)]
  · have hun' : w'.Unshadowed path := fun r hr => by rw [← h r, hun r hr]
    rw [FCompoundWrite.completeNodeAtPath_eq_none_iff.mpr hun,
      FCompoundWrite.completeNodeAtPath_eq_none_iff.mpr hun']

theorem SameWrites.applyToNode {w w' : FCompoundWrite} (h : SameWrites w w') (t : FNode) :
    PathTree.SameLeaves (w.applyToNode t) (w'.applyToNode t) :=
  fun _ => FCompoundWrite.leafAt_applyToNode_congr (fun q _ => h q) t

/-! ## Layers -/

theorem addWrites_cons (w : FCompoundWrite) (record : FWriteRecord) (writes : List FWriteRecord) :
    addWrites w (record :: writes) = addWrites (w.addWrite record.overwrite record.path) writes := rfl

theorem layer_append (writes more : List FWriteRecord) :
    layerTreeFromWrites (writes ++ more) = addWrites (layerTreeFromWrites writes) more := by
  simp [layerTreeFromWrites, addWrites]

theorem layer_snoc (writes : List FWriteRecord) (record : FWriteRecord) :
    layerTreeFromWrites (writes ++ [record]) =
      (layerTreeFromWrites writes).addWrite record.overwrite record.path :=
  layer_append writes [record]

theorem SameWrites.addWrites {w w' : FCompoundWrite} (h : SameWrites w w')
    (writes : List FWriteRecord) : SameWrites (addWrites w writes) (addWrites w' writes) := by
  induction writes generalizing w w' with
  | nil => exact h
  | cons record rest ih => exact ih (h.addWrite record.overwrite record.path)

/-- The layers hold nodes at the paths of their writes only. -/
theorem exists_record_of_writeAt {writes : List FWriteRecord} {p : List String} {v : FNode}
    (h : (layerTreeFromWrites writes).writeAt p = some v) :
    ∃ record ∈ writes, record.path = p := by
  induction writes using List.reverseRecOn generalizing v with
  | nil =>
    rw [layerTreeFromWrites, addWrites, List.foldl_nil, FCompoundWrite.writeAt_emptyWrite] at h
    cases h
  | append_singleton writes record ih =>
    rw [layer_snoc] at h
    have hold : ∀ {u}, (layerTreeFromWrites writes).writeAt p = some u →
        ∃ r ∈ writes ++ [record], r.path = p := by
      intro u hu
      obtain ⟨r, hr, hp⟩ := ih hu
      exact ⟨r, List.mem_append_left _ hr, hp⟩
    rcases (layerTreeFromWrites writes).shadowed_or_unshadowed record.path with
      ⟨r, s, u, hrs, hu⟩ | hun
    · rw [hrs, FCompoundWrite.writeAt_addWrite_of_shadowed hu] at h
      by_cases hp : p = r
      · rw [hp] at hold ⊢
        exact hold hu
      · rw [if_neg hp] at h
        exact hold h
    · rw [FCompoundWrite.writeAt_addWrite_of_unshadowed hun] at h
      by_cases hpath : record.path <+: p
      · rw [if_pos hpath] at h
        by_cases hp : p = record.path
        · exact ⟨record, by simp, hp.symm⟩
        · rw [if_neg hp] at h
          cases h
      · rw [if_neg hpath] at h
        exact hold h

/-- The pending writes as paths with their nodes. -/
def writesOf (writes : List FWriteRecord) : List (List String × FNode) :=
  writes.map fun record => (record.path, record.overwrite)

/-- Applied to a node without a leaf above any of the paths, the layers make
the writes one after the other. -/
theorem sameLeaves_layer {writes : List FWriteRecord} {t : FNode}
    (h : ∀ record ∈ writes, FCompoundWrite.NoLeafAbove t record.path) :
    PathTree.SameLeaves ((layerTreeFromWrites writes).applyToNode t)
      (PathTree.setAll (writesOf writes) t) := by
  induction writes using List.reverseRecOn with
  | nil => exact PathTree.sameLeaves_refl t
  | append_singleton writes record ih =>
    have hbefore := ih fun r hr => h r (List.mem_append_left _ hr)
    rw [layer_snoc, writesOf, List.map_append, PathTree.setAll_append]
    have hlast := FCompoundWrite.sameLeaves_addWrite
      (w := layerTreeFromWrites writes) (h record (by simp)) record.overwrite
    exact hlast.trans (hbefore.set record.path record.overwrite)

/-! ## The view at a path -/

namespace FWriteTree

theorem calculateCompleteEventCacheAtPath_sameLeaves (t : FWriteTree) (server : FNode)
    (treePath : List String) :
    ∃ node, t.calculateCompleteEventCacheAtPath treePath (some (getChild treePath server)) =
        some node ∧
      PathTree.SameLeaves node (getChild treePath (t.visibleWrites.applyToNode server)) := by
  unfold calculateCompleteEventCacheAtPath
  cases hshadow : t.visibleWrites.completeNodeAtPath treePath with
  | some shadowingNode =>
    exact ⟨_, rfl, FCompoundWrite.sameLeaves_completeNodeAtPath hshadow server⟩
  | none =>
    have hchild := FCompoundWrite.sameLeaves_childCompoundWriteAtPath
      (FCompoundWrite.completeNodeAtPath_eq_none_iff.mp hshadow) server
    by_cases hempty : (t.visibleWrites.childCompoundWriteAtPath treePath).isEmpty = true
    · rw [FCompoundWrite.applyToNode_of_isEmpty hempty] at hchild
      simp only [hempty, if_true]
      exact ⟨_, rfl, hchild⟩
    · simp only [hempty]
      exact ⟨_, rfl, hchild⟩

theorem calculateEventCacheAfterServerOverwrite_none_iff (t : FWriteTree)
    (treePath childPath : List String) (server : FNode) :
    t.calculateEventCacheAfterServerOverwriteAtPath treePath childPath server = none ↔
      ∃ node, t.visibleWrites.completeNodeAtPath (treePath ++ childPath) = some node := by
  simp only [calculateEventCacheAfterServerOverwriteAtPath]
  cases hshadow : t.visibleWrites.completeNodeAtPath (treePath ++ childPath) with
  | some node => simp [FCompoundWrite.hasCompleteWriteAtPath, hshadow]
  | none =>
    simp only [FCompoundWrite.hasCompleteWriteAtPath, hshadow, Option.isSome_none,
      Bool.false_eq_true, if_false, reduceCtorEq, exists_false, iff_false]
    split <;> simp

theorem calculateEventCacheAfterServerOverwrite_sameLeaves {t : FWriteTree}
    {treePath childPath : List String} {server node : FNode}
    (h : t.calculateEventCacheAfterServerOverwriteAtPath treePath childPath
      (getChild treePath server) = some node) :
    PathTree.SameLeaves node
      (getChild (treePath ++ childPath) (t.visibleWrites.applyToNode server)) := by
  simp only [calculateEventCacheAfterServerOverwriteAtPath] at h
  cases hshadow : t.visibleWrites.completeNodeAtPath (treePath ++ childPath) with
  | some shadowingNode => simp [FCompoundWrite.hasCompleteWriteAtPath, hshadow] at h
  | none =>
    have hchild := FCompoundWrite.sameLeaves_childCompoundWriteAtPath
      (FCompoundWrite.completeNodeAtPath_eq_none_iff.mp hshadow) server
    have hget : getChild childPath (getChild treePath server) =
        getChild (treePath ++ childPath) server := (PathTree.get_append _ _ _).symm
    simp only [FCompoundWrite.hasCompleteWriteAtPath, hshadow, hget, Option.isSome_none,
      Bool.false_eq_true, if_false] at h
    split at h
    · rename_i hempty
      rw [FCompoundWrite.applyToNode_of_isEmpty hempty] at hchild
      cases h
      exact hchild
    · cases h
      exact hchild

theorem calculateCompleteChildAtPath_sameLeaves (t : FWriteTree) (server : FNode)
    (treePath : List String) (childKey : String) :
    PathTree.SameLeaves
      (t.calculateCompleteChildAtPath treePath childKey (getChild treePath server))
      (getChild (treePath ++ [childKey]) (t.visibleWrites.applyToNode server)) := by
  simp only [calculateCompleteChildAtPath]
  cases hshadow : t.visibleWrites.completeNodeAtPath (treePath ++ [childKey]) with
  | some shadowingNode => exact FCompoundWrite.sameLeaves_completeNodeAtPath hshadow server
  | none =>
    have hget : (getChild treePath server).child childKey =
        getChild (treePath ++ [childKey]) server := by
      simp only [getChild, PathTree.get_append]
      rfl
    simp only [hget]
    exact FCompoundWrite.sameLeaves_childCompoundWriteAtPath
      (FCompoundWrite.completeNodeAtPath_eq_none_iff.mp hshadow) server

/-! ### What the views keep -/

section
variable {Fine : String → Prop} {P : FNode → Prop} (hkept : PathTree.Kept Fine P)
include hkept

theorem writesKeep_layer {writes : List FWriteRecord}
    (hpaths : ∀ r ∈ writes, ∀ k ∈ r.path, Fine k) (hnodes : ∀ r ∈ writes, P r.overwrite) :
    (layerTreeFromWrites writes).WritesKeep Fine P := by
  induction writes using List.reverseRecOn with
  | nil => exact FCompoundWrite.writesKeep_emptyWrite
  | append_singleton writes record ih =>
    rw [layer_snoc]
    have hbefore := ih (fun r hr => hpaths r (List.mem_append_left _ hr))
      fun r hr => hnodes r (List.mem_append_left _ hr)
    exact hbefore.addWrite hkept (hnodes record (by simp)) (hpaths record (by simp))

variable {t : FWriteTree} (h : t.visibleWrites.WritesKeep Fine P)
include h

theorem kept_calculateCompleteEventCacheAtPath {treePath : List String} {server node : FNode}
    (hserver : P server)
    (hnode : t.calculateCompleteEventCacheAtPath treePath (some server) = some node) :
    P node := by
  simp only [calculateCompleteEventCacheAtPath] at hnode
  cases hshadow : t.visibleWrites.completeNodeAtPath treePath with
  | some shadowingNode =>
    rw [hshadow] at hnode
    cases hnode
    exact h.completeNodeAtPath hkept hshadow
  | none =>
    have hun := FCompoundWrite.completeNodeAtPath_eq_none_iff.mp hshadow
    rw [hshadow] at hnode
    simp only at hnode
    split at hnode
    · cases hnode
      exact hserver
    · simp only [Option.isNone_some, Bool.false_eq_true, false_and, if_false] at hnode
      cases hnode
      exact (h.childCompoundWriteAtPath hun).applyToNode hkept hserver

theorem kept_calculateEventCacheAfterServerOverwrite {treePath childPath : List String}
    {server node : FNode} (hserver : P server)
    (hnode : t.calculateEventCacheAfterServerOverwriteAtPath treePath childPath server =
      some node) : P node := by
  simp only [calculateEventCacheAfterServerOverwriteAtPath] at hnode
  cases hshadow : t.visibleWrites.completeNodeAtPath (treePath ++ childPath) with
  | some shadowingNode =>
    simp [FCompoundWrite.hasCompleteWriteAtPath, hshadow] at hnode
  | none =>
    have hun := FCompoundWrite.completeNodeAtPath_eq_none_iff.mp hshadow
    simp only [FCompoundWrite.hasCompleteWriteAtPath, hshadow, Option.isSome_none,
      Bool.false_eq_true, if_false] at hnode
    split at hnode
    · cases hnode
      exact hkept.get childPath hserver
    · cases hnode
      exact (h.childCompoundWriteAtPath hun).applyToNode hkept (hkept.get childPath hserver)

theorem kept_calculateCompleteChildAtPath {server : FNode} (hserver : P server)
    (treePath : List String) (childKey : String) :
    P (t.calculateCompleteChildAtPath treePath childKey server) := by
  simp only [calculateCompleteChildAtPath]
  cases hshadow : t.visibleWrites.completeNodeAtPath (treePath ++ [childKey]) with
  | some shadowingNode => exact h.completeNodeAtPath hkept hshadow
  | none =>
    have hun := FCompoundWrite.completeNodeAtPath_eq_none_iff.mp hshadow
    exact (h.childCompoundWriteAtPath hun).applyToNode hkept (hkept.child hserver childKey)

end

end FWriteTree

end xellissime_book.pending_writes
