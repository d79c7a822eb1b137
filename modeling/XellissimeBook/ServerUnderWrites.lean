-- What the observer of `books` sees is the node of the server with the pending
-- writes made on it, in their order. The client never computes it so: it changes
-- the event cache in place at each write, answer and update.
import XellissimeBook.LocalView

open path_tree runs
open xellissime_book.key_order
open xellissime_book.database xellissime_book.compound_writes
open xellissime_book.pending_writes
open xellissime_book.answered_writes hiding step
open xellissime_book.view_changes xellissime_book.local_view

namespace xellissime_book.server_under_writes

/-! ## The server node seen through the writes -/

/-- The whole tree, as far as the client knows it from the server. -/
def serverRoot (server : FNode) : FNode := PathTree.set treePath server .empty

def seenThrough (w : FCompoundWrite) (server : FNode) : FNode :=
  getChild treePath (w.applyToNode (serverRoot server))

theorem getChild_serverRoot (server : FNode) : getChild treePath (serverRoot server) = server :=
  PathTree.get_set_append treePath [] server .empty

theorem leafAt_serverRoot (p : List String) (server : FNode) :
    PathTree.leafAt (treePath ++ p) (serverRoot server) = PathTree.leafAt p server :=
  PathTree.leafAt_set_append treePath p server .empty

theorem leafAt_seenThrough (w : FCompoundWrite) (p : List String) (server : FNode) :
    PathTree.leafAt p (seenThrough w server) =
      PathTree.leafAt (treePath ++ p) (w.applyToNode (serverRoot server)) :=
  (PathTree.leafAt_append treePath p _).symm

section
variable {w : FCompoundWrite} {server server' : FNode} {p q : List String}

/-- What is seen at a path depends only on the leaf that the server has there. -/
theorem leafAt_seenThrough_base (h : PathTree.leafAt p server = PathTree.leafAt p server') :
    PathTree.leafAt p (seenThrough w server) = PathTree.leafAt p (seenThrough w server') := by
  rw [leafAt_seenThrough, leafAt_seenThrough]
  apply FCompoundWrite.leafAt_applyToNode_base
  rw [leafAt_serverRoot, leafAt_serverRoot, h]

theorem sameLeaves_seenThrough (h : PathTree.SameLeaves server server') :
    PathTree.SameLeaves (seenThrough w server) (seenThrough w server') :=
  fun p => leafAt_seenThrough_base (h p)

theorem leafAt_seenThrough_eq_none (hun : w.Unshadowed (treePath ++ p))
    (h : PathTree.leafAt p server = none) :
    PathTree.leafAt p (seenThrough w server) = none := by
  rw [leafAt_seenThrough]
  apply FCompoundWrite.leafAt_applyToNode_eq_none hun
  rw [leafAt_serverRoot, h]

theorem completeEventCache_seenThrough {t : FWriteTree} (server : FNode) :
    PathTree.SameLeaves (completeEventCache t server)
      (seenThrough t.visibleWrites server) := by
  obtain ⟨node, hnode, hsame⟩ :=
    t.calculateCompleteEventCacheAtPath_sameLeaves (serverRoot server) treePath
  rw [getChild_serverRoot] at hnode
  rw [completeEventCache, hnode]
  exact hsame

theorem eventCacheAfterServerOverwrite_seenThrough {t : FWriteTree} {node : FNode}
    (h : t.calculateEventCacheAfterServerOverwriteAtPath treePath q server = some node) :
    PathTree.SameLeaves node (getChild q (seenThrough t.visibleWrites server)) := by
  rw [← getChild_serverRoot server] at h
  have hsame := FWriteTree.calculateEventCacheAfterServerOverwrite_sameLeaves h
  rwa [getChild, PathTree.get_append] at hsame

theorem completeChild_seenThrough (t : FWriteTree) (server : FNode) (childKey : String) :
    PathTree.SameLeaves (t.calculateCompleteChildAtPath treePath childKey server)
      ((seenThrough t.visibleWrites server).child childKey) := by
  have hsame := t.calculateCompleteChildAtPath_sameLeaves (serverRoot server) treePath childKey
  rw [getChild_serverRoot, getChild, PathTree.get_append] at hsame
  exact hsame

end

/-! ## The server cache -/

/-- The server cache takes an update at its path. -/
theorem sameLeaves_updateServerSnap {changedSnap oldServerSnap : FNode} (hn : changedSnap.Tidy)
    (hs : oldServerSnap.Tidy) (path : List String) :
    PathTree.SameLeaves (updateServerSnap path changedSnap oldServerSnap)
      (PathTree.set path changedSnap oldServerSnap) := by
  cases path with
  | nil => exact PathTree.sameLeaves_refl _
  | cons childKey childChangePath =>
    rw [PathTree.set_cons]
    have hnew := hn.set (hs.child childKey) childChangePath
    exact sameLeaves_updateChildIn hs hnew (PathTree.sameLeaves_set_of_set hn.pruned)

/-! ## One operation -/

/-- The event cache is the server cache seen through the writes. -/
def Agrees (t : FWriteTree) (view : FViewCache) : Prop :=
  PathTree.SameLeaves view.cachedEventSnap (seenThrough t.visibleWrites view.cachedServerSnap)

/-- No leaf of the server lies strictly above a write. -/
def ClearAbove (w : FCompoundWrite) (server : FNode) : Prop :=
  ∀ p r v, r ≠ [] → w.writeAt (treePath ++ (p ++ r)) = some v → PathTree.leafAt p server = none

section
variable {t : FWriteTree} {view : FViewCache}

/-- A write of the app goes into the event cache. -/
theorem sameLeaves_userOverwrite (hv : view.Tidy) {snap : FNode} (hn : snap.Tidy)
    (path : List String) :
    PathTree.SameLeaves (applyUserOverwriteTo path snap view).1.cachedEventSnap
      (PathTree.set path snap view.cachedEventSnap) := by
  cases path with
  | nil => exact PathTree.sameLeaves_refl _
  | cons childKey childChangePath =>
    have hnew := hn.set (hv.event.child childKey) childChangePath
    have hchild : (if childChangePath = [] then snap
        else updateChild childChangePath snap (view.cachedEventSnap.child childKey)) =
        PathTree.set childChangePath snap (view.cachedEventSnap.child childKey) := by
      split
      · rename_i hnil
        rw [hnil]
        rfl
      · rfl
    simp only [applyUserOverwriteTo, hchild]
    rw [PathTree.set_cons]
    split
    · rename_i hequal
      rw [PathTree.isEqual_iff (hv.event.child childKey) hnew] at hequal
      have hset := PathTree.sameLeaves_set_of_get (p := [childKey]) hnew.pruned hequal.symm
      rw [PathTree.set_cons] at hset
      exact hset.symm
    · exact sameLeaves_updateChildIn hv.event hnew (PathTree.sameLeaves_set_of_set hn.pruned)

theorem generate_cachedServerSnap (t : FWriteTree) (path : List String) (view : FViewCache) :
    (generateEventCacheAfterServerEvent t path view).1.cachedServerSnap =
      view.cachedServerSnap := by
  simp only [generateEventCacheAfterServerEvent]
  split <;> rfl

/-- The event cache after a server event at a path: it is what is seen through
the writes, if it was so apart from the path, and above it where nothing is
seen at the path. -/
theorem agrees_generate (hw : t.visibleWrites.TidyWrites) (hv : view.Tidy)
    {path : List String} (hun : t.visibleWrites.Unshadowed (treePath ++ path))
    (hapart : ∀ p, PathTree.ApartPaths path p →
      PathTree.leafAt p view.cachedEventSnap =
        PathTree.leafAt p (seenThrough t.visibleWrites view.cachedServerSnap))
    (habove : ∀ p r, r ≠ [] → path = p ++ r →
      (∀ x, PathTree.leafAt (path ++ x)
        (seenThrough t.visibleWrites view.cachedServerSnap) = none) →
      PathTree.leafAt p view.cachedEventSnap =
        PathTree.leafAt p (seenThrough t.visibleWrites view.cachedServerSnap)) :
    Agrees t (generateEventCacheAfterServerEvent t path view).1 := by
  rw [Agrees, generate_cachedServerSnap]
  have hshadow : t.shadowingWriteAtPath (treePath ++ path) = none :=
    FCompoundWrite.completeNodeAtPath_eq_none_iff.mpr hun
  simp only [generateEventCacheAfterServerEvent, hshadow, Option.isSome_none,
    Bool.false_eq_true, if_false]
  cases path with
  | nil => exact completeEventCache_seenThrough view.cachedServerSnap
  | cons childKey childChangePath =>
    simp only
    cases hupdate : t.calculateEventCacheAfterServerOverwriteAtPath treePath
        (childKey :: childChangePath) view.cachedServerSnap with
    | none =>
      rw [FWriteTree.calculateEventCacheAfterServerOverwrite_none_iff] at hupdate
      obtain ⟨node, hnode⟩ := hupdate
      rw [FCompoundWrite.completeNodeAtPath_eq_none_iff.mpr hun] at hnode
      cases hnode
    | some node =>
      have hn := FWriteTree.kept_calculateEventCacheAfterServerOverwrite PathTree.kept_tidy
        hw hv.server hupdate
      have hnode := eventCacheAfterServerOverwrite_seenThrough hupdate
      have hupdated := sameLeaves_updateChildIn hv.event
        (hn.set (hv.event.child childKey) childChangePath)
        (PathTree.sameLeaves_set_of_set hn.pruned)
      rw [← PathTree.set_cons] at hupdated
      refine hupdated.trans fun p => ?_
      rcases PathTree.path_cases (childKey :: childChangePath) p with
        ⟨r, rfl⟩ | ⟨r, hr, hpath⟩ | hpaths
      · rw [PathTree.leafAt_set_append, hnode, getChild, ← PathTree.leafAt_append]
      · have hbelow : ∀ x, PathTree.leafAt (childKey :: childChangePath ++ x)
            (seenThrough t.visibleWrites view.cachedServerSnap) = PathTree.leafAt x node := by
          intro x
          rw [hnode, getChild, ← PathTree.leafAt_append]
        rw [hpath, PathTree.leafAt_set_above hr]
        by_cases hempty : node.isEmpty = true
        · rw [if_pos hempty]
          apply habove p r hr hpath
          intro x
          rw [hbelow, PathTree.isEmpty_iff.mp hempty, PathTree.leafAt_empty]
        · obtain ⟨x, v, hx⟩ := hn.pruned.exists_leaf fun he =>
            hempty (PathTree.isEmpty_iff.mpr he)
          rw [← hbelow, hpath, List.append_assoc] at hx
          rw [if_neg hempty, PathTree.leafAt_above_leaf (by simp [hr]) hx]
      · rw [PathTree.leafAt_set_of_apart hpaths.1 hpaths.2, hapart p hpaths]

/-- A write that covers the path hides an update of the server. -/
theorem seenThrough_shadowed {w : FCompoundWrite} {server server' : FNode} {path : List String}
    (hroot : w.Unshadowed treePath) (hshadow : ¬ w.Unshadowed (treePath ++ path))
    (hserver : ∀ p, PathTree.ApartPaths path p →
      PathTree.leafAt p server = PathTree.leafAt p server')
    (hclear : ClearAbove w server) (hclear' : ClearAbove w server') :
    PathTree.SameLeaves (seenThrough w server) (seenThrough w server') := by
  rcases w.shadowed_or_unshadowed (treePath ++ path) with ⟨r, s, v, hrs, hv⟩ | hun
  · have hr : treePath <+: r := by
      rcases List.prefix_or_prefix_of_prefix (List.prefix_append treePath path)
        ⟨s, hrs.symm⟩ with h1 | h1
      · exact h1
      · rw [hroot r h1] at hv
        cases hv
    obtain ⟨q, rfl⟩ := hr
    have hpath : path = q ++ s := by
      rw [List.append_assoc] at hrs
      exact List.append_cancel_left hrs
    intro p
    rcases PathTree.path_cases q p with ⟨x, rfl⟩ | ⟨x, hx, rfl⟩ | hapart
    · rw [leafAt_seenThrough, leafAt_seenThrough, ← List.append_assoc,
        FCompoundWrite.leafAt_applyToNode_of_write hv,
        FCompoundWrite.leafAt_applyToNode_of_write hv]
    · apply leafAt_seenThrough_base
      rw [hclear p x v hx hv, hclear' p x v hx hv]
    · apply leafAt_seenThrough_base
      apply hserver p
      rw [hpath]
      exact (hapart.symm.append s).symm
  · exact absurd hun hshadow

/-- An update of the server keeps the two in agreement. -/
theorem agrees_serverOverwrite (hw : t.visibleWrites.TidyWrites) (hv : view.Tidy)
    (hroot : t.visibleWrites.Unshadowed treePath) (h : Agrees t view) {snap : FNode}
    (hn : snap.Tidy) (path : List String)
    (hclear : ClearAbove t.visibleWrites view.cachedServerSnap)
    (hclear' : ClearAbove t.visibleWrites (updateServerSnap path snap view.cachedServerSnap)) :
    Agrees t (applyServerOverwriteTo t path snap view).1 := by
  have hupdate := sameLeaves_updateServerSnap hn hv.server path
  have hserver : ∀ p, PathTree.ApartPaths path p →
      PathTree.leafAt p view.cachedServerSnap =
        PathTree.leafAt p (updateServerSnap path snap view.cachedServerSnap) := by
    intro p hp
    rw [hupdate, PathTree.leafAt_set_of_apart hp.1 hp.2]
  have htidy := kept_updateServerSnap PathTree.kept_tidy hn hv.server path fun _ _ => trivial
  unfold applyServerOverwriteTo
  generalize updateServerSnap path snap view.cachedServerSnap = server' at *
  have hv' : FViewCache.Tidy { view with cachedServerSnap := server' } := ⟨hv.event, htidy⟩
  by_cases hun : t.visibleWrites.Unshadowed (treePath ++ path)
  · apply agrees_generate hw hv' hun
    · intro p hp
      rw [h p]
      exact leafAt_seenThrough_base (hserver p hp)
    · intro p r hr hpath hnone
      rw [h p]
      apply leafAt_seenThrough_base
      rw [hupdate, hpath, PathTree.leafAt_set_above hr]
      by_cases hempty : snap.isEmpty = true
      · rw [if_pos hempty]
      · -- something hides the whole update: a write below its path
        rw [if_neg hempty]
        obtain ⟨x, v, hx⟩ := hn.pruned.exists_leaf fun he =>
          hempty (PathTree.isEmpty_iff.mpr he)
        have hwrite : ∃ y u, t.visibleWrites.writeAt (treePath ++ (path ++ y)) = some u := by
          by_contra hno
          have hunx : t.visibleWrites.Unshadowed (treePath ++ (path ++ x)) := by
            intro y hy
            rw [← List.append_assoc] at hy
            rcases List.prefix_or_prefix_of_prefix hy (List.prefix_append _ x) with h1 | ⟨z, rfl⟩
            · exact hun y h1
            · by_contra hsome
              obtain ⟨u, hu⟩ := Option.ne_none_iff_exists'.mp hsome
              rw [List.append_assoc] at hu
              exact hno ⟨z, u, hu⟩
          have hseen := hnone x
          rw [leafAt_seenThrough, FCompoundWrite.leafAt_applyToNode_of_removals hunx _,
            leafAt_serverRoot, hupdate, PathTree.leafAt_set_append, hx] at hseen
          · cases hseen
          · intro y u hu
            rw [List.append_assoc, List.append_assoc] at hu
            exact absurd ⟨x ++ y, u, hu⟩ hno
        obtain ⟨y, u, hu⟩ := hwrite
        rw [hpath, List.append_assoc] at hu
        exact hclear p (r ++ y) u (by simp [hr]) hu
  · have hshadow : (t.shadowingWriteAtPath (treePath ++ path)).isSome = true := by
      rw [Option.isSome_iff_ne_none]
      exact fun hnone => hun (FCompoundWrite.completeNodeAtPath_eq_none_iff.mp hnone)
    simp only [generateEventCacheAfterServerEvent, hshadow, if_true]
    exact h.trans (seenThrough_shadowed hroot hun hserver hclear hclear')

end

/-! ## The answer to a write -/

section
variable {w w' : FCompoundWrite} {server : FNode} {path p : List String}

/-- Apart from its path, an answered write is not seen. -/
theorem seenThrough_answered_apart (h : Hidden (treePath ++ path) w w')
    (hp : PathTree.ApartPaths path p) :
    PathTree.leafAt p (seenThrough w server) = PathTree.leafAt p (seenThrough w' server) := by
  rw [leafAt_seenThrough, leafAt_seenThrough]
  apply FCompoundWrite.leafAt_applyToNode_congr
  intro q hq
  apply h.outside
  intro hpath
  rcases hq with hq | hq
  · exact hp.1 ((List.prefix_append_right_inj treePath).mp (hpath.trans hq))
  · rcases List.prefix_or_prefix_of_prefix hpath hq with h1 | h1
    · exact hp.1 ((List.prefix_append_right_inj treePath).mp h1)
    · exact hp.2 ((List.prefix_append_right_inj treePath).mp h1)

/-- Above its path there is nothing to see before and after. -/
theorem seenThrough_answered_above (h : Hidden (treePath ++ path) w w')
    (hclear : ClearAbove w server) {r : List String} (hr : r ≠ []) (hpath : path = p ++ r) :
    PathTree.leafAt p (seenThrough w server) = none ∧
      PathTree.leafAt p (seenThrough w' server) = none := by
  subst hpath
  obtain ⟨v, hv⟩ := h.written
  have hserver := hclear p r v hr hv
  have hlong : ∀ q, q <+: treePath ++ p → ¬ treePath ++ (p ++ r) <+: q := by
    intro q hq hpq
    have hle := (hpq.trans hq).length_le
    have hr0 := List.length_pos_iff.mpr hr
    simp only [List.length_append] at hle
    omega
  have hun' : w'.Unshadowed (treePath ++ p) := by
    intro q hq
    apply h.above q
    · exact hq.trans ((List.prefix_append_right_inj treePath).mpr (List.prefix_append p r))
    · rintro rfl
      exact hlong _ hq (List.prefix_refl _)
  have hun : w.Unshadowed (treePath ++ p) := by
    intro q hq
    rw [h.outside q (hlong q hq), hun' q hq]
  exact ⟨leafAt_seenThrough_eq_none hun hserver, leafAt_seenThrough_eq_none hun' hserver⟩

theorem unshadowed_of_hidden {q : List String} (h : Hidden q w w') (hat : w'.writeAt q = none) :
    w'.Unshadowed q := by
  intro r hr
  by_cases hrq : r = q
  · rw [hrq, hat]
  · exact h.above r hr hrq

end

section
variable {t t' : FWriteTree} {view : FViewCache} {path : List String}

/-- The server took the write: its data is read again. -/
theorem agrees_ackUserWrite (hw : t'.visibleWrites.TidyWrites) (hv : view.Tidy)
    (h : Agrees t view) (hhidden : Hidden (treePath ++ path) t.visibleWrites t'.visibleWrites)
    (hat : t'.visibleWrites.writeAt (treePath ++ path) = none)
    (hclear : ClearAbove t.visibleWrites view.cachedServerSnap) :
    Agrees t' (ackUserWriteOn t' path view).1 := by
  have hun := unshadowed_of_hidden hhidden hat
  have hshadow : t'.shadowingWriteAtPath (treePath ++ path) = none :=
    FCompoundWrite.completeNodeAtPath_eq_none_iff.mpr hun
  have hsnap : (getChild path view.cachedServerSnap).Tidy := hv.server.get path
  have hsame : PathTree.SameLeaves view.cachedServerSnap
      (updateServerSnap path (getChild path view.cachedServerSnap) view.cachedServerSnap) :=
    (PathTree.sameLeaves_set_of_get hsnap.pruned (PathTree.sameLeaves_refl _)).symm.trans
      (sameLeaves_updateServerSnap hsnap hv.server path).symm
  have htidy := kept_updateServerSnap PathTree.kept_tidy hsnap hv.server path fun _ _ => trivial
  simp only [ackUserWriteOn, hshadow, Option.isSome_none, Bool.false_eq_true, if_false,
    applyServerOverwriteTo]
  generalize updateServerSnap path (getChild path view.cachedServerSnap)
    view.cachedServerSnap = server' at *
  have hv' : FViewCache.Tidy { view with cachedServerSnap := server' } := ⟨hv.event, htidy⟩
  apply agrees_generate hw hv' hun
  · intro p hp
    rw [h p, seenThrough_answered_apart hhidden hp, sameLeaves_seenThrough hsame p]
  · intro p r hr hpath _
    obtain ⟨hold, hnew⟩ := seenThrough_answered_above hhidden hclear hr hpath
    rw [h p, hold, ← sameLeaves_seenThrough hsame p, hnew]

/-- The server refused the write: what it covered is calculated again. -/
theorem agrees_revertUserWrite (hw : t'.visibleWrites.TidyWrites) (hv : view.Tidy)
    (h : Agrees t view) (hhidden : Hidden (treePath ++ path) t.visibleWrites t'.visibleWrites)
    (hat : t'.visibleWrites.writeAt (treePath ++ path) = none)
    (hclear : ClearAbove t.visibleWrites view.cachedServerSnap) :
    Agrees t' (revertUserWriteOn t' path view).1 := by
  have hun := unshadowed_of_hidden hhidden hat
  have hshadow : t'.shadowingWriteAtPath (treePath ++ path) = none :=
    FCompoundWrite.completeNodeAtPath_eq_none_iff.mpr hun
  have hcomplete := completeEventCache_seenThrough (t := t') view.cachedServerSnap
  simp only [revertUserWriteOn, hshadow, Option.isSome_none, Bool.false_eq_true, if_false]
  cases path with
  | nil => exact hcomplete
  | cons childKey rest =>
    simp only
    split
    · exact hcomplete
    · have hchild := completeChild_seenThrough t' view.cachedServerSnap childKey
      have htidy := FWriteTree.kept_calculateCompleteChildAtPath PathTree.kept_tidy hw hv.server
        treePath childKey
      generalize t'.calculateCompleteChildAtPath treePath childKey view.cachedServerSnap =
        newChild at *
      have hupdated : PathTree.SameLeaves
          (updateChildIn view.cachedEventSnap childKey newChild rest).1
          (PathTree.setChild childKey newChild view.cachedEventSnap) := by
        -- the old child differs from the new one at most at the path of the write
        apply sameLeaves_updateChildIn hv.event htidy
        intro hget p
        rw [hchild p, ← PathTree.leafAt_cons, ← PathTree.leafAt_cons, h]
        rcases PathTree.path_cases rest p with ⟨x, rfl⟩ | ⟨r, hr, hpath⟩ | hapart
        · have hx := hget x
          simp only [getChild] at hx
          rw [← PathTree.leafAt_append, ← PathTree.leafAt_append, hchild,
            ← PathTree.leafAt_cons, ← PathTree.leafAt_cons, h] at hx
          exact hx
        · obtain ⟨hold, hnew⟩ := seenThrough_answered_above (p := childKey :: p) hhidden hclear hr
            (by rw [hpath, List.cons_append])
          rw [hold, hnew]
        · apply seenThrough_answered_apart hhidden
          simpa [PathTree.ApartPaths] using hapart
      refine hupdated.trans fun p => ?_
      cases p with
      | nil =>
        obtain ⟨hold, hnew⟩ := seenThrough_answered_above (p := []) (r := childKey :: rest)
          hhidden hclear (by simp) (by simp)
        have hset := PathTree.leafAt_set_above (p := []) (r := [childKey]) (by simp) newChild
          view.cachedEventSnap
        rw [List.nil_append, PathTree.set_cons, h, hold, ite_self] at hset
        rw [hnew]
        exact hset
      | cons k p =>
        rw [PathTree.leafAt_cons]
        by_cases hk : k = childKey
        · rw [hk, PathTree.child_setChild_self, hchild]
          rfl
        · rw [PathTree.child_setChild_of_ne hk, ← PathTree.leafAt_cons, h]
          apply seenThrough_answered_apart hhidden
          simp [PathTree.ApartPaths, hk, Ne.symm hk]

end

/-! ## Runs -/

/-- No leaf of the server lies strictly above a pending write. -/
def Clear (repo : FRepo) : Prop :=
  ∀ view, repo.view = some view → ∀ record ∈ repo.pendingWriteTree.allWrites,
    FCompoundWrite.NoLeafAbove (serverRoot view.cachedServerSnap) record.path

instance (repo : FRepo) : Decidable (Clear repo) :=
  match h : repo.view with
  | none => isTrue fun view hview => by rw [h] at hview; cases hview
  | some view =>
    decidable_of_iff (∀ record ∈ repo.pendingWriteTree.allWrites,
      FCompoundWrite.NoLeafAbove (serverRoot view.cachedServerSnap) record.path) (by
        simp [Clear, h])

/-- An answered write is not covered by an older one that is still pending. -/
def InTurn (repo : FRepo) : RepoEvent → Prop
  | .set _ _ _ => True
  | .ack writeId _ =>
    ∀ record ∈ repo.pendingWriteTree.allWrites.find? (·.writeId = writeId),
      ∀ older ∈ olderWrites writeId repo.pendingWriteTree, ¬ older.path <+: record.path
  | .dataUpdate _ _ => True
  | .listenComplete => True

instance : (repo : FRepo) → (e : RepoEvent) → Decidable (InTurn repo e)
  | _, .set _ _ _ => inferInstanceAs (Decidable True)
  | repo, .ack writeId _ =>
    inferInstanceAs (Decidable
      (∀ record ∈ repo.pendingWriteTree.allWrites.find? (·.writeId = writeId),
        ∀ older ∈ olderWrites writeId repo.pendingWriteTree, ¬ older.path <+: record.path))
  | _, .dataUpdate _ _ => inferInstanceAs (Decidable True)
  | _, .listenComplete => inferInstanceAs (Decidable True)

/-- The event cache is up to date, and the writes are layered below `books`. -/
structure Current (repo : FRepo) : Prop where
  sound : Sound repo
  layered : Layered repo.pendingWriteTree
  below : ∀ record ∈ repo.pendingWriteTree.allWrites,
    ∃ key rest, record.path = treePath ++ key :: rest
  agrees : ∀ view, repo.view = some view → Agrees repo.pendingWriteTree view

theorem current_init : Current .init where
  sound := soundFor_init
  layered := sameWrites_refl .emptyWrite
  below := by simp [FRepo.init, FWriteTree.init]
  agrees := fun _ hview => by cases hview

theorem clearAbove_of_clear {t : FWriteTree} {server : FNode} (h : Layered t)
    (hclear : ∀ record ∈ t.allWrites,
      FCompoundWrite.NoLeafAbove (serverRoot server) record.path) :
    ClearAbove t.visibleWrites server := by
  intro p r v hr hv
  rw [h] at hv
  obtain ⟨record, hrecord, hpath⟩ := exists_record_of_writeAt hv
  rw [← leafAt_serverRoot]
  apply hclear record hrecord
  · rw [hpath, ← List.append_assoc]
    exact List.prefix_append _ r
  · rw [hpath, ← List.append_assoc]
    simpa using hr

theorem unshadowed_treePath {repo : FRepo} (h : Current repo) :
    repo.pendingWriteTree.visibleWrites.Unshadowed treePath := by
  intro r hr
  by_contra hsome
  obtain ⟨v, hv⟩ := Option.ne_none_iff_exists'.mp hsome
  rw [h.layered] at hv
  obtain ⟨record, hrecord, rfl⟩ := exists_record_of_writeAt hv
  obtain ⟨key, rest, hpath⟩ := h.below record hrecord
  have hle := hr.length_le
  rw [hpath, List.length_append, List.length_cons] at hle
  omega

theorem sync_none {repo : FRepo} (h : repo.view = none) (operation : FOperation) :
    repo.applyOperationToSyncPoints operation = repo := by
  simp [FRepo.applyOperationToSyncPoints, h]

theorem sync_tree (repo : FRepo) (operation : FOperation) :
    (repo.applyOperationToSyncPoints operation).pendingWriteTree = repo.pendingWriteTree := by
  unfold FRepo.applyOperationToSyncPoints
  split <;> rfl

theorem sync_some {repo : FRepo} {view : FViewCache} (h : repo.view = some view)
    (operation : FOperation) :
    (repo.applyOperationToSyncPoints operation).view =
      some (operate repo.pendingWriteTree view operation).1 := by
  simp [FRepo.applyOperationToSyncPoints, h, applyOperationOn]

/-- Where an operation brings the view to agree with the writes, the client is
current. -/
theorem current_sync {repo : FRepo} {operation : FOperation}
    (hsound : Sound (repo.applyOperationToSyncPoints operation))
    (hlayered : Layered repo.pendingWriteTree)
    (hbelow : ∀ record ∈ repo.pendingWriteTree.allWrites,
      ∃ key rest, record.path = treePath ++ key :: rest)
    (hagrees : ∀ view, repo.view = some view →
      Agrees repo.pendingWriteTree (operate repo.pendingWriteTree view operation).1) :
    Current (repo.applyOperationToSyncPoints operation) := by
  refine ⟨hsound, ?_, ?_, ?_⟩
  · rw [sync_tree]
    exact hlayered
  · rw [sync_tree]
    exact hbelow
  · intro view' hview'
    rw [sync_tree]
    cases hview : repo.view with
    | none =>
      rw [sync_none hview, hview] at hview'
      cases hview'
    | some view =>
      rw [sync_some hview] at hview'
      cases hview'
      exact hagrees view hview

theorem userOverwrite_cachedServerSnap (path : List String) (snap : FNode) (view : FViewCache) :
    (applyUserOverwriteTo path snap view).1.cachedServerSnap = view.cachedServerSnap := by
  cases path with
  | nil => rfl
  | cons childKey childChangePath =>
    simp only [applyUserOverwriteTo]
    generalize (if childChangePath = [] then snap
      else updateChild childChangePath snap (view.cachedEventSnap.child childKey)) = newChild
    split <;> rfl

theorem current_set {repo : FRepo} (h : Current repo) (key : String) (rest : List String)
    (node : TidyNode) (hclear : Clear (repo.set (treePath ++ key :: rest) node.1)) :
    Current (repo.set (treePath ++ key :: rest) node.1) := by
  have hsound : Sound (repo.set (treePath ++ key :: rest) node.1) :=
    sound_step (e := .set key rest node) h.sound rfl
  unfold FRepo.set at hsound hclear ⊢
  rw [relativePathFrom_append] at hsound hclear ⊢
  apply current_sync hsound
  · exact layered_addOverwrite h.layered _ _ _
  · intro record hrecord
    rcases List.mem_append.mp hrecord with hold | hnew
    · exact h.below record hold
    · cases List.mem_singleton.mp hnew
      exact ⟨key, rest, rfl⟩
  · intro view hview
    have hv := h.sound.view view hview
    have hserver := userOverwrite_cachedServerSnap (key :: rest) node.1 view
    have hset := sameLeaves_userOverwrite hv node.2 (key :: rest)
    unfold Agrees
    simp only [operate]
    rw [hserver]
    have hnoLeaf : FCompoundWrite.NoLeafAbove
        (serverRoot (applyUserOverwriteTo (key :: rest) node.1 view).1.cachedServerSnap)
        (treePath ++ key :: rest) := by
      apply hclear _ (sync_some hview _)
        { writeId := repo.writeIdCounter, path := treePath ++ key :: rest, overwrite := node.1 }
      rw [sync_tree]
      exact List.mem_append_right _ (List.mem_singleton.mpr rfl)
    rw [hserver] at hnoLeaf
    have hadd := FCompoundWrite.sameLeaves_addWrite (w := repo.pendingWriteTree.visibleWrites)
      hnoLeaf node.1
    have hseen := hadd.get treePath
    rw [PathTree.get_set_above] at hseen
    exact (hset.trans ((h.agrees view hview).set _ _)).trans hseen.symm

theorem current_firstServerCache {repo : FRepo} (h : Current repo) (hview : repo.view = none)
    {node : FNode} (hn : node.Tidy) : Current (repo.firstServerCache node) where
  sound := soundFor_firstServerCache PathTree.kept_tidy h.sound hview hn
  layered := h.layered
  below := h.below
  agrees := by
    intro view' hview'
    cases hview'
    exact completeEventCache_seenThrough node

theorem serverOverwrite_cachedServerSnap (t : FWriteTree) (path : List String) (snap : FNode)
    (view : FViewCache) :
    (applyServerOverwriteTo t path snap view).1.cachedServerSnap =
      updateServerSnap path snap view.cachedServerSnap :=
  generate_cachedServerSnap t path _

theorem current_dataUpdate {repo repo' : FRepo} (h : Current repo) {path : List String}
    {data : TidyNode} (hclear : Clear repo) (hclear' : Clear repo')
    (hs : step repo (.dataUpdate path data) = some repo') : Current repo' := by
  have hsound := sound_step h.sound hs
  simp only [step, FRepo.applyServerOverwriteAtPath] at hs
  split at hs
  · rename_i hview
    cases hs
    exact current_firstServerCache h hview data.2
  · cases hs
  · cases hs
    apply current_sync hsound h.layered h.below
    intro view hview
    have hafter := hclear' _ (sync_some hview _)
    rw [sync_tree] at hafter
    simp only [operate, serverOverwrite_cachedServerSnap] at hafter
    exact agrees_serverOverwrite h.sound.tree.visible (h.sound.view view hview)
      (unshadowed_treePath h) (h.agrees view hview) data.2 _
      (clearAbove_of_clear h.layered (hclear view hview))
      (clearAbove_of_clear h.layered hafter)

theorem current_listenComplete {repo : FRepo} (h : Current repo) :
    Current repo.applyListenCompleteAtPath := by
  have hsound : Sound repo.applyListenCompleteAtPath :=
    sound_step (e := .listenComplete) h.sound rfl
  unfold FRepo.applyListenCompleteAtPath at hsound ⊢
  split at hsound
  · rename_i hview
    exact current_firstServerCache h hview PathTree.tidy_empty
  · apply current_sync hsound h.layered h.below
    intro view hview
    apply agrees_generate h.sound.tree.visible (h.sound.view view hview)
    · rw [List.append_nil]
      exact unshadowed_treePath h
    · exact fun p hp => absurd List.nil_prefix hp.1
    · intro p r hr hpath
      exact absurd (List.append_eq_nil_iff.mp hpath.symm).2 hr

theorem current_ack {repo repo' : FRepo} (h : Current repo) {writeId : Nat} {success : Bool}
    (hclear : Clear repo) (hturn : InTurn repo (.ack writeId success))
    (hs : step repo (.ack writeId success) = some repo') : Current repo' := by
  have hsound := sound_step h.sound hs
  simp only [step, FRepo.ackUserWriteWithWriteId] at hs
  split at hs
  · rename_i write needToReevaluate tree hfind hremove
    obtain ⟨before, record, after, hall, rfl, hfirst, hall', hrepair⟩ :=
      removeWriteId_cases hremove
    obtain rfl : record = write := by
      rw [find?_of_split hall hfirst] at hfind
      exact Option.some.inj hfind
    have hold := hturn record (find?_of_split hall hfirst)
    rw [olderWrites_of_split hall hfirst] at hold
    have habove : NoneAbove before record.path := fun r hr hp => absurd hp (hold r hr)
    have hlayered := layered_repair h.layered hall hall' habove hrepair
    have hbelow : ∀ r ∈ tree.allWrites, ∃ key rest, r.path = treePath ++ key :: rest := by
      intro r hr
      apply h.below
      rw [hall'] at hr
      rw [hall]
      simp only [List.mem_append, List.mem_cons] at hr ⊢
      tauto
    obtain ⟨key, rest, hpath⟩ := h.below record (by simp [hall])
    split at hs
    · rename_i hreevaluate
      cases hs
      rw [hreevaluate] at hrepair
      -- the answered write is the only one that covers its path
      have hhidden : Hidden record.path repo.pendingWriteTree.visibleWrites tree.visibleWrites := by
        have hbefore := h.layered.symm
        have hafter := hlayered.symm
        rw [hall] at hbefore
        rw [hall'] at hafter
        exact (hidden_layer habove hrepair.not_covered).congr hbefore hafter
      have hat : tree.visibleWrites.writeAt record.path = none := by
        by_contra hsome
        obtain ⟨v, hv⟩ := Option.ne_none_iff_exists'.mp hsome
        rw [hlayered] at hv
        obtain ⟨r, hr, hrp⟩ := exists_record_of_writeAt hv
        rw [hall'] at hr
        have hcovers : r.path <+: record.path := hrp ▸ List.prefix_refl r.path
        rcases List.mem_append.mp hr with hr | hr
        · exact hold r hr hcovers
        · exact hrepair.not_covered r hr hcovers
      rw [hpath] at hhidden hat hsound ⊢
      rw [relativePathFrom_append] at hsound ⊢
      apply current_sync hsound hlayered hbelow
      intro view hview
      have hv := h.sound.view view hview
      have hw := (h.sound.tree.removeWriteId PathTree.kept_tidy hremove).visible
      have hserver := clearAbove_of_clear h.layered (hclear view hview)
      cases success
      · exact agrees_revertUserWrite hw hv (h.agrees view hview) hhidden hat hserver
      · exact agrees_ackUserWrite hw hv (h.agrees view hview) hhidden hat hserver
    · rename_i hshadowed
      cases hs
      rw [Bool.not_eq_true] at hshadowed
      rw [hshadowed] at hrepair
      refine ⟨hsound, hlayered, hbelow, fun view hview => ?_⟩
      have hagrees := h.agrees view hview
      unfold Agrees at hagrees ⊢
      rw [hrepair.unchanged]
      exact hagrees
  · cases hs

theorem current_step {repo repo' : FRepo} {e : RepoEvent} (h : Current repo)
    (hclear : Clear repo) (hclear' : Clear repo') (hturn : InTurn repo e)
    (hs : step repo e = some repo') : Current repo' := by
  cases e with
  | set key rest node =>
    cases hs
    exact current_set h key rest node hclear'
  | ack writeId success => exact current_ack h hclear hturn hs
  | dataUpdate path data => exact current_dataUpdate h hclear hclear' hs
  | listenComplete =>
    cases hs
    exact current_listenComplete h

/-! ## What the server sent -/

/-- The node at `books` after an event, as the server sends it. -/
def received (node : FNode) : RepoEvent → FNode
  | .dataUpdate path data => updateChild path data.1 node
  | .set _ _ _ => node
  | .ack _ _ => node
  | .listenComplete => node

/-- The server cache is the node received so far. Before the first answer of
the server nothing is received. -/
structure Receives (repo : FRepo) (node : FNode) : Prop where
  server : ∀ view, repo.view = some view → PathTree.SameLeaves view.cachedServerSnap node
  unheard : repo.view = none → node = .empty

theorem receives_sync {repo : FRepo} {operation : FOperation} {node node' : FNode}
    (h : Receives repo node)
    (hunheard : repo.view = none → node' = .empty)
    (hserver : ∀ view, repo.view = some view → PathTree.SameLeaves view.cachedServerSnap node →
      PathTree.SameLeaves (operate repo.pendingWriteTree view operation).1.cachedServerSnap
        node') :
    Receives (repo.applyOperationToSyncPoints operation) node' := by
  cases hview : repo.view with
  | none =>
    rw [sync_none hview]
    exact ⟨fun view hv => (by rw [hview] at hv; cases hv), hunheard⟩
  | some view =>
    have hsync := sync_some hview operation
    refine ⟨fun view' hview' => ?_, fun hnone => ?_⟩
    · rw [hsync] at hview'
      cases hview'
      exact hserver view hview (h.server view hview)
    · rw [hsync] at hnone
      cases hnone

theorem ackUserWrite_server {view : FViewCache} (hv : view.Tidy) (t : FWriteTree)
    (path : List String) :
    PathTree.SameLeaves (ackUserWriteOn t path view).1.cachedServerSnap
      view.cachedServerSnap := by
  have hsnap : (getChild path view.cachedServerSnap).Tidy := hv.server.get path
  simp only [ackUserWriteOn]
  split
  · exact PathTree.sameLeaves_refl _
  · rw [serverOverwrite_cachedServerSnap]
    exact (sameLeaves_updateServerSnap hsnap hv.server path).trans
      (PathTree.sameLeaves_set_of_get hsnap.pruned (PathTree.sameLeaves_refl _))

theorem revertUserWrite_server (t : FWriteTree) (path : List String) (view : FViewCache) :
    (revertUserWriteOn t path view).1.cachedServerSnap = view.cachedServerSnap := by
  simp only [revertUserWriteOn]
  split <;> rfl

theorem receives_step {repo repo' : FRepo} {e : RepoEvent} {node : FNode} (hsound : Sound repo)
    (h : Receives repo node) (hs : step repo e = some repo') :
    Receives repo' (received node e) := by
  cases e with
  | set key rest data =>
    cases hs
    have hkept : Receives { repo with
        writeIdCounter := repo.writeIdCounter + 1
        pendingWriteTree := repo.pendingWriteTree.addOverwrite (treePath ++ key :: rest) data.1
          repo.writeIdCounter } node := ⟨h.server, h.unheard⟩
    refine receives_sync hkept h.unheard fun view _ hsame => ?_
    simp only [operate]
    rw [userOverwrite_cachedServerSnap]
    exact hsame
  | ack writeId success =>
    simp only [step, FRepo.ackUserWriteWithWriteId] at hs
    split at hs
    · rename_i write needToReevaluate tree _ hremove
      have hkept : Receives { repo with pendingWriteTree := tree } node := ⟨h.server, h.unheard⟩
      split at hs
      · cases hs
        apply receives_sync hkept h.unheard
        intro view hview hsame
        cases success
        · simp only [operate, Bool.not_false, if_true]
          rw [revertUserWrite_server]
          exact hsame
        · exact (ackUserWrite_server (hsound.view view hview) _ _).trans hsame
      · cases hs
        exact hkept
    · cases hs
  | dataUpdate path data =>
    simp only [step, FRepo.applyServerOverwriteAtPath] at hs
    split at hs
    · cases hs
      refine ⟨fun view' hview' => ?_, fun hnone => by cases hnone⟩
      cases hview'
      exact PathTree.sameLeaves_refl _
    · cases hs
    · rename_i view hview
      cases hs
      apply receives_sync h (fun hnone => by rw [hview] at hnone; cases hnone)
      intro view' hview' hsame
      simp only [operate]
      rw [serverOverwrite_cachedServerSnap]
      exact (sameLeaves_updateServerSnap data.2 (hsound.view view' hview').server _).trans
        (hsame.set _ _)
  | listenComplete =>
    cases hs
    unfold FRepo.applyListenCompleteAtPath
    split
    · rename_i hview
      refine ⟨fun view' hview' => ?_, fun hnone => by cases hnone⟩
      cases hview'
      rw [received, h.unheard hview]
      exact PathTree.sameLeaves_refl _
    · apply receives_sync h h.unheard
      intro view _ hsame
      simp only [operate]
      rw [generate_cachedServerSnap]
      exact hsame

theorem receives_run {repo repo' : FRepo} {events : List RepoEvent} {node : FNode}
    (hsound : Sound repo) (h : Receives repo node) (hrun : run step repo events = some repo') :
    Receives repo' (events.foldl received node) := by
  induction events generalizing repo node with
  | nil =>
    cases hrun
    exact h
  | cons e rest ih =>
    rw [run_cons] at hrun
    obtain ⟨repo1, hs, hrest⟩ := Option.bind_eq_some_iff.mp hrun
    exact ih (sound_step hsound hs) (receives_step hsound h hs) hrest

theorem receives_init {events : List RepoEvent} {repo : FRepo}
    (hrun : run step .init events = some repo) :
    Receives repo (events.foldl received .empty) := by
  have hinit : Receives .init .empty := ⟨fun view hview => (by cases hview), fun _ => rfl⟩
  exact receives_run soundFor_init hinit hrun

theorem sameLeaves_serverRoot {server server' : FNode} (h : PathTree.SameLeaves server server') :
    PathTree.SameLeaves (serverRoot server) (serverRoot server') := by
  intro p
  unfold serverRoot
  rcases PathTree.path_cases treePath p with ⟨r, rfl⟩ | ⟨r, hr, hpath⟩ | ⟨h1, h2⟩
  · rw [PathTree.leafAt_set_append, PathTree.leafAt_set_append, h]
  · rw [hpath, PathTree.leafAt_set_above hr, PathTree.leafAt_set_above hr,
      PathTree.leafAt_empty, ite_self, ite_self]
  · rw [PathTree.leafAt_set_of_apart h1 h2, PathTree.leafAt_set_of_apart h1 h2]

/-- Writes, answers and refusals leave no trace in the server cache: it holds
the updates of the server, made in their order. -/
theorem the_server_cache_is_what_the_server_sent {events : List RepoEvent} {repo : FRepo}
    (hplain : ∀ e ∈ events, PlainEvent e) (hrun : run step .init events = some repo)
    {view : FViewCache} (hview : repo.view = some view) :
    PathTree.SameLeaves view.cachedServerSnap (events.foldl received .empty) ∧
      PathTree.Named PlainAscii view.cachedServerSnap :=
  ⟨(receives_init hrun).server view hview, ((plainRepo_run hplain hrun).view view hview).server.2⟩

/-- A record is on the server, a second one is saved and the first one gets a
cover. The server sends the save and takes it. -/
def takenSave : List RepoEvent :=
  [.dataUpdate [] (textAt ["1", "title"] "Dune"), .set "2" [] (textAt ["title"] "Ubik"),
    .set "1" ["cover"] (textAt [] "dune.jpg"), .dataUpdate ["2"] (textAt ["title"] "Ubik"),
    .ack 0 true]

theorem plain_takenSave : ∀ e ∈ takenSave, PlainEvent e := by
  intro e he
  simp only [takenSave, List.mem_cons, List.not_mem_nil, or_false] at he
  rcases he with rfl | rfl | rfl | rfl | rfl
  · exact ⟨by decide, named_textAt (by decide +kernel) _⟩
  · exact ⟨by decide +kernel, named_textAt (by decide +kernel) _⟩
  · exact ⟨by decide +kernel, named_textAt (by decide) _⟩
  · exact ⟨by decide +kernel, named_textAt (by decide +kernel) _⟩
  · trivial

theorem the_taken_save_is_in_the_server_cache :
    ∃ repo view, run step .init takenSave = some repo ∧ repo.view = some view ∧
      PathTree.leafAt ["2", "title"] view.cachedServerSnap = some (.string "Ubik") ∧
      PathTree.leafAt ["1", "cover"] view.cachedServerSnap = none := by
  have hview : ((run step .init takenSave).bind FRepo.view).isSome = true := by decide +kernel
  obtain ⟨view, hview⟩ := Option.isSome_iff_exists.mp hview
  obtain ⟨repo, hrun, hview⟩ := Option.bind_eq_some_iff.mp hview
  have hsent := (the_server_cache_is_what_the_server_sent plain_takenSave hrun hview).1
  refine ⟨repo, view, hrun, hview, ?_, ?_⟩
  · rw [hsent]
    decide +kernel
  · rw [hsent]
    decide +kernel

/-- Whatever the writes, answers and updates so far, the observer was last shown
the node that the server sent, with the pending writes made on it in order. -/
theorem the_observer_sees_the_server_under_the_pending_writes {events : List RepoEvent}
    {repo : FRepo} (hplain : ∀ e ∈ events, PlainEvent e)
    (hturn : Meets step (fun _ => InTurn) [] .init events)
    (hclear : Throughout step Clear .init events) (hrun : run step .init events = some repo)
    {view : FViewCache} (hview : repo.view = some view) :
    ∃ snapshot, repo.shown.getLast? = some snapshot ∧
      PathTree.SameLeaves snapshot (getChild treePath
        (PathTree.setAll (writesOf repo.pendingWriteTree.allWrites)
          (serverRoot (events.foldl received .empty)))) ∧
      PathTree.Named PlainAscii snapshot := by
  have hcurrent : Current repo := invariant_of_throughout Current Clear
    (fun _ _ _ h hc hc' ht hs => current_step h hc hc' ht hs) current_init hclear hturn hrun
  obtain ⟨snapshot, hlast, hsame⟩ := hcurrent.sound.last view hview
  have hshown := (plainRepo_run hplain hrun).shown snapshot (List.mem_of_getLast? hlast)
  refine ⟨snapshot, hlast, ?_, hshown.2⟩
  have hagrees := hcurrent.agrees view hview
  have hlayered := (hcurrent.layered.applyToNode (serverRoot view.cachedServerSnap)).get treePath
  have hmade := (sameLeaves_layer (hclear.last hrun view hview)).get treePath
  have hsent := sameLeaves_serverRoot ((receives_init hrun).server view hview)
  exact ((hsame.trans hagrees).trans (hlayered.trans hmade)).trans
    ((hsent.setAll _).get treePath)

theorem the_taken_save_is_seen_with_the_cover :
    ∃ repo view snapshot, run step .init takenSave = some repo ∧ repo.view = some view ∧
      repo.shown.getLast? = some snapshot ∧
      PathTree.leafAt ["1", "title"] snapshot = some (.string "Dune") ∧
      PathTree.leafAt ["1", "cover"] snapshot = some (.string "dune.jpg") ∧
      PathTree.leafAt ["2", "title"] snapshot = some (.string "Ubik") := by
  have hview : ((run step .init takenSave).bind FRepo.view).isSome = true := by decide +kernel
  obtain ⟨view, hview⟩ := Option.isSome_iff_exists.mp hview
  obtain ⟨repo, hrun, hview⟩ := Option.bind_eq_some_iff.mp hview
  have hturn : Meets step (fun _ => InTurn) [] .init takenSave := by decide +kernel
  have hclear : Throughout step Clear .init takenSave := by decide +kernel
  obtain ⟨snapshot, hlast, hsame, _⟩ :=
    the_observer_sees_the_server_under_the_pending_writes plain_takenSave hturn hclear hrun hview
  have hpending : (run step .init takenSave).map
      (fun repo => writesOf repo.pendingWriteTree.allWrites) =
      some [(["books", "1", "cover"], .leaf (.string "dune.jpg"))] := by rfl
  rw [hrun, Option.map_some, Option.some.injEq] at hpending
  rw [hpending] at hsame
  refine ⟨repo, view, snapshot, hrun, hview, hlast, ?_, ?_, ?_⟩
  · rw [hsame]
    decide +kernel
  · rw [hsame]
    decide +kernel
  · rw [hsame]
    decide +kernel

end xellissime_book.server_under_writes
