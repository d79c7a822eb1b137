-- The writes that the database client holds together until the server answers
-- (Pods/FirebaseDatabase, FCompoundWrite.m): a tree of nodes, each at the path
-- where it is written. Applied to a node, it makes all the writes at once.
import Mathlib.Data.List.Infix
import XellissimeBook.Database
import XellissimeBook.ImmutableTree
import XellissimeBook.TreeLeaves

open path_tree
open xellissime_book.database xellissime_book.immutable_tree
open FImmutableTree

namespace xellissime_book.compound_writes

/-! ## Compound writes -/

/-- `FCompoundWrite`: the tree of the nodes that are written, each at its path. -/
structure FCompoundWrite where
  writeTree : FImmutableTree FNode
  wellKeyed : writeTree.WellKeyed
  flat : writeTree.Flat

/-- `relativePathFrom:to:`, for an outer path that contains the inner one. Any
other one raises, and none reaches it here. -/
def relativePathFrom (outer inner : List String) : List String := inner.drop outer.length

theorem relativePathFrom_append (p q : List String) : relativePathFrom p (p ++ q) = q := by
  simp [relativePathFrom]

namespace FCompoundWrite

/-- `emptyWrite`. -/
def emptyWrite : FCompoundWrite := ⟨.empty, wellKeyed_empty, flat_empty⟩

/-- The write of one node at the root. -/
def rootWrite (node : FNode) : FCompoundWrite :=
  ⟨.node (some node) [], wellKeyed_leaf node, flat_leaf node⟩

theorem flat_setValue {t : FImmutableTree FNode} (h : t.Flat) {r : List String} {v w : FNode}
    (hv : valueAtPath r t = some v) : (setValue w r t).Flat := by
  intro p q u hp hpq hne
  rw [valueAtPath_setValue] at hp ⊢
  by_cases hpr : p = r
  · subst hpr
    rw [if_neg (Ne.symm hne)]
    exact h p q v hv hpq hne
  · rw [if_neg hpr] at hp
    have hq := h p q u hp hpq hne
    by_cases hqr : q = r
    · subst hqr
      rw [hq] at hv
      cases hv
    · rw [if_neg hqr, hq]

theorem flat_setTree {t : FImmutableTree FNode} (h : t.Flat) {newTree : FImmutableTree FNode}
    (hn : newTree.Flat) {path : List String}
    (hnone : ∀ r, r <+: path → valueAtPath r t = none) : (setTree newTree path t).Flat := by
  intro p q v hp hpq hne
  by_cases hq : path <+: q
  · obtain ⟨s, rfl⟩ := hq
    rw [valueAtPath_setTree_append]
    by_cases hpp : path <+: p
    · obtain ⟨r, rfl⟩ := hpp
      rw [valueAtPath_setTree_append] at hp
      apply hn r s v hp
      · exact (List.prefix_append_right_inj path).mp hpq
      · simpa using hne
    · -- a value above the path of the new tree would be in the way
      rw [valueAtPath_setTree_of_not_below newTree hpp] at hp
      have hpath : p <+: path := by
        rcases List.prefix_or_prefix_of_prefix hpq (List.prefix_append path s) with h1 | h1
        · exact h1
        · exact absurd h1 hpp
      rw [hnone p hpath] at hp
      cases hp
  · have hpp : ¬ path <+: p := fun h' => hq (h'.trans hpq)
    rw [valueAtPath_setTree_of_not_below newTree hpp] at hp
    rw [valueAtPath_setTree_of_not_below newTree hq]
    exact h p q v hp hpq hne

/-- `addWrite:atPath:`. -/
def addWrite (newNode : FNode) (path : List String) (w : FCompoundWrite) : FCompoundWrite :=
  if path = [] then rootWrite newNode
  else
    match h : w.writeTree.findRootMostValueAndPath path with
    | some rootMost =>
      let relativePath := relativePathFrom rootMost.1 path
      let value := updateChild relativePath newNode rootMost.2
      { writeTree := w.writeTree.setValue value rootMost.1
        wellKeyed := w.wellKeyed.setValue value rootMost.1
        flat := flat_setValue w.flat (valueAtPath_of_findRootMost w.flat h).2 }
    | none =>
      { writeTree := setTree (.node (some newNode) []) path w.writeTree
        wellKeyed := w.wellKeyed.setTree (wellKeyed_leaf newNode) path
        flat := flat_setTree w.flat (flat_leaf newNode)
          (valueAtPath_of_findRootMost_none w.flat h) }

theorem flat_setTree_empty {t : FImmutableTree FNode} (h : t.Flat) (path : List String) :
    (setTree .empty path t).Flat := by
  intro p q v hp hpq hne
  by_cases hq : path <+: q
  · obtain ⟨s, rfl⟩ := hq
    rw [valueAtPath_setTree_append, valueAtPath_empty]
  · have hpp : ¬ path <+: p := fun h' => hq (h'.trans hpq)
    rw [valueAtPath_setTree_of_not_below _ hpp] at hp
    rw [valueAtPath_setTree_of_not_below _ hq]
    exact h p q v hp hpq hne

/-- `removeWriteAtPath:`. -/
def removeWriteAtPath (path : List String) (w : FCompoundWrite) : FCompoundWrite :=
  if path = [] then emptyWrite
  else
    { writeTree := setTree .empty path w.writeTree
      wellKeyed := w.wellKeyed.setTree wellKeyed_empty path
      flat := flat_setTree_empty w.flat path }

/-- `completeNodeAtPath:`. -/
def completeNodeAtPath (path : List String) (w : FCompoundWrite) : Option FNode :=
  (w.writeTree.findRootMostValueAndPath path).map fun rootMost =>
    getChild (relativePathFrom rootMost.1 path) rootMost.2

/-- `hasCompleteWriteAtPath:`. -/
def hasCompleteWriteAtPath (path : List String) (w : FCompoundWrite) : Bool :=
  (w.completeNodeAtPath path).isSome

/-- `childCompoundWriteAtPath:`. -/
def childCompoundWriteAtPath (path : List String) (w : FCompoundWrite) : FCompoundWrite :=
  if path = [] then w
  else
    match w.completeNodeAtPath path with
    | some shadowingNode => rootWrite shadowingNode
    | none =>
      { writeTree := w.writeTree.subtreeAtPath path
        wellKeyed := w.wellKeyed.subtreeAtPath path
        flat := w.flat.subtreeAtPath path }

/-- `isEmpty`. -/
def isEmpty (w : FCompoundWrite) : Bool := w.writeTree.isEmpty

mutual

/-- `applySubtreeWrite:atPath:toNode:`. There is no priority to write here. -/
def applySubtreeWrite (relativePath : List String) (node : FNode) :
    FImmutableTree FNode → FNode
  | .node (some value) _ => updateChild relativePath value node
  | .node none children => applyChildren relativePath node children

/-- The loop over the children. -/
def applyChildren (relativePath : List String) (node : FNode) :
    List (String × FImmutableTree FNode) → FNode
  | [] => node
  | (childKey, childTree) :: rest =>
    applyChildren relativePath
      (applySubtreeWrite (relativePath ++ [childKey]) node childTree) rest

end

/-- `applyToNode:`. -/
def applyToNode (w : FCompoundWrite) (node : FNode) : FNode :=
  applySubtreeWrite [] node w.writeTree

/-! ## The written nodes -/

/-- The node that the compound write has for a path itself. -/
def writeAt (w : FCompoundWrite) (path : List String) : Option FNode :=
  valueAtPath path w.writeTree

theorem writeAt_emptyWrite (path : List String) : emptyWrite.writeAt path = none :=
  valueAtPath_empty path

/-- No write stands at the path or above it. -/
def Unshadowed (w : FCompoundWrite) (path : List String) : Prop :=
  ∀ r, r <+: path → w.writeAt r = none

theorem writeAt_below {w : FCompoundWrite} {p q : List String} {v : FNode}
    (h : w.writeAt p = some v) (hp : p <+: q) (hne : p ≠ q) : w.writeAt q = none :=
  w.flat p q v h hp hne

theorem completeNodeAtPath_append {w : FCompoundWrite} {r : List String} {v : FNode}
    (h : w.writeAt r = some v) (s : List String) :
    w.completeNodeAtPath (r ++ s) = some (getChild s v) := by
  rw [completeNodeAtPath, findRootMost_of_prefix w.flat (List.prefix_append r s) h]
  simp [relativePathFrom_append]

theorem completeNodeAtPath_eq_none_iff {w : FCompoundWrite} {p : List String} :
    w.completeNodeAtPath p = none ↔ w.Unshadowed p := by
  rw [completeNodeAtPath, Option.map_eq_none_iff]
  exact ⟨valueAtPath_of_findRootMost_none w.flat, findRootMost_eq_none⟩

theorem writeAt_addWrite_of_shadowed {w : FCompoundWrite} {r s : List String} {v : FNode}
    (h : w.writeAt r = some v) (n : FNode) (p : List String) :
    (w.addWrite n (r ++ s)).writeAt p =
      if p = r then some (PathTree.set s n v) else w.writeAt p := by
  unfold addWrite
  by_cases hpath : r ++ s = []
  · rw [if_pos hpath]
    obtain ⟨rfl, rfl⟩ := List.append_eq_nil_iff.mp hpath
    by_cases hp : p = []
    · simp [hp, writeAt, rootWrite, valueAtPath, value, PathTree.set]
    · rw [if_neg hp, writeAt_below h List.nil_prefix (Ne.symm hp)]
      exact flat_leaf n [] p n rfl List.nil_prefix (Ne.symm hp)
  · have hfound := findRootMost_of_prefix w.flat (List.prefix_append r s) h
    rw [if_neg hpath]
    split
    · rename_i rootMost hroot
      rw [hfound] at hroot
      cases hroot
      simp only [writeAt, valueAtPath_setValue, relativePathFrom_append]
      rfl
    · rename_i hnone
      rw [hfound] at hnone
      cases hnone

theorem writeAt_addWrite_of_unshadowed {w : FCompoundWrite} {path : List String}
    (h : w.Unshadowed path) (n : FNode) (p : List String) :
    (w.addWrite n path).writeAt p =
      if path <+: p then (if p = path then some n else none) else w.writeAt p := by
  have hleaf : ∀ q, valueAtPath q (.node (some n) []) = if q = [] then some n else none := by
    intro q
    cases q <;> rfl
  unfold addWrite
  by_cases hpath : path = []
  · subst hpath
    rw [if_pos rfl, if_pos List.nil_prefix]
    exact hleaf p
  · rw [if_neg hpath]
    split
    · rename_i rootMost hroot
      obtain ⟨hr, hv⟩ := valueAtPath_of_findRootMost w.flat hroot
      have hnone := h _ hr
      rw [writeAt, hv] at hnone
      cases hnone
    · by_cases hp : path <+: p
      · obtain ⟨s, rfl⟩ := hp
        rw [if_pos (List.prefix_append path s)]
        simp only [writeAt]
        rw [valueAtPath_setTree_append, hleaf]
        simp
      · rw [if_neg hp]
        exact valueAtPath_setTree_of_not_below _ hp _

theorem writeAt_removeWriteAtPath (w : FCompoundWrite) (path p : List String) :
    (w.removeWriteAtPath path).writeAt p = if path <+: p then none else w.writeAt p := by
  unfold removeWriteAtPath
  by_cases hpath : path = []
  · subst hpath
    rw [if_pos rfl, if_pos List.nil_prefix]
    exact valueAtPath_empty p
  · rw [if_neg hpath]
    by_cases hp : path <+: p
    · obtain ⟨s, rfl⟩ := hp
      rw [if_pos (List.prefix_append path s)]
      exact (valueAtPath_setTree_append _ path s _).trans (valueAtPath_empty s)
    · rw [if_neg hp]
      exact valueAtPath_setTree_of_not_below _ hp _

/-! ## What applying the writes leaves -/

mutual

/-- The written nodes with their paths, in the order of `applySubtreeWrite:`. -/
def subtreeWrites (relativePath : List String) :
    FImmutableTree FNode → List (List String × FNode)
  | .node (some value) _ => [(relativePath, value)]
  | .node none children => childWrites relativePath children

def childWrites (relativePath : List String) :
    List (String × FImmutableTree FNode) → List (List String × FNode)
  | [] => []
  | (childKey, childTree) :: rest =>
    subtreeWrites (relativePath ++ [childKey]) childTree ++ childWrites relativePath rest

end

theorem childWrites_eq (relativePath : List String) (cs : List (String × FImmutableTree FNode)) :
    childWrites relativePath cs = cs.flatMap fun c => subtreeWrites (relativePath ++ [c.1]) c.2 := by
  induction cs with
  | nil => rfl
  | cons c rest ih => rw [childWrites, ih, List.flatMap_cons]

theorem applySubtreeWrite_eq {t : FImmutableTree FNode} (h : t.WellKeyed)
    (relativePath : List String) (node : FNode) :
    applySubtreeWrite relativePath node t =
      PathTree.setAll (subtreeWrites relativePath t) node := by
  induction h generalizing relativePath node with
  | node value cs hn hcs ih =>
    cases value with
    | some value => rfl
    | none =>
      rw [applySubtreeWrite, subtreeWrites]
      clear hn hcs
      induction cs generalizing node with
      | nil => rfl
      | cons c rest ihrest =>
        rw [applyChildren, childWrites, PathTree.setAll_append, ih c List.mem_cons_self]
        exact ihrest (fun d hd => ih d (List.mem_cons_of_mem c hd)) _

theorem childTree_of_mem {cs : List (String × FImmutableTree FNode)} {value : Option FNode}
    (hn : (cs.map Prod.fst).Nodup) {c : String × FImmutableTree FNode} (hc : c ∈ cs) :
    (FImmutableTree.node value cs).childTree c.1 = c.2 := by
  have hk := (getKey_eq_some_iff (v := c.2) hn).mpr hc
  simp [childTree, children, hk]

theorem flat_childTree {t : FImmutableTree FNode} (h : t.Flat) (k : String) :
    (t.childTree k).Flat := by
  have hsub := h.subtreeAtPath [k]
  rwa [subtreeAtPath_cons] at hsub

theorem mem_subtreeWrites_iff {t : FImmutableTree FNode} (h : t.WellKeyed) (hf : t.Flat)
    (relativePath : List String) (e : List String × FNode) :
    e ∈ subtreeWrites relativePath t ↔
      ∃ r, e.1 = relativePath ++ r ∧ valueAtPath r t = some e.2 := by
  induction h generalizing relativePath with
  | node value cs hn hcs ih =>
    cases value with
    | some value =>
      rw [subtreeWrites, List.mem_singleton]
      constructor
      · rintro rfl
        exact ⟨[], by simp, rfl⟩
      · rintro ⟨r, hpath, hv⟩
        by_cases hr : r = []
        · subst hr
          rw [List.append_nil] at hpath
          exact Prod.ext hpath (Option.some.inj hv).symm
        · rw [hf [] r value rfl List.nil_prefix (Ne.symm hr)] at hv
          cases hv
    | none =>
      rw [subtreeWrites, childWrites_eq, List.mem_flatMap]
      have hchild : ∀ c ∈ cs, (FImmutableTree.node none cs).childTree c.1 = c.2 :=
        fun c hc => childTree_of_mem hn hc
      have hmem : ∀ c ∈ cs, (e ∈ subtreeWrites (relativePath ++ [c.1]) c.2 ↔
          ∃ r, e.1 = relativePath ++ [c.1] ++ r ∧ valueAtPath r c.2 = some e.2) := by
        intro c hc
        have hfc := flat_childTree hf c.1
        rw [hchild c hc] at hfc
        exact ih c hc hfc _
      constructor
      · rintro ⟨c, hc, he⟩
        obtain ⟨r, hpath, hv⟩ := (hmem c hc).mp he
        refine ⟨c.1 :: r, by simpa using hpath, ?_⟩
        rw [valueAtPath_cons, hchild c hc, hv]
      · rintro ⟨r, hpath, hv⟩
        cases r with
        | nil => cases hv
        | cons k r =>
          rw [valueAtPath_cons] at hv
          cases hk : getKey k cs with
          | none => simp [childTree, children, hk, valueAtPath_empty] at hv
          | some c =>
            have hc : (k, c) ∈ cs := mem_of_getKey hk
            rw [hchild (k, c) hc] at hv
            exact ⟨(k, c), hc, (hmem (k, c) hc).mpr ⟨r, by simpa using hpath, hv⟩⟩

theorem prefix_of_mem_subtreeWrites {t : FImmutableTree FNode} (h : t.WellKeyed)
    (hf : t.Flat) {path : List String} {e : List String × FNode}
    (he : e ∈ subtreeWrites path t) : path <+: e.1 := by
  obtain ⟨r, hr, _⟩ := (mem_subtreeWrites_iff h hf path e).mp he
  rw [hr]
  exact List.prefix_append path r

theorem pairwise_subtreeWrites {t : FImmutableTree FNode} (h : t.WellKeyed) (hf : t.Flat)
    (relativePath : List String) :
    (subtreeWrites relativePath t).Pairwise fun v w => PathTree.ApartPaths v.1 w.1 := by
  induction h generalizing relativePath with
  | node value cs hn hcs ih =>
    cases value with
    | some value => exact List.pairwise_singleton _ _
    | none =>
      rw [subtreeWrites, childWrites_eq, List.pairwise_flatMap]
      have hfc : ∀ c ∈ cs, c.2.Flat := by
        intro c hc
        have hchild : (FImmutableTree.node none cs).childTree c.1 = c.2 := childTree_of_mem hn hc
        rw [← hchild]
        exact flat_childTree hf c.1
      refine ⟨fun c hc => ih c hc (hfc c hc) _, ?_⟩
      have hkeys : cs.Pairwise fun c d => c.1 ≠ d.1 := List.pairwise_map.mp hn
      refine hkeys.imp_of_mem ?_
      intro c d hc hd hne v hv w hw
      obtain ⟨r, hr⟩ := prefix_of_mem_subtreeWrites (hcs c hc) (hfc c hc) hv
      obtain ⟨s, hs⟩ := prefix_of_mem_subtreeWrites (hcs d hd) (hfc d hd) hw
      have happart : PathTree.ApartPaths (relativePath ++ [c.1]) (relativePath ++ [d.1]) := by
        constructor
        · simpa using hne
        · simpa using Ne.symm hne
      rw [← hr, ← hs]
      exact ((happart.append s).symm.append r).symm

/-- A write decides the leaves at its path and below. -/
theorem leafAt_applyToNode_of_write {w : FCompoundWrite} {r : List String} {v : FNode}
    (h : w.writeAt r = some v) (s : List String) (t : FNode) :
    PathTree.leafAt (r ++ s) (w.applyToNode t) = PathTree.leafAt s v := by
  have hmem : (r, v) ∈ subtreeWrites [] w.writeTree :=
    (mem_subtreeWrites_iff w.wellKeyed w.flat [] (r, v)).mpr ⟨r, rfl, h⟩
  rw [applyToNode, applySubtreeWrite_eq w.wellKeyed]
  exact PathTree.leafAt_setAll_of_mem (pairwise_subtreeWrites w.wellKeyed w.flat []) hmem s t

theorem not_above_of_unshadowed {w : FCompoundWrite} {p : List String} (h : w.Unshadowed p) :
    ∀ e ∈ subtreeWrites [] w.writeTree, ¬ e.1 <+: p := by
  intro e he hp
  obtain ⟨r, hr, hv⟩ := (mem_subtreeWrites_iff w.wellKeyed w.flat [] e).mp he
  rw [hr, List.nil_append] at hp
  rw [← writeAt, h r hp] at hv
  cases hv

/-- Where no write stands above and none below leaves anything, the leaves stay. -/
theorem leafAt_applyToNode_of_removals {w : FCompoundWrite} {p : List String}
    (h : w.Unshadowed p) (hempty : ∀ r v, w.writeAt (p ++ r) = some v → v.isEmpty = true)
    (t : FNode) : PathTree.leafAt p (w.applyToNode t) = PathTree.leafAt p t := by
  rw [applyToNode, applySubtreeWrite_eq w.wellKeyed]
  apply PathTree.leafAt_setAll_of_removals (not_above_of_unshadowed h)
  intro e he hp
  obtain ⟨r, hr, hv⟩ := (mem_subtreeWrites_iff w.wellKeyed w.flat [] e).mp he
  obtain ⟨s, hs⟩ := hp
  rw [List.nil_append] at hr
  apply hempty s e.2
  rwa [writeAt, hs, hr]

/-- Above a write that leaves something there is no leaf. -/
theorem leafAt_applyToNode_of_fill {w : FCompoundWrite} {p r : List String} {v : FNode}
    (h : w.Unshadowed p) (hv : w.writeAt (p ++ r) = some v) (hne : v.isEmpty = false)
    (t : FNode) : PathTree.leafAt p (w.applyToNode t) = none := by
  have hmem : (p ++ r, v) ∈ subtreeWrites [] w.writeTree :=
    (mem_subtreeWrites_iff w.wellKeyed w.flat [] (p ++ r, v)).mpr ⟨p ++ r, rfl, hv⟩
  rw [applyToNode, applySubtreeWrite_eq w.wellKeyed]
  exact PathTree.leafAt_setAll_of_write (not_above_of_unshadowed h) hmem
    (List.prefix_append p r) hne t

/-- Where nothing is written at the path or above, no leaf comes up there. -/
theorem leafAt_applyToNode_eq_none {w : FCompoundWrite} {p : List String}
    (h : w.Unshadowed p) {t : FNode} (ht : PathTree.leafAt p t = none) :
    PathTree.leafAt p (w.applyToNode t) = none := by
  by_cases hfill : ∃ r v, w.writeAt (p ++ r) = some v ∧ v.isEmpty = false
  · obtain ⟨r, v, hv, hne⟩ := hfill
    exact leafAt_applyToNode_of_fill h hv hne t
  · rw [leafAt_applyToNode_of_removals h _ t, ht]
    intro r v hv
    by_contra hne
    exact hfill ⟨r, v, hv, by simpa using hne⟩

theorem shadowed_or_unshadowed (w : FCompoundWrite) (path : List String) :
    (∃ r s v, path = r ++ s ∧ w.writeAt r = some v) ∨ w.Unshadowed path := by
  rcases findRootMost_cases w.flat path with ⟨r, v, ⟨s, hs⟩, hv, _⟩ | ⟨hnone, _⟩
  · exact Or.inl ⟨r, s, v, hs.symm, hv⟩
  · exact Or.inr hnone

/-- The leaves at a path depend only on the writes above it and below it. -/
theorem leafAt_applyToNode_congr {w w' : FCompoundWrite} {p : List String}
    (h : ∀ q, q <+: p ∨ p <+: q → w.writeAt q = w'.writeAt q) (t : FNode) :
    PathTree.leafAt p (w.applyToNode t) = PathTree.leafAt p (w'.applyToNode t) := by
  rcases w.shadowed_or_unshadowed p with ⟨r, s, v, rfl, hv⟩ | hun
  · have hv' := h r (Or.inl (List.prefix_append r s))
    rw [leafAt_applyToNode_of_write hv, leafAt_applyToNode_of_write (hv' ▸ hv)]
  · have hun' : w'.Unshadowed p := fun r hr => by rw [← h r (Or.inl hr), hun r hr]
    have hbelow : ∀ r, w.writeAt (p ++ r) = w'.writeAt (p ++ r) :=
      fun r => h _ (Or.inr (List.prefix_append p r))
    by_cases hfill : ∃ r v, w.writeAt (p ++ r) = some v ∧ v.isEmpty = false
    · obtain ⟨r, v, hv, hne⟩ := hfill
      rw [leafAt_applyToNode_of_fill hun hv hne,
        leafAt_applyToNode_of_fill hun' (hbelow r ▸ hv) hne]
    · have hremovals : ∀ r v, w.writeAt (p ++ r) = some v → v.isEmpty = true := by
        intro r v hv
        by_contra hne
        exact hfill ⟨r, v, hv, by simpa using hne⟩
      rw [leafAt_applyToNode_of_removals hun hremovals,
        leafAt_applyToNode_of_removals hun' fun r v hv => hremovals r v (hbelow r ▸ hv)]

/-- Of the node below, they depend only on the leaf at the path. -/
theorem leafAt_applyToNode_base {w : FCompoundWrite} {p : List String} {t t' : FNode}
    (h : PathTree.leafAt p t = PathTree.leafAt p t') :
    PathTree.leafAt p (w.applyToNode t) = PathTree.leafAt p (w.applyToNode t') := by
  rcases w.shadowed_or_unshadowed p with ⟨r, s, v, rfl, hv⟩ | hun
  · rw [leafAt_applyToNode_of_write hv, leafAt_applyToNode_of_write hv]
  · by_cases hfill : ∃ r v, w.writeAt (p ++ r) = some v ∧ v.isEmpty = false
    · obtain ⟨r, v, hv, hne⟩ := hfill
      rw [leafAt_applyToNode_of_fill hun hv hne, leafAt_applyToNode_of_fill hun hv hne]
    · have hremovals : ∀ r v, w.writeAt (p ++ r) = some v → v.isEmpty = true := by
        intro r v hv
        by_contra hne
        exact hfill ⟨r, v, hv, by simpa using hne⟩
      rw [leafAt_applyToNode_of_removals hun hremovals,
        leafAt_applyToNode_of_removals hun hremovals, h]

/-! ## The writes below a path -/

theorem writeAt_childCompoundWriteAtPath {w : FCompoundWrite} {path : List String}
    (h : w.Unshadowed path) (p : List String) :
    (w.childCompoundWriteAtPath path).writeAt p = w.writeAt (path ++ p) := by
  unfold childCompoundWriteAtPath
  by_cases hpath : path = []
  · rw [if_pos hpath, hpath, List.nil_append]
  · rw [if_neg hpath, completeNodeAtPath_eq_none_iff.mpr h]
    exact valueAtPath_subtreeAtPath path p _

theorem Unshadowed.append {w : FCompoundWrite} {path : List String} (h : w.Unshadowed path)
    {p : List String} (hp : (w.childCompoundWriteAtPath path).Unshadowed p) :
    w.Unshadowed (path ++ p) := by
  intro r hr
  rcases List.prefix_or_prefix_of_prefix hr (List.prefix_append path p) with h1 | ⟨s, rfl⟩
  · exact h r h1
  · rw [← writeAt_childCompoundWriteAtPath h]
    exact hp s ((List.prefix_append_right_inj path).mp hr)

/-- What is written below a path, applied to the node there, leaves what all
the writes leave there. -/
theorem sameLeaves_childCompoundWriteAtPath {w : FCompoundWrite} {path : List String}
    (h : w.Unshadowed path) (t : FNode) :
    PathTree.SameLeaves ((w.childCompoundWriteAtPath path).applyToNode (getChild path t))
      (getChild path (w.applyToNode t)) := by
  have hwrite := writeAt_childCompoundWriteAtPath h
  intro p
  simp only [getChild]
  rw [← PathTree.leafAt_append]
  rcases (w.childCompoundWriteAtPath path).shadowed_or_unshadowed p with
    ⟨r, s, v, rfl, hv⟩ | hun
  · rw [leafAt_applyToNode_of_write hv, ← List.append_assoc,
      leafAt_applyToNode_of_write (hwrite r ▸ hv)]
  · have hbelow : ∀ r, (w.childCompoundWriteAtPath path).writeAt (p ++ r) =
        w.writeAt (path ++ p ++ r) := by
      intro r
      rw [hwrite, List.append_assoc]
    by_cases hfill : ∃ r v, w.writeAt (path ++ p ++ r) = some v ∧ v.isEmpty = false
    · obtain ⟨r, v, hv, hne⟩ := hfill
      rw [leafAt_applyToNode_of_fill hun ((hbelow r).trans hv) hne,
        leafAt_applyToNode_of_fill (h.append hun) hv hne]
    · have hremovals : ∀ r v, w.writeAt (path ++ p ++ r) = some v → v.isEmpty = true := by
        intro r v hv
        by_contra hne
        exact hfill ⟨r, v, hv, by simpa using hne⟩
      rw [leafAt_applyToNode_of_removals (h.append hun) hremovals,
        leafAt_applyToNode_of_removals hun fun r v hv => hremovals r v (hbelow r ▸ hv),
        ← PathTree.leafAt_append]

/-- Below a write there is what it wrote. -/
theorem sameLeaves_completeNodeAtPath {w : FCompoundWrite} {path : List String} {node : FNode}
    (h : w.completeNodeAtPath path = some node) (t : FNode) :
    PathTree.SameLeaves node (getChild path (w.applyToNode t)) := by
  rcases w.shadowed_or_unshadowed path with ⟨r, s, v, rfl, hv⟩ | hun
  · rw [completeNodeAtPath_append hv] at h
    cases h
    intro p
    simp only [getChild]
    rw [← PathTree.leafAt_append, ← PathTree.leafAt_append, List.append_assoc,
      leafAt_applyToNode_of_write hv]
  · rw [completeNodeAtPath_eq_none_iff.mpr hun] at h
    cases h

theorem applyToNode_of_isEmpty {w : FCompoundWrite} (h : w.isEmpty = true) (t : FNode) :
    w.applyToNode t = t := by
  rw [applyToNode, FImmutableTree.isEmpty_iff.mp h]
  rfl

/-! ## What the written nodes keep -/

/-- The written nodes have the property, and their paths are fine. -/
def WritesKeep (Fine : String → Prop) (P : FNode → Prop) (w : FCompoundWrite) : Prop :=
  ∀ p v, w.writeAt p = some v → (∀ k ∈ p, Fine k) ∧ P v

/-- No written node has a key twice or an empty child. -/
abbrev TidyWrites (w : FCompoundWrite) : Prop := w.WritesKeep (fun _ => True) PathTree.Tidy

section
variable {Fine : String → Prop} {P : FNode → Prop}

theorem writesKeep_emptyWrite : emptyWrite.WritesKeep Fine P := by
  intro p v h
  rw [writeAt_emptyWrite] at h
  cases h

theorem WritesKeep.removeWriteAtPath {w : FCompoundWrite} (h : w.WritesKeep Fine P)
    (path : List String) : (w.removeWriteAtPath path).WritesKeep Fine P := by
  intro p v hv
  rw [writeAt_removeWriteAtPath] at hv
  split at hv
  · cases hv
  · exact h p v hv

theorem WritesKeep.childCompoundWriteAtPath {w : FCompoundWrite} (h : w.WritesKeep Fine P)
    {path : List String} (hun : w.Unshadowed path) :
    (w.childCompoundWriteAtPath path).WritesKeep Fine P := by
  intro p v hv
  rw [writeAt_childCompoundWriteAtPath hun] at hv
  obtain ⟨hpath, hnode⟩ := h _ v hv
  exact ⟨fun k hk => hpath k (List.mem_append_right path hk), hnode⟩

variable (hkept : PathTree.Kept Fine P)
include hkept

theorem WritesKeep.addWrite {w : FCompoundWrite} (h : w.WritesKeep Fine P) {n : FNode}
    (hn : P n) {path : List String} (hpath : ∀ k ∈ path, Fine k) :
    (w.addWrite n path).WritesKeep Fine P := by
  intro p v hv
  rcases w.shadowed_or_unshadowed path with ⟨r, s, u, rfl, hu⟩ | hun
  · rw [writeAt_addWrite_of_shadowed hu] at hv
    split at hv
    · rename_i hp
      cases hv
      obtain ⟨hr, hnode⟩ := h r u hu
      exact ⟨hp ▸ hr, hkept.set (fun k hk => hpath k (List.mem_append_right r hk)) hn hnode⟩
    · exact h p v hv
  · rw [writeAt_addWrite_of_unshadowed hun] at hv
    split at hv
    · split at hv
      · rename_i hp
        cases hv
        exact ⟨hp ▸ hpath, hn⟩
      · cases hv
    · exact h p v hv

theorem WritesKeep.completeNodeAtPath {w : FCompoundWrite} (h : w.WritesKeep Fine P)
    {path : List String} {node : FNode} (hnode : w.completeNodeAtPath path = some node) :
    P node := by
  rcases w.shadowed_or_unshadowed path with ⟨r, s, v, rfl, hv⟩ | hun
  · rw [completeNodeAtPath_append hv] at hnode
    cases hnode
    exact hkept.get s (h r v hv).2
  · rw [completeNodeAtPath_eq_none_iff.mpr hun] at hnode
    cases hnode

theorem WritesKeep.applyToNode {w : FCompoundWrite} (h : w.WritesKeep Fine P) {t : FNode}
    (ht : P t) : P (w.applyToNode t) := by
  rw [FCompoundWrite.applyToNode, applySubtreeWrite_eq w.wellKeyed]
  refine hkept.setAll (fun e he => ?_) ht
  obtain ⟨r, hr, hv⟩ := (mem_subtreeWrites_iff w.wellKeyed w.flat [] e).mp he
  rw [hr, List.nil_append]
  exact h r e.2 hv

end

/-! ## One write more -/

/-- No leaf of the node lies strictly above the path. -/
def NoLeafAbove (t : FNode) (path : List String) : Prop :=
  ∀ p, p <+: path → p ≠ path → PathTree.leafAt p t = none

instance (t : FNode) (path : List String) : Decidable (NoLeafAbove t path) :=
  decidable_of_iff (∀ p ∈ path.inits, p ≠ path → PathTree.leafAt p t = none) (by
    simp only [List.mem_inits]
    rfl)

/-- A write that is added comes after the others. -/
theorem sameLeaves_addWrite {w : FCompoundWrite} {t : FNode} {path : List String}
    (h : NoLeafAbove t path) (n : FNode) :
    PathTree.SameLeaves ((w.addWrite n path).applyToNode t)
      (PathTree.set path n (w.applyToNode t)) := by
  intro p
  rcases w.shadowed_or_unshadowed path with ⟨r, s, v, rfl, hv⟩ | hun
  · -- the write goes into the node of the write above it
    have hadd := writeAt_addWrite_of_shadowed (s := s) hv n
    have hnew : (w.addWrite n (r ++ s)).writeAt r = some (PathTree.set s n v) := by
      rw [hadd, if_pos rfl]
    rcases PathTree.path_cases (r ++ s) p with ⟨x, rfl⟩ | ⟨x, hx, hpath⟩ | hapart
    · rw [PathTree.leafAt_set_append, List.append_assoc, leafAt_applyToNode_of_write hnew,
        PathTree.leafAt_set_append]
    · have hprefix : p <+: r ++ s := ⟨x, hpath.symm⟩
      by_cases hr : r <+: p
      · obtain ⟨y, rfl⟩ := hr
        have hs : s = y ++ x := by
          rw [List.append_assoc] at hpath
          exact List.append_cancel_left hpath
        rw [hpath, PathTree.leafAt_set_above hx, ← hpath, leafAt_applyToNode_of_write hnew,
          leafAt_applyToNode_of_write hv, hs, PathTree.leafAt_set_above hx]
      · have hpr : p <+: r := by
          rcases List.prefix_or_prefix_of_prefix hprefix (List.prefix_append r s) with h1 | h1
          · exact h1
          · exact absurd h1 hr
        have hleaf : PathTree.leafAt p t = none := by
          apply h p hprefix
          rintro rfl
          exact hr (List.prefix_append r s)
        have hne : ∀ q, q <+: p → q ≠ r := fun q hq hqr => hr (hqr ▸ hq)
        have hunp : w.Unshadowed p := by
          intro q hq
          by_contra hsome
          obtain ⟨u, hu⟩ := Option.ne_none_iff_exists'.mp hsome
          rw [writeAt_below hu (hq.trans hpr) (hne q hq)] at hv
          cases hv
        have hunp' : (w.addWrite n (r ++ s)).Unshadowed p := by
          intro q hq
          rw [hadd, if_neg (hne q hq), hunp q hq]
        rw [leafAt_applyToNode_eq_none hunp' hleaf, hpath, PathTree.leafAt_set_above hx,
          leafAt_applyToNode_eq_none hunp hleaf, ite_self]
    · rw [PathTree.leafAt_set_of_apart hapart.1 hapart.2]
      by_cases hr : r <+: p
      · obtain ⟨y, rfl⟩ := hr
        rw [leafAt_applyToNode_of_write hnew, leafAt_applyToNode_of_write hv]
        apply PathTree.leafAt_set_of_apart
        · exact fun hsy => hapart.1 ((List.prefix_append_right_inj r).mpr hsy)
        · exact fun hys => hapart.2 ((List.prefix_append_right_inj r).mpr hys)
      · apply leafAt_applyToNode_congr
        intro q hq
        rw [hadd, if_neg]
        rintro rfl
        rcases hq with hq | hq
        · exact hr hq
        · exact hapart.2 (hq.trans (List.prefix_append q s))
  · have hadd := writeAt_addWrite_of_unshadowed hun n
    have hnew : (w.addWrite n path).writeAt path = some n := by
      rw [hadd, if_pos (List.prefix_refl path), if_pos rfl]
    rcases PathTree.path_cases path p with ⟨x, rfl⟩ | ⟨x, hx, rfl⟩ | hapart
    · rw [PathTree.leafAt_set_append, leafAt_applyToNode_of_write hnew]
    · have hprefix : p <+: p ++ x := List.prefix_append p x
      have hlong : ∀ q, q <+: p → ¬ p ++ x <+: q := by
        intro q hq hpq
        have hle := (hpq.trans hq).length_le
        have hx0 := List.length_pos_iff.mpr hx
        rw [List.length_append] at hle
        omega
      have hunp : w.Unshadowed p := fun q hq => hun q (hq.trans hprefix)
      have hunp' : (w.addWrite n (p ++ x)).Unshadowed p := by
        intro q hq
        rw [hadd, if_neg (hlong q hq), hunp q hq]
      have hleaf := h p hprefix (by simpa using hx)
      rw [leafAt_applyToNode_eq_none hunp' hleaf, PathTree.leafAt_set_above hx,
        leafAt_applyToNode_eq_none hunp hleaf, ite_self]
    · rw [PathTree.leafAt_set_of_apart hapart.1 hapart.2]
      apply leafAt_applyToNode_congr
      intro q hq
      rw [hadd, if_neg]
      intro hpq
      rcases hq with hq | hq
      · exact hapart.1 (hpq.trans hq)
      · rcases List.prefix_or_prefix_of_prefix hq hpq with h1 | h1
        · exact hapart.2 h1
        · exact hapart.1 h1

end FCompoundWrite

end xellissime_book.compound_writes
