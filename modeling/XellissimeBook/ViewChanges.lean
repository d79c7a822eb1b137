-- What changes in a view (Pods/FirebaseDatabase, FIndexedFilter.m and the end of
-- FViewProcessor.m). The changes of the children are collected while a node is
-- updated, and a value event is added where something changed.
import Mathlib.Data.Option.Basic
import XellissimeBook.Database
import XellissimeBook.TreeLeaves

open path_tree
open xellissime_book.database

namespace xellissime_book.view_changes

/-! ## Changes -/

inductive FIRDataEventType where
  | childAdded
  | childRemoved
  | childChanged
  | childMoved
  | value
  deriving DecidableEq

/-- `FChange`, before its previous key is looked up. -/
structure FChange where
  type : FIRDataEventType
  node : FNode
  childKey : Option String
  oldNode : Option FNode

def isLeafNode : FNode → Bool
  | .leaf _ => true
  | .branch _ => false

/-- `hasChild:`. -/
def hasChild (childKey : String) (node : FNode) : Bool := !(node.child childKey).isEmpty

def childRemoved (childKey : String) (oldChildSnap : FNode) : FChange :=
  { type := .childRemoved, node := oldChildSnap, childKey := some childKey, oldNode := none }

def childAdded (childKey : String) (newChildSnap : FNode) : FChange :=
  { type := .childAdded, node := newChildSnap, childKey := some childKey, oldNode := none }

def childChanged (childKey : String) (newChildSnap oldChildSnap : FNode) : FChange :=
  { type := .childChanged, node := newChildSnap, childKey := some childKey
    oldNode := some oldChildSnap }

/-- `updateChildIn:forChildKey:newChild:affectedPath:fromSource:accumulator:` of
FIndexedFilter, with the changes that it tracks. -/
def updateChildIn (node : FNode) (childKey : String) (newChildSnap : FNode)
    (affectedPath : List String) : FNode × List FChange :=
  let oldChildSnap := node.child childKey
  if PathTree.isEqual (getChild affectedPath oldChildSnap) (getChild affectedPath newChildSnap) ∧
      oldChildSnap.isEmpty = newChildSnap.isEmpty then
    (node, [])
  else
    let changes :=
      if newChildSnap.isEmpty then
        if hasChild childKey node then [childRemoved childKey oldChildSnap] else []
      else if oldChildSnap.isEmpty then [childAdded childKey newChildSnap]
      else [childChanged childKey newChildSnap oldChildSnap]
    if isLeafNode node ∧ newChildSnap.isEmpty then (node, changes)
    else (PathTree.setChild childKey newChildSnap node, changes)

/-- `updateFullNode:withNewNode:accumulator:` of FIndexedFilter. -/
def updateFullNode (oldSnap newSnap : FNode) : FNode × List FChange :=
  let removed := oldSnap.children.filterMap fun c =>
    if hasChild c.1 newSnap then none else some (childRemoved c.1 c.2)
  let others := newSnap.children.filterMap fun c =>
    if hasChild c.1 oldSnap then
      let oldChildSnap := oldSnap.child c.1
      if PathTree.isEqual oldChildSnap c.2 then none
      else some (childChanged c.1 c.2 oldChildSnap)
    else some (childAdded c.1 c.2)
  (newSnap, removed ++ others)

/-- `maybeAddValueFromOldViewCache:newViewCache:changes:`, from an event snap
that was complete to one that is. -/
def maybeAddValue (oldEventSnap eventSnap : FNode) (changes : List FChange) : List FChange :=
  let isLeafOrEmpty := isLeafNode eventSnap || eventSnap.isEmpty
  if changes.length > 0 ∨ (isLeafOrEmpty ∧ ¬ PathTree.isEqual eventSnap oldEventSnap) then
    changes ++ [{ type := .value, node := eventSnap, childKey := none, oldNode := none }]
  else changes

/-! ## The changes are the difference -/

/-- What happened to one child. -/
def childChange (old new : FNode) (k : String) : Option FChange :=
  if (new.child k).isEmpty then
    if (old.child k).isEmpty then none else some (childRemoved k (old.child k))
  else if (old.child k).isEmpty then some (childAdded k (new.child k))
  else if PathTree.isEqual (old.child k) (new.child k) then none
  else some (childChanged k (new.child k) (old.child k))

/-- The changes are those of the children, each of them once. -/
structure Difference (old new : FNode) (changes : List FChange) : Prop where
  mem_iff : ∀ c, c ∈ changes ↔ ∃ k, childChange old new k = some c
  nodup : (changes.map (·.childKey)).Nodup

theorem childKey_of_childChange {old new : FNode} {k : String} {c : FChange}
    (h : childChange old new k = some c) : c.childKey = some k ∧ c.type ≠ .value := by
  unfold childChange at h
  split at h
  · split at h
    · cases h
    · cases h; simp [childRemoved]
  · split at h
    · cases h; simp [childAdded]
    · split at h
      · cases h
      · cases h; simp [childChanged]

theorem childChange_eq_none_iff {old new : FNode} (ho : old.Tidy) (hn : new.Tidy) (k : String) :
    childChange old new k = none ↔ PathTree.SameLeaves (old.child k) (new.child k) := by
  have hempty := fun h : PathTree.SameLeaves (old.child k) (new.child k) =>
    h.isEmpty_eq (ho.child k).pruned (hn.child k).pruned
  unfold childChange
  by_cases hne : (new.child k).isEmpty = true
  · by_cases hoe : (old.child k).isEmpty = true
    · rw [if_pos hne, if_pos hoe, PathTree.isEmpty_iff.mp hne, PathTree.isEmpty_iff.mp hoe]
      simp [PathTree.sameLeaves_refl]
    · rw [if_pos hne, if_neg hoe]
      simp only [reduceCtorEq, false_iff]
      exact fun h => hoe ((hempty h).trans hne)
  · by_cases hoe : (old.child k).isEmpty = true
    · rw [if_neg hne, if_pos hoe]
      simp only [reduceCtorEq, false_iff]
      exact fun h => hne ((hempty h).symm.trans hoe)
    · rw [if_neg hne, if_neg hoe, ← PathTree.isEqual_iff (ho.child k) (hn.child k)]
      simp

theorem childChange_eq_none_of_eq {old new : FNode} (ho : old.Tidy) {k : String}
    (h : new.child k = old.child k) : childChange old new k = none := by
  have hself := (PathTree.isEqual_iff (ho.child k) (ho.child k)).mpr
    (PathTree.sameLeaves_refl _)
  unfold childChange
  rw [h]
  by_cases hoe : (old.child k).isEmpty = true
  · simp [hoe]
  · simp [hoe, hself]

theorem difference_refl {node : FNode} (h : node.Tidy) : Difference node node [] := by
  refine ⟨fun c => ?_, by simp⟩
  simp [childChange_eq_none_of_eq h rfl]

theorem Difference.congr {old new new' : FNode} {changes : List FChange}
    (h : Difference old new changes) (hchild : ∀ k, new'.child k = new.child k) :
    Difference old new' changes := by
  have hsame : childChange old new' = childChange old new := by
    funext k
    simp only [childChange, hchild]
  exact ⟨fun c => by rw [hsame, h.mem_iff], h.nodup⟩

/-- Where only one child can have changed. -/
theorem difference_of_child {old new : FNode} {k : String}
    (h : ∀ j, j ≠ k → childChange old new j = none) :
    Difference old new (childChange old new k).toList := by
  constructor
  · intro c
    rw [Option.mem_toList]
    constructor
    · exact fun hc => ⟨k, hc⟩
    · rintro ⟨j, hj⟩
      by_cases hjk : j = k
      · exact hjk ▸ hj
      · rw [h j hjk] at hj
        cases hj
  · cases childChange old new k <;> simp

theorem difference_updateChildIn {node newChildSnap : FNode} (ht : node.Tidy)
    (hn : newChildSnap.Tidy) (childKey : String) (affectedPath : List String) :
    Difference node (updateChildIn node childKey newChildSnap affectedPath).1
      (updateChildIn node childKey newChildSnap affectedPath).2 := by
  simp only [updateChildIn]
  split
  · exact difference_refl ht
  · rename_i hdiffer
    have hother : ∀ j, j ≠ childKey →
        childChange node (PathTree.setChild childKey newChildSnap node) j = none :=
      fun j hj => childChange_eq_none_of_eq ht (PathTree.child_setChild_of_ne hj _ _)
    have hnew := PathTree.child_setChild_self childKey newChildSnap node
    split
    · -- a leaf has no child that could be removed
      rename_i hleaf
      obtain ⟨hleaf, hempty⟩ := hleaf
      cases node with
      | branch cs => cases hleaf
      | leaf v =>
        have hnone : hasChild childKey (.leaf v) = false := rfl
        simp only [hempty, hnone, if_true, Bool.false_eq_true, if_false]
        exact difference_refl ht
    · have hd := difference_of_child hother
      convert hd using 1
      unfold childChange
      rw [hnew]
      by_cases hempty : newChildSnap.isEmpty = true
      · by_cases hold : (node.child childKey).isEmpty = true
        · simp [hempty, hold, hasChild]
        · simp [hempty, hold, hasChild]
      · by_cases hold : (node.child childKey).isEmpty = true
        · simp [hempty, hold]
        · have hne : ¬ PathTree.isEqual (node.child childKey) newChildSnap = true := by
            intro he
            rw [PathTree.isEqual_iff (ht.child childKey) hn] at he
            apply hdiffer
            refine ⟨?_, he.isEmpty_eq (ht.child childKey).pruned hn.pruned⟩
            simp only [getChild]
            rw [PathTree.isEqual_iff ((ht.child childKey).get _) (hn.get _)]
            exact he.get affectedPath
          simp [hempty, hold, hne]

theorem kept_updateChildIn {Fine : String → Prop} {P : FNode → Prop}
    (hkept : PathTree.Kept Fine P) {node newChildSnap : FNode} (ht : P node)
    (hn : P newChildSnap) {childKey : String} (hkey : Fine childKey)
    (affectedPath : List String) :
    P (updateChildIn node childKey newChildSnap affectedPath).1 := by
  simp only [updateChildIn]
  split
  · exact ht
  · split
    · exact ht
    · exact hkept.setChild hkey hn ht

/-- `updateChildIn:` sets the child, if the two children are alike where they
are alike at the affected path. -/
theorem sameLeaves_updateChildIn {node newChildSnap : FNode} (ht : node.Tidy)
    (hn : newChildSnap.Tidy) {childKey : String} {affectedPath : List String}
    (h : PathTree.SameLeaves (getChild affectedPath (node.child childKey))
        (getChild affectedPath newChildSnap) →
      PathTree.SameLeaves (node.child childKey) newChildSnap) :
    PathTree.SameLeaves (updateChildIn node childKey newChildSnap affectedPath).1
      (PathTree.setChild childKey newChildSnap node) := by
  simp only [updateChildIn]
  split
  · rename_i hequal
    have hget := (PathTree.isEqual_iff ((ht.child childKey).get affectedPath)
      (hn.get affectedPath)).mp hequal.1
    have hset := PathTree.sameLeaves_set_of_get (p := [childKey]) hn.pruned (h hget).symm
    rw [PathTree.set_cons] at hset
    exact hset.symm
  · split
    · rename_i hleaf
      obtain ⟨hleaf, hempty⟩ := hleaf
      cases node with
      | branch cs => cases hleaf
      | leaf v =>
        simp only [PathTree.setChild, hempty, if_true]
        exact PathTree.sameLeaves_refl _
    · exact PathTree.sameLeaves_refl _

theorem sublist_keys_filterMap {f : String × FNode → Option FChange}
    (hf : ∀ e c, f e = some c → c.childKey = some e.1) (l : List (String × FNode)) :
    ((l.filterMap f).map (·.childKey)).Sublist (l.map fun e => some e.1) := by
  induction l with
  | nil => simp
  | cons e rest ih =>
    rw [List.filterMap_cons, List.map_cons]
    cases he : f e with
    | none => exact ih.cons _
    | some c =>
      rw [List.map_cons, hf e c he]
      exact ih.cons_cons _

theorem difference_updateFullNode {oldSnap newSnap : FNode} (ho : oldSnap.Tidy)
    (hn : newSnap.Tidy) :
    Difference oldSnap (updateFullNode oldSnap newSnap).1 (updateFullNode oldSnap newSnap).2 := by
  have hmem : ∀ {t : FNode}, t.Tidy → ∀ c ∈ t.children, t.child c.1 = c.2 ∧ c.2.isEmpty = false := by
    intro t ht c hc
    obtain ⟨hchild, hne⟩ := ht.of_mem_children hc
    refine ⟨hchild, ?_⟩
    by_contra he
    exact hne (PathTree.isEmpty_iff.mp (by simpa using he))
  have hkeys : ∀ {t : FNode}, t.Tidy → (t.children.map fun e => some e.1).Nodup := by
    intro t ht
    have hmap := ht.wellKeyed.nodup_children.map (Option.some_injective String)
    rwa [List.map_map] at hmap
  have hin : ∀ {t : FNode} {k : String}, ¬ (t.child k).isEmpty = true →
      (k, t.child k) ∈ t.children := by
    intro t k hne
    exact PathTree.mem_children_of_child fun he => hne (PathTree.isEmpty_iff.mpr he)
  constructor
  · intro c
    simp only [updateFullNode, List.mem_append, List.mem_filterMap]
    constructor
    · rintro (⟨e, he, hc⟩ | ⟨e, he, hc⟩)
      · obtain ⟨hchild, hne⟩ := hmem ho e he
        refine ⟨e.1, ?_⟩
        split at hc
        · cases hc
        · rename_i hnew
          have hempty : (newSnap.child e.1).isEmpty = true := by simpa [hasChild] using hnew
          cases hc
          simp [childChange, hempty, hchild, hne]
      · obtain ⟨hchild, hne⟩ := hmem hn e he
        refine ⟨e.1, ?_⟩
        split at hc
        · rename_i hold
          have hold : (oldSnap.child e.1).isEmpty = false := by simpa [hasChild] using hold
          split at hc
          · cases hc
          · rename_i hdiffer
            cases hc
            simp [childChange, hchild, hne, hold, hdiffer]
        · rename_i hold
          have hold : (oldSnap.child e.1).isEmpty = true := by simpa [hasChild] using hold
          cases hc
          simp [childChange, hchild, hne, hold]
    · rintro ⟨k, hk⟩
      unfold childChange at hk
      split at hk
      · rename_i hnew
        split at hk
        · cases hk
        · rename_i hold
          exact Or.inl ⟨(k, oldSnap.child k), hin hold, by simp [hasChild, hnew, ← hk]⟩
      · rename_i hnew
        refine Or.inr ⟨(k, newSnap.child k), hin hnew, ?_⟩
        split at hk
        · rename_i hold
          simp [hasChild, hold, ← hk]
        · rename_i hold
          split at hk
          · cases hk
          · rename_i hdiffer
            simp [hasChild, hold, hdiffer, ← hk]
  · simp only [updateFullNode, List.map_append]
    rw [List.nodup_append]
    refine ⟨?_, ?_, ?_⟩
    · apply (sublist_keys_filterMap _ oldSnap.children).nodup
      · exact hkeys ho
      · intro e c hc
        split at hc
        · cases hc
        · cases hc; rfl
    · apply (sublist_keys_filterMap _ newSnap.children).nodup
      · exact hkeys hn
      · intro e c hc
        split at hc
        · split at hc
          · cases hc
          · cases hc; rfl
        · cases hc; rfl
    · -- a removed key has no new child
      intro a ha b hb hab
      simp only [List.mem_map, List.mem_filterMap] at ha hb
      obtain ⟨c, ⟨e, he, hc⟩, rfl⟩ := ha
      obtain ⟨d, ⟨e', he', hd⟩, rfl⟩ := hb
      split at hc
      · cases hc
      · rename_i hnew
        obtain ⟨hchild, hne⟩ := hmem hn e' he'
        have hkey : d.childKey = some e'.1 := by
          split at hd
          · split at hd
            · cases hd
            · cases hd; rfl
          · cases hd; rfl
        cases hc
        have hsame : e.1 = e'.1 := Option.some.inj (hab.trans hkey)
        rw [hsame] at hnew
        simp [hasChild, hchild, hne] at hnew

/-! ## The value event -/

/-- The events of a registration for values. -/
def valueEvents (changes : List FChange) : List FNode :=
  (changes.filter (·.type = .value)).map (·.node)

/-- A node with children has no other leaf at its root than one with the same
children. -/
theorem root_of_children {old new : FNode} (hn : new.Tidy)
    (hroot : ¬ (isLeafNode new || new.isEmpty) = true)
    (h : ∀ k, PathTree.SameLeaves (old.child k) (new.child k)) :
    PathTree.leafAt [] old = PathTree.leafAt [] new := by
  cases new with
  | leaf v => simp [isLeafNode] at hroot
  | branch ds =>
    cases old with
    | branch cs => rfl
    | leaf v =>
      have hne : (PathTree.branch ds : FNode) ≠ .empty := by
        intro he
        apply hroot
        simp [PathTree.isEmpty_iff.mpr he]
      obtain ⟨p, w, hw⟩ := hn.pruned.exists_leaf hne
      cases p with
      | nil => cases hw
      | cons k p =>
        rw [PathTree.leafAt_cons, ← h k p, PathTree.child_leaf, PathTree.leafAt_empty] at hw
        cases hw

/-- A value event is raised where a leaf changed, and only there. -/
theorem valueEvents_maybeAddValue {old new : FNode} (ho : old.Tidy) (hn : new.Tidy)
    {changes : List FChange} (h : Difference old new changes) :
    valueEvents (maybeAddValue old new changes) =
      if PathTree.isEqual old new then [] else [new] := by
  have hnovalue : valueEvents changes = [] := by
    have hfilter : changes.filter (·.type = .value) = [] := by
      rw [List.filter_eq_nil_iff]
      intro c hc
      obtain ⟨k, hk⟩ := (h.mem_iff c).mp hc
      simpa using (childKey_of_childChange hk).2
    rw [valueEvents, hfilter]
    rfl
  have hadd : (changes.length > 0 ∨ ((isLeafNode new || new.isEmpty) = true ∧
      ¬ PathTree.isEqual new old = true)) ↔ ¬ PathTree.isEqual old new = true := by
    rw [PathTree.isEqual_iff hn ho, PathTree.isEqual_iff ho hn]
    constructor
    · rintro (hlen | ⟨_, hne⟩) hsame
      · obtain ⟨c, hc⟩ := List.exists_mem_of_length_pos hlen
        obtain ⟨k, hk⟩ := (h.mem_iff c).mp hc
        rw [(childChange_eq_none_iff ho hn k).mpr (hsame.child k)] at hk
        cases hk
      · exact hne hsame.symm
    · intro hne
      by_contra hnot
      obtain ⟨hlen, hleaf⟩ := not_or.mp hnot
      have hnil : changes = [] := by
        rw [← List.length_eq_zero_iff]
        omega
      have hchild : ∀ k, PathTree.SameLeaves (old.child k) (new.child k) := by
        intro k
        rw [← childChange_eq_none_iff ho hn, Option.eq_none_iff_forall_ne_some]
        intro c hc
        have hmem := (h.mem_iff c).mpr ⟨k, hc⟩
        rw [hnil] at hmem
        cases hmem
      apply hne
      by_cases hroot : (isLeafNode new || new.isEmpty) = true
      · by_contra hdiffer
        exact hleaf ⟨hroot, fun hs => hdiffer hs.symm⟩
      · exact PathTree.sameLeaves_iff.mpr ⟨root_of_children hn hroot hchild, hchild⟩
  unfold maybeAddValue
  by_cases he : PathTree.isEqual old new = true
  · rw [if_neg (by rw [hadd]; simpa using he), if_pos he, hnovalue]
  · rw [if_pos (by rw [hadd]; exact he), if_neg he, valueEvents, List.filter_append,
      List.map_append]
    rw [valueEvents] at hnovalue
    simp [hnovalue]

end xellissime_book.view_changes
