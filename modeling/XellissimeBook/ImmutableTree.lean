-- The trees in which the database client finds a value by its path
-- (Pods/FirebaseDatabase, FImmutableTree.m), and those of them in which no
-- value lies below another one.
import XellissimeBook.PathTree

open path_tree

namespace xellissime_book.immutable_tree

/-- `FImmutableTree`. Its dictionary of children is a keyed list here: nothing
below reads the order of the children. The source finds a child by
`stringComparator`, that is `compare:`, which takes canonically equivalent names for
one, where `contains:` of FPath takes only equal ones. Here equal strings are one
name: what is said of runs is said of `PlainAscii` names, for which all agree. -/
inductive FImmutableTree (α : Type) where
  | node (value : Option α) (children : List (String × FImmutableTree α))

namespace FImmutableTree

variable {α : Type}

def value : FImmutableTree α → Option α
  | node value _ => value

def children : FImmutableTree α → List (String × FImmutableTree α)
  | node _ children => children

def empty : FImmutableTree α := node none []

def isEmpty : FImmutableTree α → Bool
  | node none [] => true
  | _ => false

/-- The child at the key, the empty tree where there is none. -/
def childTree (front : String) (t : FImmutableTree α) : FImmutableTree α :=
  (getKey front t.children).getD empty

/-- `findRootMostValueAndPath:`. -/
def findRootMostValueAndPath : List String → FImmutableTree α → Option (List String × α)
  | _, node (some value) _ => some ([], value)
  | [], node none _ => none
  | front :: rest, node none children =>
    match getKey front children with
    | none => none
    | some child =>
      (findRootMostValueAndPath rest child).map fun existing => (front :: existing.1, existing.2)

/-- `valueAtPath:`. -/
def valueAtPath : List String → FImmutableTree α → Option α
  | [], t => t.value
  | front :: rest, t =>
    match getKey front t.children with
    | none => none
    | some child => valueAtPath rest child

/-- `subtreeAtPath:`. -/
def subtreeAtPath : List String → FImmutableTree α → FImmutableTree α
  | [], t => t
  | front :: rest, t =>
    match getKey front t.children with
    | none => empty
    | some child => subtreeAtPath rest child

/-- `setValue:atPath:`. -/
def setValue (newValue : α) : List String → FImmutableTree α → FImmutableTree α
  | [], t => node (some newValue) t.children
  | front :: rest, t =>
    node t.value (setKey front (setValue newValue rest (t.childTree front)) t.children)

/-- `setTree:atPath:`. -/
def setTree (newTree : FImmutableTree α) : List String → FImmutableTree α → FImmutableTree α
  | [], _ => newTree
  | front :: rest, t =>
    let newChild := setTree newTree rest (t.childTree front)
    node t.value
      (if newChild.isEmpty then eraseKey front t.children
        else setKey front newChild t.children)

/-! ### Values -/

theorem isEmpty_iff {t : FImmutableTree α} : t.isEmpty = true ↔ t = empty := by
  rcases t with ⟨_ | _, _ | _⟩ <;> simp [isEmpty, empty]

theorem valueAtPath_empty (p : List String) : valueAtPath p (empty : FImmutableTree α) = none := by
  cases p <;> rfl

theorem valueAtPath_cons (k : String) (p : List String) (t : FImmutableTree α) :
    valueAtPath (k :: p) t = valueAtPath p (t.childTree k) := by
  rw [valueAtPath, childTree]
  cases getKey k t.children with
  | none => simp [valueAtPath_empty]
  | some child => rfl

theorem subtreeAtPath_cons (k : String) (p : List String) (t : FImmutableTree α) :
    subtreeAtPath (k :: p) t = subtreeAtPath p (t.childTree k) := by
  rw [subtreeAtPath, childTree]
  cases getKey k t.children with
  | none =>
    simp only [Option.getD_none]
    cases p <;> rfl
  | some child => rfl

theorem valueAtPath_subtreeAtPath (p q : List String) (t : FImmutableTree α) :
    valueAtPath q (subtreeAtPath p t) = valueAtPath (p ++ q) t := by
  induction p generalizing t with
  | nil => rfl
  | cons k p ih => rw [subtreeAtPath_cons, ih, List.cons_append, valueAtPath_cons]

theorem childTree_setKey_self (k : String) (c : FImmutableTree α) (v : Option α)
    (cs : List (String × FImmutableTree α)) : (node v (setKey k c cs)).childTree k = c := by
  simp [childTree, children]

theorem childTree_setKey_of_ne {k k' : String} (h : k' ≠ k) (c : FImmutableTree α) (v : Option α)
    (cs : List (String × FImmutableTree α)) :
    (node v (setKey k c cs)).childTree k' = (node v cs).childTree k' := by
  simp [childTree, children, getKey_setKey_of_ne h]

theorem childTree_eraseKey_self (k : String) (v : Option α)
    (cs : List (String × FImmutableTree α)) : (node v (eraseKey k cs)).childTree k = empty := by
  simp [childTree, children]

theorem childTree_eraseKey_of_ne {k k' : String} (h : k' ≠ k) (v : Option α)
    (cs : List (String × FImmutableTree α)) :
    (node v (eraseKey k cs)).childTree k' = (node v cs).childTree k' := by
  simp [childTree, children, getKey_eraseKey_of_ne h]

theorem valueAtPath_setValue (newValue : α) (p q : List String) (t : FImmutableTree α) :
    valueAtPath p (setValue newValue q t) =
      if p = q then some newValue else valueAtPath p t := by
  induction q generalizing p t with
  | nil =>
    cases p with
    | nil => simp [setValue, valueAtPath, value]
    | cons k p => simp [setValue, valueAtPath, children]
  | cons k q ih =>
    cases p with
    | nil => simp [setValue, valueAtPath, value]
    | cons k' p =>
      rw [setValue, valueAtPath_cons]
      by_cases hk : k' = k
      · subst hk
        rw [childTree_setKey_self, ih, valueAtPath_cons]
        simp
      · rw [childTree_setKey_of_ne hk, valueAtPath_cons]
        simp [hk, childTree, children]

theorem childTree_setTree_self (newTree : FImmutableTree α) (k : String) (q : List String)
    (t : FImmutableTree α) :
    (setTree newTree (k :: q) t).childTree k = setTree newTree q (t.childTree k) := by
  simp only [setTree]
  split
  · rename_i h
    rw [childTree_eraseKey_self, isEmpty_iff.mp h]
  · rw [childTree_setKey_self]

theorem childTree_setTree_of_ne {k k' : String} (h : k' ≠ k) (newTree : FImmutableTree α)
    (q : List String) (t : FImmutableTree α) :
    (setTree newTree (k :: q) t).childTree k' = t.childTree k' := by
  simp only [setTree]
  split
  · rw [childTree_eraseKey_of_ne h]
    rfl
  · rw [childTree_setKey_of_ne h]
    rfl

theorem valueAtPath_setTree_append (newTree : FImmutableTree α) (q r : List String)
    (t : FImmutableTree α) :
    valueAtPath (q ++ r) (setTree newTree q t) = valueAtPath r newTree := by
  induction q generalizing t with
  | nil => rfl
  | cons k q ih => rw [List.cons_append, valueAtPath_cons, childTree_setTree_self, ih]

theorem valueAtPath_setTree_of_not_below (newTree : FImmutableTree α) {p q : List String}
    (h : ¬ q <+: p) (t : FImmutableTree α) :
    valueAtPath p (setTree newTree q t) = valueAtPath p t := by
  induction q generalizing p t with
  | nil => exact absurd List.nil_prefix h
  | cons k q ih =>
    cases p with
    | nil => simp [setTree, valueAtPath, value]
    | cons k' p =>
      rw [valueAtPath_cons, valueAtPath_cons]
      by_cases hk : k' = k
      · subst hk
        rw [childTree_setTree_self]
        exact ih (fun hq => h (List.cons_prefix_cons.mpr ⟨rfl, hq⟩)) _
      · rw [childTree_setTree_of_ne hk]

/-! ### Sound trees -/

/-- No node has a key twice. -/
inductive WellKeyed : FImmutableTree α → Prop
  | node (v : Option α) (cs : List (String × FImmutableTree α)) : (cs.map Prod.fst).Nodup →
      (∀ c ∈ cs, WellKeyed c.2) → WellKeyed (.node v cs)

/-- No value lies below another one. -/
def Flat (t : FImmutableTree α) : Prop :=
  ∀ p q v, valueAtPath p t = some v → p <+: q → p ≠ q → valueAtPath q t = none

theorem wellKeyed_empty : WellKeyed (empty : FImmutableTree α) := .node none [] (by simp) (by simp)

theorem wellKeyed_leaf (v : α) : WellKeyed (.node (some v) []) := .node _ [] (by simp) (by simp)

theorem WellKeyed.nodup {t : FImmutableTree α} (h : WellKeyed t) :
    (t.children.map Prod.fst).Nodup := by
  cases h with
  | node _ _ hn _ => exact hn

theorem WellKeyed.of_mem {t : FImmutableTree α} (h : WellKeyed t) {c : String × FImmutableTree α}
    (hc : c ∈ t.children) : WellKeyed c.2 := by
  cases h with
  | node _ _ _ hcs => exact hcs c hc

theorem WellKeyed.childTree {t : FImmutableTree α} (h : WellKeyed t) (k : String) :
    WellKeyed (t.childTree k) := by
  unfold FImmutableTree.childTree
  cases hk : getKey k t.children with
  | none => exact wellKeyed_empty
  | some c => exact h.of_mem (mem_of_getKey hk)

theorem WellKeyed.withChild {t c : FImmutableTree α} (h : WellKeyed t) (hc : WellKeyed c)
    (k : String) : WellKeyed (.node t.value (setKey k c t.children)) := by
  refine .node _ _ (nodup_keys_setKey k c h.nodup) fun d hd => ?_
  rcases mem_setKey hd with rfl | hold
  · exact hc
  · exact h.of_mem hold

theorem WellKeyed.setValue {t : FImmutableTree α} (h : WellKeyed t) (v : α) (q : List String) :
    WellKeyed (setValue v q t) := by
  induction q generalizing t with
  | nil => exact .node _ _ h.nodup fun c hc => h.of_mem hc
  | cons k q ih => exact h.withChild (ih (h.childTree k)) k

theorem WellKeyed.setTree {t newTree : FImmutableTree α} (h : WellKeyed t)
    (hn : WellKeyed newTree) (q : List String) : WellKeyed (setTree newTree q t) := by
  induction q generalizing t with
  | nil => exact hn
  | cons k q ih =>
    simp only [FImmutableTree.setTree]
    split
    · exact .node _ _ (nodup_keys_eraseKey k h.nodup) fun c hc => h.of_mem (List.mem_of_mem_filter hc)
    · exact h.withChild (ih (h.childTree k)) k

theorem WellKeyed.subtreeAtPath {t : FImmutableTree α} (h : WellKeyed t) (p : List String) :
    WellKeyed (subtreeAtPath p t) := by
  induction p generalizing t with
  | nil => exact h
  | cons k p ih =>
    rw [subtreeAtPath_cons]
    exact ih (h.childTree k)

theorem flat_empty : Flat (empty : FImmutableTree α) := by
  intro p q v hv
  rw [valueAtPath_empty] at hv
  cases hv

theorem flat_leaf (v : α) : Flat (.node (some v) []) := by
  intro p q w _ hp hne
  cases q with
  | nil => exact absurd (List.prefix_nil.mp hp) hne
  | cons k q => rfl

theorem Flat.subtreeAtPath {t : FImmutableTree α} (h : Flat t) (c : List String) :
    Flat (subtreeAtPath c t) := by
  intro p q v hv hp hne
  rw [valueAtPath_subtreeAtPath] at hv ⊢
  apply h _ _ v hv
  · exact (List.prefix_append_right_inj c).mpr hp
  · simpa using hne

/-! ### The first value on a path -/

theorem findRootMost_of_prefix {t : FImmutableTree α} (hf : Flat t) {r p : List String} {v : α}
    (hr : r <+: p) (hv : valueAtPath r t = some v) :
    findRootMostValueAndPath p t = some (r, v) := by
  induction p generalizing r t with
  | nil =>
    obtain ⟨value, cs⟩ := t
    rw [List.prefix_nil.mp hr] at hv ⊢
    change value = some v at hv
    rw [hv]
    rfl
  | cons k p ih =>
    obtain ⟨value, cs⟩ := t
    cases r with
    | nil =>
      change value = some v at hv
      rw [hv]
      rfl
    | cons k' r =>
      obtain ⟨rfl, hrp⟩ := List.cons_prefix_cons.mp hr
      cases hvalue : value with
      | some w =>
        have hnone := hf [] (k' :: r) w (by rw [valueAtPath, FImmutableTree.value, hvalue])
          List.nil_prefix (by simp)
        rw [hnone] at hv
        cases hv
      | none =>
        rw [valueAtPath_cons] at hv
        have hfc := hf.subtreeAtPath [k']
        rw [subtreeAtPath_cons] at hfc
        have hchild := ih (t := (node value cs).childTree k') hfc hrp hv
        cases hk : getKey k' cs with
        | none => simp [childTree, children, hk, valueAtPath_empty] at hv
        | some c =>
          simp only [childTree, children, hk, Option.getD_some] at hchild
          simp [findRootMostValueAndPath, hk, hchild]

theorem findRootMost_eq_none {t : FImmutableTree α} {p : List String}
    (h : ∀ r, r <+: p → valueAtPath r t = none) : findRootMostValueAndPath p t = none := by
  induction p generalizing t with
  | nil =>
    obtain ⟨value, cs⟩ := t
    have hroot := h [] List.nil_prefix
    change value = none at hroot
    rw [hroot]
    rfl
  | cons k p ih =>
    obtain ⟨value, cs⟩ := t
    have hroot := h [] List.nil_prefix
    change value = none at hroot
    rw [hroot]
    cases hk : getKey k cs with
    | none => simp [findRootMostValueAndPath, hk]
    | some c =>
      have hc := ih (t := c) fun r hr => by
        have hkr := h (k :: r) (List.cons_prefix_cons.mpr ⟨rfl, hr⟩)
        simpa [valueAtPath, children, hk] using hkr
      simp [findRootMostValueAndPath, hk, hc]

/-- Either a value stands on the path, and it is the one that is found, or none does. -/
theorem findRootMost_cases {t : FImmutableTree α} (hf : Flat t) (p : List String) :
    (∃ r v, r <+: p ∧ valueAtPath r t = some v ∧ findRootMostValueAndPath p t = some (r, v)) ∨
      (∀ r, r <+: p → valueAtPath r t = none) ∧ findRootMostValueAndPath p t = none := by
  by_cases h : ∃ r v, r <+: p ∧ valueAtPath r t = some v
  · obtain ⟨r, v, hr, hv⟩ := h
    exact Or.inl ⟨r, v, hr, hv, findRootMost_of_prefix hf hr hv⟩
  · have hnone : ∀ r, r <+: p → valueAtPath r t = none := by
      intro r hr
      by_contra hsome
      obtain ⟨v, hv⟩ := Option.ne_none_iff_exists'.mp hsome
      exact h ⟨r, v, hr, hv⟩
    exact Or.inr ⟨hnone, findRootMost_eq_none hnone⟩

theorem valueAtPath_of_findRootMost {t : FImmutableTree α} (hf : Flat t) {p : List String}
    {e : List String × α} (h : findRootMostValueAndPath p t = some e) :
    e.1 <+: p ∧ valueAtPath e.1 t = some e.2 := by
  rcases findRootMost_cases hf p with ⟨r, v, hr, hv, hfound⟩ | ⟨_, hnone⟩
  · rw [hfound] at h
    cases h
    exact ⟨hr, hv⟩
  · rw [hnone] at h
    cases h

theorem valueAtPath_of_findRootMost_none {t : FImmutableTree α} (hf : Flat t) {p : List String}
    (h : findRootMostValueAndPath p t = none) : ∀ r, r <+: p → valueAtPath r t = none := by
  rcases findRootMost_cases hf p with ⟨r, v, _, _, hfound⟩ | ⟨hnone, _⟩
  · rw [hfound] at h
    cases h
  · exact hnone

end FImmutableTree

end xellissime_book.immutable_tree
