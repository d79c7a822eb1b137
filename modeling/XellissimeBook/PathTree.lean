-- Trees whose nodes are reached by a path of keys: each node is a leaf with a
-- value or a branch with keyed children. A write at a path replaces the
-- subtree there, and a write of the empty tree prunes the branches it empties.
import Mathlib.Data.List.Basic
import Mathlib.Data.List.Induction
import Mathlib.Data.List.Nodup

namespace path_tree

variable {κ α β : Type*} [DecidableEq κ]

/-! ## Keyed lists -/

/-- The value of the first entry with the key. -/
def getKey (k : κ) : List (κ × β) → Option β
  | [] => none
  | (k', v) :: rest => if k' = k then some v else getKey k rest

/-- The entries with the value at the key: in the place of the old value, or
last when the key is new. -/
def setKey (k : κ) (v : β) : List (κ × β) → List (κ × β)
  | [] => [(k, v)]
  | (k', v') :: rest => if k' = k then (k, v) :: rest else (k', v') :: setKey k v rest

/-- The entries of every other key. -/
def eraseKey (k : κ) (cs : List (κ × β)) : List (κ × β) := cs.filter fun c => c.1 ≠ k

@[simp] theorem getKey_setKey_self (k : κ) (v : β) (cs : List (κ × β)) :
    getKey k (setKey k v cs) = some v := by
  induction cs with
  | nil => simp [setKey, getKey]
  | cons c rest ih =>
    simp only [setKey]
    split
    · simp [getKey]
    · rename_i h
      simp [getKey, h, ih]

theorem getKey_setKey_of_ne {k k' : κ} (h : k' ≠ k) (v : β) (cs : List (κ × β)) :
    getKey k' (setKey k v cs) = getKey k' cs := by
  induction cs with
  | nil => simp [setKey, getKey, h.symm]
  | cons c rest ih =>
    simp only [setKey]
    split
    · rename_i hc
      simp [getKey, hc, h.symm]
    · simp only [getKey, ih]

@[simp] theorem getKey_eraseKey_self (k : κ) (cs : List (κ × β)) :
    getKey k (eraseKey k cs) = none := by
  induction cs with
  | nil => rfl
  | cons c rest ih =>
    by_cases h : c.1 = k
    · simpa [eraseKey, h] using ih
    · simpa [eraseKey, h, getKey] using ih

theorem getKey_eraseKey_of_ne {k k' : κ} (h : k' ≠ k) (cs : List (κ × β)) :
    getKey k' (eraseKey k cs) = getKey k' cs := by
  induction cs with
  | nil => rfl
  | cons c rest ih =>
    unfold eraseKey at ih ⊢
    by_cases hc : c.1 = k
    · rw [List.filter_cons_of_neg (by simpa using hc), ih]
      simp [getKey, hc, h.symm]
    · rw [List.filter_cons_of_pos (by simpa using hc)]
      simp only [getKey, ih]

theorem mem_of_getKey {k : κ} {v : β} {cs : List (κ × β)} (h : getKey k cs = some v) :
    (k, v) ∈ cs := by
  induction cs with
  | nil => cases h
  | cons c rest ih =>
    simp only [getKey] at h
    split at h
    · rename_i hc
      cases h
      subst hc
      exact List.mem_cons_self
    · exact List.mem_cons_of_mem _ (ih h)

/-- With no key twice, the entries are the graph of `getKey`. -/
theorem getKey_eq_some_iff {k : κ} {v : β} {cs : List (κ × β)} (hn : (cs.map Prod.fst).Nodup) :
    getKey k cs = some v ↔ (k, v) ∈ cs := by
  refine ⟨mem_of_getKey, fun h => ?_⟩
  induction cs with
  | nil => cases h
  | cons c rest ih =>
    obtain ⟨k', v'⟩ := c
    simp only [List.map_cons, List.nodup_cons] at hn
    simp only [getKey]
    rcases List.mem_cons.mp h with he | hm
    · cases he
      rw [if_pos rfl]
    · have hk : k' ≠ k := fun he => hn.1 (he ▸ List.mem_map_of_mem hm)
      rw [if_neg hk]
      exact ih hn.2 hm

/-- With no key twice, the entry that is read is the one that is erased. -/
theorem exists_split_of_getKey {k : κ} {v : β} {cs : List (κ × β)}
    (hn : (cs.map Prod.fst).Nodup) (h : getKey k cs = some v) :
    ∃ before after, cs = before ++ (k, v) :: after ∧ eraseKey k cs = before ++ after := by
  obtain ⟨before, after, hsplit⟩ := List.append_of_mem (mem_of_getKey h)
  refine ⟨before, after, hsplit, ?_⟩
  rw [hsplit, List.map_append, List.map_cons, List.nodup_middle] at hn
  have hkey : k ∉ (before ++ after).map Prod.fst := by simpa using (List.nodup_cons.mp hn).1
  have hothers : ∀ c ∈ before ++ after, c.1 ≠ k := by
    rintro c hc rfl
    exact hkey (List.mem_map_of_mem hc)
  rw [hsplit, eraseKey, List.filter_append, List.filter_cons_of_neg (by simp),
    ← List.filter_append, List.filter_eq_self]
  simpa using hothers

theorem mem_keys_setKey {k k' : κ} {v : β} {cs : List (κ × β)}
    (h : k' ∈ (setKey k v cs).map Prod.fst) : k' = k ∨ k' ∈ cs.map Prod.fst := by
  induction cs with
  | nil => exact Or.inl (by simpa [setKey] using h)
  | cons c rest ih =>
    simp only [setKey] at h
    split at h
    · simp only [List.map_cons, List.mem_cons] at h ⊢
      exact h.imp_right Or.inr
    · simp only [List.map_cons, List.mem_cons] at h ⊢
      rcases h with h | h
      · exact Or.inr (Or.inl h)
      · exact (ih h).imp_right Or.inr

theorem nodup_keys_setKey (k : κ) (v : β) {cs : List (κ × β)} (hn : (cs.map Prod.fst).Nodup) :
    ((setKey k v cs).map Prod.fst).Nodup := by
  induction cs with
  | nil => simp [setKey]
  | cons c rest ih =>
    simp only [List.map_cons, List.nodup_cons] at hn
    simp only [setKey]
    split
    · rename_i hc
      rw [List.map_cons, List.nodup_cons]
      exact ⟨hc ▸ hn.1, hn.2⟩
    · rename_i hc
      rw [List.map_cons, List.nodup_cons]
      refine ⟨fun hm => ?_, ih hn.2⟩
      rcases mem_keys_setKey hm with h | h
      · exact hc h
      · exact hn.1 h

theorem nodup_keys_eraseKey (k : κ) {cs : List (κ × β)} (hn : (cs.map Prod.fst).Nodup) :
    ((eraseKey k cs).map Prod.fst).Nodup :=
  hn.sublist (List.filter_sublist.map Prod.fst)

theorem mem_setKey {k : κ} {v : β} {c : κ × β} {cs : List (κ × β)}
    (h : c ∈ setKey k v cs) : c = (k, v) ∨ c ∈ cs := by
  induction cs with
  | nil => exact Or.inl (by simpa [setKey] using h)
  | cons d rest ih =>
    simp only [setKey] at h
    split at h
    · exact (List.mem_cons.mp h).imp_right (List.mem_cons_of_mem _)
    · rcases List.mem_cons.mp h with h | h
      · exact Or.inr (h ▸ List.mem_cons_self)
      · exact (ih h).imp_right (List.mem_cons_of_mem _)

theorem mem_setKey_self (k : κ) (v : β) (cs : List (κ × β)) : (k, v) ∈ setKey k v cs :=
  mem_of_getKey (getKey_setKey_self k v cs)

/-- A write keeps every key. -/
theorem exists_mem_setKey {k k' : κ} {v w : β} {cs : List (κ × β)} (h : (k', w) ∈ cs) :
    ∃ w', (k', w') ∈ setKey k v cs := by
  by_cases hk : k' = k
  · exact ⟨v, hk ▸ mem_setKey_self k v cs⟩
  · have hsome : ∃ w', getKey k' cs = some w' := by
      induction cs with
      | nil => cases h
      | cons d rest ih =>
        simp only [getKey]
        split
        · exact ⟨_, rfl⟩
        · rename_i hd
          apply ih
          exact (List.mem_cons.mp h).resolve_left fun he => hd (congrArg Prod.fst he).symm
    obtain ⟨w', hw⟩ := hsome
    exact ⟨w', mem_of_getKey (by rw [getKey_setKey_of_ne hk, hw])⟩

/-- The entries written one after the other: the last value of each key. -/
def ofEntries (es : List (κ × β)) : List (κ × β) := es.foldl (fun cs e => setKey e.1 e.2 cs) []

theorem ofEntries_snoc (es : List (κ × β)) (e : κ × β) :
    ofEntries (es ++ [e]) = setKey e.1 e.2 (ofEntries es) := by
  unfold ofEntries
  rw [List.foldl_append]
  rfl

theorem setKey_of_new {k : κ} {cs : List (κ × β)} (h : k ∉ cs.map Prod.fst) (v : β) :
    setKey k v cs = cs ++ [(k, v)] := by
  induction cs with
  | nil => rfl
  | cons c rest ih =>
    obtain ⟨hc, hrest⟩ := not_or.mp (mt List.mem_cons.mpr h)
    rw [setKey, if_neg fun he => hc he.symm, ih hrest, List.cons_append]

/-- With no key twice, each value is the last of its key. -/
theorem ofEntries_of_nodup {es : List (κ × β)} (hn : (es.map Prod.fst).Nodup) :
    ofEntries es = es := by
  induction es using List.reverseRecOn with
  | nil => rfl
  | append_singleton es d ih =>
    rw [List.map_append, List.nodup_append] at hn
    rw [ofEntries_snoc, ih hn.1]
    refine setKey_of_new (fun hd => ?_) d.2
    exact hn.2.2 d.1 hd d.1 (by simp) rfl

theorem mem_of_mem_ofEntries {es : List (κ × β)} {e : κ × β} (h : e ∈ ofEntries es) : e ∈ es := by
  induction es using List.reverseRecOn with
  | nil => cases h
  | append_singleton es d ih =>
    rw [ofEntries_snoc] at h
    rcases mem_setKey h with rfl | hold
    · exact List.mem_append_right _ List.mem_cons_self
    · exact List.mem_append_left _ (ih hold)

theorem exists_mem_ofEntries {es : List (κ × β)} {e : κ × β} (h : e ∈ es) :
    ∃ v, (e.1, v) ∈ ofEntries es := by
  induction es using List.reverseRecOn with
  | nil => cases h
  | append_singleton es d ih =>
    rw [ofEntries_snoc]
    rcases List.mem_append.mp h with hold | hnew
    · obtain ⟨v, hv⟩ := ih hold
      exact exists_mem_setKey hv
    · rw [List.mem_singleton.mp hnew]
      exact ⟨d.2, mem_setKey_self d.1 d.2 _⟩

/-- A change of the keys and values that keeps the key apart from the others
carries a write along. -/
theorem setKey_map {κ' β' : Type*} [DecidableEq κ'] {f : κ → κ'} (g : β → β') {k : κ} {v : β}
    {cs : List (κ × β)} (hf : ∀ c ∈ cs, f c.1 = f k → c.1 = k) :
    setKey (f k) (g v) (cs.map fun c => (f c.1, g c.2)) =
      (setKey k v cs).map fun c => (f c.1, g c.2) := by
  induction cs with
  | nil => rfl
  | cons c rest ih =>
    have hrest := ih fun d hd => hf d (List.mem_cons_of_mem c hd)
    by_cases hk : c.1 = k
    · simp [setKey, hk]
    · have hfk : f c.1 ≠ f k := fun he => hk (hf c List.mem_cons_self he)
      simp [setKey, hk, hfk, hrest]

/-! ## Trees -/

inductive PathTree (κ : Type*) (α : Type*) where
  | leaf (v : α)
  | branch (children : List (κ × PathTree κ α))

namespace PathTree

/-- The tree with nothing in it. -/
def empty : PathTree κ α := .branch []

def isEmpty : PathTree κ α → Bool
  | .branch [] => true
  | _ => false

def children : PathTree κ α → List (κ × PathTree κ α)
  | .leaf _ => []
  | .branch cs => cs

def child (k : κ) (t : PathTree κ α) : PathTree κ α := (getKey k t.children).getD empty

/-- The tree with `n` as the child at the key. An empty `n` drops the key,
and leaves a leaf as it is. -/
def setChild (k : κ) (n : PathTree κ α) (t : PathTree κ α) : PathTree κ α :=
  match t with
  | .leaf v => if n.isEmpty then .leaf v else .branch [(k, n)]
  | .branch cs => .branch (if n.isEmpty then eraseKey k cs else setKey k n cs)

/-- The subtree at the path, empty where there is none. -/
def get : List κ → PathTree κ α → PathTree κ α
  | [], t => t
  | k :: p, t => get p (child k t)

/-- The tree with `n` in place of the subtree at the path. -/
def set : List κ → PathTree κ α → PathTree κ α → PathTree κ α
  | [], n, _ => n
  | k :: p, n, .leaf v => if n.isEmpty then .leaf v else setChild k (set p n empty) (.leaf v)
  | k :: p, n, .branch cs => setChild k (set p n (child k (.branch cs))) (.branch cs)

/-- The value of the leaf at the path. -/
def leafAt (p : List κ) (t : PathTree κ α) : Option α :=
  match get p t with
  | .leaf v => some v
  | .branch _ => none

omit [DecidableEq κ] in
theorem isEmpty_iff {t : PathTree κ α} : t.isEmpty = true ↔ t = empty := by
  rcases t with _ | _ | _ <;> simp [isEmpty, empty]

@[simp] theorem child_leaf (k : κ) (v : α) : child k (.leaf v) = empty := rfl

@[simp] theorem child_empty (k : κ) : child k (empty : PathTree κ α) = empty := rfl

@[simp] theorem get_empty (p : List κ) : get p (empty : PathTree κ α) = empty := by
  induction p with
  | nil => rfl
  | cons k p ih => simpa [get] using ih

@[simp] theorem set_empty_empty (p : List κ) : set p (empty : PathTree κ α) empty = empty := by
  induction p with
  | nil => rfl
  | cons k p ih =>
    change setChild k (set p empty empty) empty = empty
    rw [ih]
    rfl

theorem set_cons (k : κ) (p : List κ) (n t : PathTree κ α) :
    set (k :: p) n t = setChild k (set p n (child k t)) t := by
  cases t with
  | branch cs => rfl
  | leaf v =>
    simp only [set, child_leaf]
    split
    · rename_i h
      rw [isEmpty_iff.mp h, set_empty_empty]
      rfl
    · rfl

@[simp] theorem child_setChild_self (k : κ) (n t : PathTree κ α) :
    child k (setChild k n t) = n := by
  by_cases hn : n.isEmpty
  · have he := isEmpty_iff.mp hn
    subst he
    cases t <;> simp [setChild, child, children, isEmpty, empty, getKey]
  · cases t <;> simp [setChild, hn, child, children, getKey]

theorem child_setChild_of_ne {k k' : κ} (h : k' ≠ k) (n t : PathTree κ α) :
    child k' (setChild k n t) = child k' t := by
  by_cases hn : n.isEmpty
  · cases t <;> simp [setChild, hn, child, children, getKey_eraseKey_of_ne h]
  · cases t with
    | leaf v => simp [setChild, hn, child, children, getKey, h.symm]
    | branch cs => simp [setChild, hn, child, children, getKey_setKey_of_ne h]

theorem children_setChild_empty (k : κ) (t : PathTree κ α) :
    (setChild k empty t).children = eraseKey k t.children := by
  cases t with
  | leaf v => rfl
  | branch cs => rfl

theorem children_setChild {n : PathTree κ α} (hn : n ≠ empty) (k : κ) (t : PathTree κ α) :
    (setChild k n t).children = setKey k n t.children := by
  have he : ¬ n.isEmpty = true := fun h => hn (isEmpty_iff.mp h)
  cases t with
  | leaf v => simp [setChild, he, children, setKey]
  | branch cs => simp [setChild, he, children]

theorem get_append (p q : List κ) (t : PathTree κ α) : get (p ++ q) t = get q (get p t) := by
  induction p generalizing t with
  | nil => rfl
  | cons k p ih => exact ih (child k t)

/-- A write decides everything at and below its path. -/
@[simp] theorem get_set_append (p q : List κ) (n t : PathTree κ α) :
    get (p ++ q) (set p n t) = get q n := by
  induction p generalizing t with
  | nil => rfl
  | cons k p ih =>
    rw [set_cons, List.cons_append, get, child_setChild_self]
    exact ih _

/-- Above its path, a write is a write below. -/
theorem get_set_above (p q : List κ) (n t : PathTree κ α) :
    get p (set (p ++ q) n t) = set q n (get p t) := by
  induction p generalizing t with
  | nil => rfl
  | cons k p ih =>
    rw [List.cons_append, set_cons, get, get, child_setChild_self]
    exact ih _

/-- A write changes nothing on a path that leaves its own. -/
theorem get_set_of_apart {p q : List κ} (h1 : ¬ p <+: q) (h2 : ¬ q <+: p) (n t : PathTree κ α) :
    get q (set p n t) = get q t := by
  induction p generalizing q t with
  | nil => exact absurd List.nil_prefix h1
  | cons k p ih =>
    cases q with
    | nil => exact absurd List.nil_prefix h2
    | cons k' q =>
      rw [set_cons, get, get]
      by_cases hk : k' = k
      · subst hk
        rw [child_setChild_self]
        exact ih (fun h => h1 (List.cons_prefix_cons.mpr ⟨rfl, h⟩))
          (fun h => h2 (List.cons_prefix_cons.mpr ⟨rfl, h⟩)) _
      · rw [child_setChild_of_ne hk]

theorem leaf_above_of_set {p q : List κ} {n t : PathTree κ α} (h : q <+: p)
    (hne : q ≠ p) {v : α} (hv : get q (set p n t) = .leaf v) : get q t = .leaf v := by
  induction p generalizing q t with
  | nil => exact absurd (List.prefix_nil.mp h) hne
  | cons k p ih =>
    rw [set_cons] at hv
    cases q with
    | nil =>
      cases t with
      | branch cs => simp [get, setChild] at hv
      | leaf w =>
        simp only [get, setChild] at hv ⊢
        split at hv
        · exact hv
        · cases hv
    | cons k' q =>
      obtain ⟨rfl, hq⟩ := List.cons_prefix_cons.mp h
      rw [get, child_setChild_self] at hv
      rw [get]
      exact ih hq (fun he => hne (by rw [he])) hv

/-- A leaf of the tree after a write is a leaf of what was written, under its
path, or a leaf of the tree before, not under it. -/
theorem leafAt_set {p q : List κ} {n t : PathTree κ α} {v : α}
    (h : leafAt q (set p n t) = some v) :
    (∃ r, q = p ++ r ∧ leafAt r n = some v) ∨ (¬ p <+: q ∧ leafAt q t = some v) := by
  by_cases hp : p <+: q
  · obtain ⟨r, rfl⟩ := hp
    refine Or.inl ⟨r, rfl, ?_⟩
    simpa [leafAt] using h
  · refine Or.inr ⟨hp, ?_⟩
    by_cases hq : q <+: p
    · have hv : get q (set p n t) = .leaf v := by
        unfold leafAt at h
        split at h
        · rename_i w hw
          rw [hw]
          cases h
          rfl
        · cases h
      have hne : q ≠ p := fun he => hp (he ▸ List.prefix_refl q)
      rw [leafAt, leaf_above_of_set hq hne hv]
    · rwa [leafAt, get_set_of_apart hp hq] at h

/-- No branch has a key twice. -/
inductive WellKeyed : PathTree κ α → Prop
  | leaf (v : α) : WellKeyed (.leaf v)
  | branch (cs : List (κ × PathTree κ α)) : (cs.map Prod.fst).Nodup →
      (∀ c ∈ cs, WellKeyed c.2) → WellKeyed (.branch cs)

omit [DecidableEq κ] in
theorem wellKeyed_empty : WellKeyed (empty : PathTree κ α) := .branch [] (by simp) (by simp)

omit [DecidableEq κ] in
theorem WellKeyed.nodup_children {t : PathTree κ α} (h : WellKeyed t) :
    (t.children.map Prod.fst).Nodup := by
  cases h with
  | leaf v => simp [children]
  | branch cs hn _ => exact hn

omit [DecidableEq κ] in
theorem WellKeyed.of_mem {t : PathTree κ α} (h : WellKeyed t) {c : κ × PathTree κ α}
    (hc : c ∈ t.children) : WellKeyed c.2 := by
  cases h with
  | leaf v => simp [children] at hc
  | branch cs _ hcs => exact hcs c hc

theorem WellKeyed.child {t : PathTree κ α} (h : WellKeyed t) (k : κ) : WellKeyed (t.child k) := by
  unfold PathTree.child
  cases hk : getKey k t.children with
  | none => exact wellKeyed_empty
  | some n => exact h.of_mem (mem_of_getKey hk)

theorem WellKeyed.get {t : PathTree κ α} (h : WellKeyed t) (p : List κ) :
    WellKeyed (t.get p) := by
  induction p generalizing t with
  | nil => exact h
  | cons k p ih => exact ih (h.child k)

theorem WellKeyed.setChild {n t : PathTree κ α} (hn : WellKeyed n) (ht : WellKeyed t) (k : κ) :
    WellKeyed (setChild k n t) := by
  cases ht with
  | leaf v =>
    simp only [PathTree.setChild]
    split
    · exact .leaf v
    · exact .branch _ (by simp) (by simpa using hn)
  | branch cs hcs hall =>
    simp only [PathTree.setChild]
    split
    · exact .branch _ (nodup_keys_eraseKey k hcs) fun c hc => hall c (List.mem_of_mem_filter hc)
    · refine .branch _ (nodup_keys_setKey k n hcs) fun c hc => ?_
      rcases mem_setKey hc with rfl | hc
      · exact hn
      · exact hall c hc

theorem WellKeyed.set {n t : PathTree κ α} (hn : WellKeyed n) (ht : WellKeyed t) (p : List κ) :
    WellKeyed (set p n t) := by
  induction p generalizing t with
  | nil => exact hn
  | cons k p ih =>
    rw [set_cons]
    exact (ih (ht.child k)).setChild ht k

end PathTree

end path_tree
