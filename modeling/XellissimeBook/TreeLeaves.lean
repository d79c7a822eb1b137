-- Trees by their leaves: what a write leaves at each path, when two trees have
-- the same leaves, and the trees in which every branch leads to a leaf.
import Mathlib.Data.List.Perm.Subperm
import XellissimeBook.PathTree

namespace path_tree.PathTree

variable {κ α : Type*} [DecidableEq κ]

/-! ## Leaves after a write -/

@[simp] theorem leafAt_empty (p : List κ) : leafAt p (empty : PathTree κ α) = none := by
  rw [leafAt, get_empty]
  rfl

theorem leafAt_append (p q : List κ) (t : PathTree κ α) :
    leafAt (p ++ q) t = leafAt q (get p t) := by
  simp [leafAt, get_append]

theorem leafAt_cons (k : κ) (p : List κ) (t : PathTree κ α) :
    leafAt (k :: p) t = leafAt p (child k t) := rfl

theorem isEmpty_setChild_empty (k : κ) (n : PathTree κ α) :
    (setChild k n empty).isEmpty = n.isEmpty := by
  by_cases hn : n.isEmpty = true
  · rw [isEmpty_iff.mp hn]
    rfl
  · have hset : setChild k n empty = .branch [(k, n)] := by
      simp only [empty, setChild, if_neg hn, setKey]
    rw [hset, (Bool.not_eq_true _).mp hn]
    rfl

theorem isEmpty_set_empty (p : List κ) (n : PathTree κ α) :
    (set p n empty).isEmpty = n.isEmpty := by
  induction p with
  | nil => rfl
  | cons k p ih => rw [set_cons, child_empty, isEmpty_setChild_empty, ih]

/-- At and below its path, a write leaves the leaves of the new subtree. -/
theorem leafAt_set_append (p r : List κ) (n t : PathTree κ α) :
    leafAt (p ++ r) (set p n t) = leafAt r n := by
  simp [leafAt]

/-- Strictly above its path, a write leaves no leaf, unless it removes what is
not there: then a leaf stays. -/
theorem leafAt_set_above {p r : List κ} (hr : r ≠ []) (n t : PathTree κ α) :
    leafAt p (set (p ++ r) n t) = if n.isEmpty then leafAt p t else none := by
  have hleaf : ∀ u : PathTree κ α, leafAt p u = leafAt [] (get p u) := fun _ => rfl
  rw [hleaf, hleaf t, get_set_above]
  cases r with
  | nil => exact absurd rfl hr
  | cons k r =>
    rw [set_cons]
    cases get p t with
    | branch cs => simp [setChild, leafAt, get]
    | leaf v =>
      rw [child_leaf]
      by_cases hn : n.isEmpty = true
      · simp [setChild, isEmpty_set_empty, hn, leafAt, get]
      · simp [setChild, isEmpty_set_empty, hn, leafAt, get]

theorem leafAt_set_of_apart {p q : List κ} (h1 : ¬ p <+: q) (h2 : ¬ q <+: p)
    (n t : PathTree κ α) : leafAt q (set p n t) = leafAt q t := by
  simp only [leafAt, get_set_of_apart h1 h2]

/-- Neither path leads to the other. -/
def ApartPaths (p q : List κ) : Prop := ¬ p <+: q ∧ ¬ q <+: p

omit [DecidableEq κ] in
theorem ApartPaths.append {p q : List κ} (h : ApartPaths p q) (r : List κ) :
    ApartPaths p (q ++ r) := by
  refine ⟨fun hp => ?_, fun hq => h.2 ((List.prefix_append q r).trans hq)⟩
  rcases List.prefix_or_prefix_of_prefix hp (List.prefix_append q r) with hpq | hqp
  · exact h.1 hpq
  · exact h.2 hqp

omit [DecidableEq κ] in
theorem ApartPaths.symm {p q : List κ} (h : ApartPaths p q) : ApartPaths q p := ⟨h.2, h.1⟩

omit [DecidableEq κ] in
/-- A path is at or below another one, strictly above it, or apart from it. -/
theorem path_cases (q p : List κ) :
    (∃ r, p = q ++ r) ∨ (∃ r, r ≠ [] ∧ q = p ++ r) ∨ ApartPaths q p := by
  by_cases hq : q <+: p
  · obtain ⟨r, hr⟩ := hq
    exact Or.inl ⟨r, hr.symm⟩
  · by_cases hp : p <+: q
    · obtain ⟨r, hr⟩ := hp
      refine Or.inr (Or.inl ⟨r, ?_, hr.symm⟩)
      rintro rfl
      exact hq (by simp [← hr])
    · exact Or.inr (Or.inr ⟨hq, hp⟩)

/-! ## Trees with the same leaves -/

/-- The two trees have the same leaves. The order of the children is not seen. -/
def SameLeaves (t u : PathTree κ α) : Prop := ∀ p, leafAt p t = leafAt p u

theorem sameLeaves_refl (t : PathTree κ α) : SameLeaves t t := fun _ => rfl

theorem SameLeaves.symm {t u : PathTree κ α} (h : SameLeaves t u) : SameLeaves u t :=
  fun p => (h p).symm

theorem SameLeaves.trans {t u w : PathTree κ α} (h : SameLeaves t u) (h' : SameLeaves u w) :
    SameLeaves t w :=
  fun p => (h p).trans (h' p)

theorem SameLeaves.get {t u : PathTree κ α} (h : SameLeaves t u) (p : List κ) :
    SameLeaves (get p t) (get p u) := by
  intro q
  rw [← leafAt_append, ← leafAt_append, h]

theorem SameLeaves.set {t u : PathTree κ α} (h : SameLeaves t u) (q : List κ)
    (n : PathTree κ α) : SameLeaves (set q n t) (set q n u) := by
  intro p
  rcases path_cases q p with ⟨r, rfl⟩ | ⟨r, hr, rfl⟩ | ⟨h1, h2⟩
  · rw [leafAt_set_append, leafAt_set_append]
  · rw [leafAt_set_above hr, leafAt_set_above hr, h]
  · rw [leafAt_set_of_apart h1 h2, leafAt_set_of_apart h1 h2, h]

/-! ## Trees in which every branch leads to a leaf -/

/-- No child is empty, at any depth. -/
inductive Pruned : PathTree κ α → Prop
  | leaf (v : α) : Pruned (.leaf v)
  | branch (cs : List (κ × PathTree κ α)) : (∀ c ∈ cs, Pruned c.2) →
      (∀ c ∈ cs, c.2 ≠ empty) → Pruned (.branch cs)

omit [DecidableEq κ] in
theorem pruned_empty : Pruned (empty : PathTree κ α) := .branch [] (by simp) (by simp)

theorem Pruned.child {t : PathTree κ α} (h : Pruned t) (k : κ) : Pruned (t.child k) := by
  unfold PathTree.child
  cases hk : getKey k t.children with
  | none => exact pruned_empty
  | some n =>
    cases h with
    | leaf v => cases hk
    | branch cs hcs _ => exact hcs (k, n) (mem_of_getKey hk)

theorem Pruned.get {t : PathTree κ α} (h : Pruned t) (p : List κ) : Pruned (t.get p) := by
  induction p generalizing t with
  | nil => exact h
  | cons k p ih => exact ih (h.child k)

theorem Pruned.setChild {n t : PathTree κ α} (hn : Pruned n) (ht : Pruned t) (k : κ) :
    Pruned (setChild k n t) := by
  have hne : n.isEmpty ≠ true → n ≠ empty := fun h he => h (isEmpty_iff.mpr he)
  cases ht with
  | leaf v =>
    simp only [PathTree.setChild]
    split
    · exact .leaf v
    · rename_i h
      exact .branch _ (by simpa using hn) (by simpa using hne h)
  | branch cs hcs hall =>
    simp only [PathTree.setChild]
    split
    · exact .branch _ (fun c hc => hcs c (List.mem_of_mem_filter hc))
        fun c hc => hall c (List.mem_of_mem_filter hc)
    · rename_i h
      refine .branch _ (fun c hc => ?_) fun c hc => ?_
      · rcases mem_setKey hc with rfl | hc
        · exact hn
        · exact hcs c hc
      · rcases mem_setKey hc with rfl | hc
        · exact hne h
        · exact hall c hc

theorem Pruned.set {n t : PathTree κ α} (hn : Pruned n) (ht : Pruned t) (p : List κ) :
    Pruned (set p n t) := by
  induction p generalizing t with
  | nil => exact hn
  | cons k p ih =>
    rw [set_cons]
    exact (ih (ht.child k)).setChild ht k

theorem Pruned.exists_leaf {t : PathTree κ α} (h : Pruned t) (hne : t ≠ empty) :
    ∃ p v, leafAt p t = some v := by
  induction h with
  | leaf v => exact ⟨[], v, rfl⟩
  | branch cs hcs hall ih =>
    cases cs with
    | nil => exact absurd rfl hne
    | cons c rest =>
      obtain ⟨p, v, hv⟩ := ih c List.mem_cons_self (hall c List.mem_cons_self)
      refine ⟨c.1 :: p, v, ?_⟩
      rw [leafAt_cons]
      simpa [PathTree.child, children, getKey] using hv

/-- A pruned tree is empty where it has no leaf. -/
theorem Pruned.isEmpty_iff {t : PathTree κ α} (h : Pruned t) :
    t.isEmpty = true ↔ ∀ p, leafAt p t = none := by
  constructor
  · intro he p
    rw [PathTree.isEmpty_iff.mp he, leafAt_empty]
  · intro hnone
    by_contra hne
    obtain ⟨p, v, hv⟩ := h.exists_leaf fun he => hne (PathTree.isEmpty_iff.mpr he)
    rw [hnone p] at hv
    cases hv

theorem SameLeaves.isEmpty_eq {t u : PathTree κ α} (h : SameLeaves t u) (ht : Pruned t)
    (hu : Pruned u) : t.isEmpty = u.isEmpty := by
  rw [Bool.eq_iff_iff, ht.isEmpty_iff, hu.isEmpty_iff]
  simp [h _]

/-- No branch has a key twice or an empty child. -/
structure Tidy (t : PathTree κ α) : Prop where
  wellKeyed : WellKeyed t
  pruned : Pruned t

omit [DecidableEq κ] in
theorem tidy_empty : Tidy (empty : PathTree κ α) := ⟨wellKeyed_empty, pruned_empty⟩

theorem Tidy.get {t : PathTree κ α} (h : Tidy t) (p : List κ) : Tidy (get p t) :=
  ⟨h.wellKeyed.get p, h.pruned.get p⟩

theorem Tidy.child {t : PathTree κ α} (h : Tidy t) (k : κ) : Tidy (child k t) :=
  ⟨h.wellKeyed.child k, h.pruned.child k⟩

theorem Tidy.set {n t : PathTree κ α} (hn : Tidy n) (ht : Tidy t) (p : List κ) :
    Tidy (set p n t) :=
  ⟨hn.wellKeyed.set ht.wellKeyed p, hn.pruned.set ht.pruned p⟩

/-- Above a leaf there is none. -/
theorem leafAt_above_leaf {p r : List κ} (hr : r ≠ []) {t : PathTree κ α} {v : α}
    (h : leafAt (p ++ r) t = some v) : leafAt p t = none := by
  rw [leafAt_append] at h
  have hleaf : leafAt p t = leafAt [] (PathTree.get p t) := rfl
  rw [hleaf]
  generalize PathTree.get p t = u at h ⊢
  cases u with
  | branch cs => rfl
  | leaf w =>
    obtain ⟨k, q, rfl⟩ := List.exists_cons_of_ne_nil hr
    rw [leafAt_cons, child_leaf, leafAt_empty] at h
    cases h

/-- Writing what is there already changes no leaf. -/
theorem sameLeaves_set_of_get {n t : PathTree κ α} {p : List κ} (hn : Pruned n)
    (h : SameLeaves n (PathTree.get p t)) : SameLeaves (PathTree.set p n t) t := by
  intro q
  rcases path_cases p q with ⟨r, rfl⟩ | ⟨r, hr, rfl⟩ | ⟨h1, h2⟩
  · rw [leafAt_set_append, h, leafAt_append]
  · rw [leafAt_set_above hr]
    by_cases he : n.isEmpty = true
    · rw [if_pos he]
    · obtain ⟨s, v, hv⟩ := hn.exists_leaf fun hempty => he (isEmpty_iff.mpr hempty)
      rw [h, ← leafAt_append, List.append_assoc] at hv
      rw [if_neg he, leafAt_above_leaf (by simp [hr]) hv]
  · exact leafAt_set_of_apart h1 h2 n t

/-- The leaves of a tree are its own one and those of its children. -/
theorem sameLeaves_iff {t u : PathTree κ α} :
    SameLeaves t u ↔ leafAt [] t = leafAt [] u ∧ ∀ k, SameLeaves (child k t) (child k u) := by
  constructor
  · intro h
    exact ⟨h [], fun k p => h (k :: p)⟩
  · rintro ⟨hroot, hchild⟩ p
    cases p with
    | nil => exact hroot
    | cons k p => exact hchild k p

/-- A child that is not empty stands among the children. -/
theorem mem_children_of_child {t : PathTree κ α} {k : κ} (h : child k t ≠ empty) :
    (k, child k t) ∈ children t := by
  unfold PathTree.child at h ⊢
  cases hk : getKey k t.children with
  | none => simp [hk] at h
  | some n => exact mem_of_getKey hk

theorem Tidy.of_mem_children {t : PathTree κ α} (h : Tidy t) {c : κ × PathTree κ α}
    (hc : c ∈ children t) : PathTree.child c.1 t = c.2 ∧ c.2 ≠ empty := by
  have hk := (getKey_eq_some_iff (v := c.2) h.wellKeyed.nodup_children).mpr hc
  refine ⟨by simp [PathTree.child, hk], ?_⟩
  cases h.pruned with
  | leaf v => cases hc
  | branch cs _ hall => exact hall c hc

theorem get_set (p : List κ) (n t : PathTree κ α) : get p (set p n t) = n := by
  have h := get_set_append p [] n t
  rwa [List.append_nil] at h

/-- A write that changes no leaf at its path changes none. -/
theorem sameLeaves_set_of_set {n t : PathTree κ α} {p : List κ} (hn : Pruned n)
    (h : SameLeaves (PathTree.get p t) (PathTree.get p (PathTree.set p n t))) :
    SameLeaves t (PathTree.set p n t) := by
  rw [get_set] at h
  exact (sameLeaves_set_of_get hn h.symm).symm

/-! ## Writes one after the other -/

/-- The tree after the writes, the first one first. -/
def setAll (ws : List (List κ × PathTree κ α)) (t : PathTree κ α) : PathTree κ α :=
  ws.foldl (fun t w => set w.1 w.2 t) t

theorem setAll_cons (w : List κ × PathTree κ α) (ws : List (List κ × PathTree κ α))
    (t : PathTree κ α) : setAll (w :: ws) t = setAll ws (set w.1 w.2 t) := rfl

theorem setAll_append (ws vs : List (List κ × PathTree κ α)) (t : PathTree κ α) :
    setAll (ws ++ vs) t = setAll vs (setAll ws t) := by
  simp [setAll]

theorem SameLeaves.setAll {t u : PathTree κ α} (h : SameLeaves t u)
    (ws : List (List κ × PathTree κ α)) : SameLeaves (setAll ws t) (setAll ws u) := by
  induction ws generalizing t u with
  | nil => exact h
  | cons w ws ih => exact ih (h.set w.1 w.2)

/-! ## What reads and writes keep -/

/-- A property of trees that reads keep, and writes at paths of fine keys. -/
structure Kept (Fine : κ → Prop) (P : PathTree κ α → Prop) : Prop where
  empty : P empty
  get : ∀ {t : PathTree κ α} (p : List κ), P t → P (get p t)
  set : ∀ {n t : PathTree κ α} {p : List κ}, (∀ k ∈ p, Fine k) → P n → P t → P (set p n t)

/-- Every key on the way to a leaf is fine. -/
def Named (Fine : κ → Prop) (t : PathTree κ α) : Prop :=
  ∀ p v, leafAt p t = some v → ∀ k ∈ p, Fine k

section
variable {Fine : κ → Prop} {P : PathTree κ α → Prop}

theorem Kept.child (h : Kept Fine P) {t : PathTree κ α} (ht : P t) (k : κ) : P (child k t) :=
  h.get [k] ht

theorem Kept.setChild (h : Kept Fine P) {n t : PathTree κ α} {k : κ} (hk : Fine k) (hn : P n)
    (ht : P t) : P (setChild k n t) := by
  have hset := h.set (p := [k]) (by simpa using hk) hn ht
  rw [set_cons] at hset
  exact hset

theorem Kept.setAll (h : Kept Fine P) {ws : List (List κ × PathTree κ α)}
    (hws : ∀ w ∈ ws, (∀ k ∈ w.1, Fine k) ∧ P w.2) {t : PathTree κ α} (ht : P t) :
    P (setAll ws t) := by
  induction ws generalizing t with
  | nil => exact ht
  | cons w ws ih =>
    obtain ⟨hpath, hnode⟩ := hws w List.mem_cons_self
    rw [setAll_cons]
    exact ih (fun v hv => hws v (List.mem_cons_of_mem w hv)) (h.set hpath hnode ht)

theorem kept_tidy : Kept Fine (Tidy : PathTree κ α → Prop) where
  empty := tidy_empty
  get := fun p ht => ht.get p
  set := fun _ hn ht => hn.set ht _

theorem Kept.and {Q : PathTree κ α → Prop} (h : Kept Fine P) (h' : Kept Fine Q) :
    Kept Fine fun t => P t ∧ Q t where
  empty := ⟨h.empty, h'.empty⟩
  get := fun p ht => ⟨h.get p ht.1, h'.get p ht.2⟩
  set := fun hp hn ht => ⟨h.set hp hn.1 ht.1, h'.set hp hn.2 ht.2⟩

theorem named_leaf (v : α) : Named Fine (.leaf v) := by
  intro p w hw k hk
  cases p with
  | nil => cases hk
  | cons k' p =>
    rw [leafAt_cons, child_leaf, leafAt_empty] at hw
    cases hw

theorem kept_named : Kept Fine (Named Fine : PathTree κ α → Prop) where
  empty := by
    intro p v hv
    rw [leafAt_empty] at hv
    cases hv
  get := by
    intro t p ht q v hv k hk
    rw [← leafAt_append] at hv
    exact ht (p ++ q) v hv k (List.mem_append_right p hk)
  set := by
    intro n t p hp hn ht q v hv k hk
    rcases leafAt_set hv with ⟨r, rfl, hnew⟩ | ⟨_, hold⟩
    · rcases List.mem_append.mp hk with hk | hk
      · exact hp k hk
      · exact hn r v hnew k hk
    · exact ht q v hold k hk

end

mutual

/-- The keys of the tree, with those of its children. -/
def keys : PathTree κ α → List κ
  | .leaf _ => []
  | .branch cs => childKeys cs

def childKeys : List (κ × PathTree κ α) → List κ
  | [] => []
  | (k, t) :: rest => k :: (keys t ++ childKeys rest)

end

omit [DecidableEq κ] in
theorem mem_childKeys {cs : List (κ × PathTree κ α)} {c : κ × PathTree κ α} (h : c ∈ cs) :
    c.1 ∈ childKeys cs ∧ ∀ k ∈ keys c.2, k ∈ childKeys cs := by
  induction cs with
  | nil => cases h
  | cons d rest ih =>
    rw [childKeys]
    rcases List.mem_cons.mp h with rfl | hrest
    · exact ⟨List.mem_cons_self, fun k hk =>
        List.mem_cons_of_mem _ (List.mem_append_left _ hk)⟩
    · obtain ⟨hkey, hkeys⟩ := ih hrest
      exact ⟨List.mem_cons_of_mem _ (List.mem_append_right _ hkey), fun k hk =>
        List.mem_cons_of_mem _ (List.mem_append_right _ (hkeys k hk))⟩

theorem named_of_keys {Fine : κ → Prop} {t : PathTree κ α} (h : ∀ k ∈ keys t, Fine k) :
    Named Fine t := by
  intro p v hv k hk
  induction p generalizing t with
  | nil => cases hk
  | cons k' p ih =>
    rw [leafAt_cons] at hv
    have hne : child k' t ≠ empty := by
      intro he
      rw [he, leafAt_empty] at hv
      cases hv
    have hchild := mem_children_of_child hne
    cases t with
    | leaf w => cases hchild
    | branch cs =>
      obtain ⟨hkey, hkeys⟩ := mem_childKeys hchild
      rcases List.mem_cons.mp hk with rfl | hk
      · exact h k hkey
      · exact ih (fun j hj => h j (hkeys j hj)) hv hk

/-- Writes at paths that are all apart from a path change nothing there. -/
theorem leafAt_setAll_of_apart {ws : List (List κ × PathTree κ α)} {p : List κ}
    (h : ∀ w ∈ ws, ApartPaths w.1 p) (t : PathTree κ α) :
    leafAt p (setAll ws t) = leafAt p t := by
  induction ws generalizing t with
  | nil => rfl
  | cons w ws ih =>
    obtain ⟨h1, h2⟩ := h w List.mem_cons_self
    rw [setAll_cons, ih fun v hv => h v (List.mem_cons_of_mem w hv)]
    exact leafAt_set_of_apart h1 h2 w.2 t

/-- Where the paths of the writes are apart, each of them decides what is below it. -/
theorem leafAt_setAll_of_mem {ws : List (List κ × PathTree κ α)}
    (hapart : ws.Pairwise fun v w => ApartPaths v.1 w.1) {w : List κ × PathTree κ α}
    (hw : w ∈ ws) (r : List κ) (t : PathTree κ α) :
    leafAt (w.1 ++ r) (setAll ws t) = leafAt r w.2 := by
  induction ws generalizing t with
  | nil => cases hw
  | cons v ws ih =>
    obtain ⟨hv, hrest⟩ := List.pairwise_cons.mp hapart
    rw [setAll_cons]
    rcases List.mem_cons.mp hw with rfl | hw
    · rw [leafAt_setAll_of_apart fun v hv' => (hv v hv').symm.append r, leafAt_set_append]
    · exact ih hrest hw _

/-- Above the paths of the writes a leaf stays where all of them remove. -/
theorem leafAt_setAll_of_removals {ws : List (List κ × PathTree κ α)} {p : List κ}
    (habove : ∀ w ∈ ws, ¬ w.1 <+: p) (hempty : ∀ w ∈ ws, p <+: w.1 → w.2.isEmpty = true)
    (t : PathTree κ α) : leafAt p (setAll ws t) = leafAt p t := by
  induction ws generalizing t with
  | nil => rfl
  | cons w ws ih =>
    have hw := habove w List.mem_cons_self
    rw [setAll_cons, ih (fun v hv => habove v (List.mem_cons_of_mem w hv))
      fun v hv => hempty v (List.mem_cons_of_mem w hv)]
    by_cases hp : p <+: w.1
    · have he := hempty w List.mem_cons_self hp
      obtain ⟨r, hr⟩ := hp
      have hne : r ≠ [] := by
        rintro rfl
        exact hw (by simp [← hr])
      rw [← hr, leafAt_set_above hne, if_pos he]
    · exact leafAt_set_of_apart hw hp w.2 t

/-- Above a write that leaves something there is no leaf. -/
theorem leafAt_setAll_of_write {ws : List (List κ × PathTree κ α)} {p : List κ}
    (habove : ∀ w ∈ ws, ¬ w.1 <+: p) {w : List κ × PathTree κ α} (hw : w ∈ ws)
    (hp : p <+: w.1) (hne : w.2.isEmpty = false) (t : PathTree κ α) :
    leafAt p (setAll ws t) = none := by
  have hstrict : ∀ v ∈ ws, p <+: v.1 → ∃ r, r ≠ [] ∧ v.1 = p ++ r := by
    rintro v hv ⟨r, hr⟩
    refine ⟨r, ?_, hr.symm⟩
    rintro rfl
    exact habove v hv (by simp [← hr])
  have hkeeps : ∀ vs : List (List κ × PathTree κ α), (∀ v ∈ vs, v ∈ ws) →
      ∀ u : PathTree κ α, leafAt p u = none → leafAt p (setAll vs u) = none := by
    intro vs hvs
    induction vs with
    | nil => exact fun u hu => hu
    | cons v vs ih =>
      intro u hu
      rw [setAll_cons]
      apply ih fun x hx => hvs x (List.mem_cons_of_mem v hx)
      have hv := hvs v List.mem_cons_self
      by_cases hpv : p <+: v.1
      · obtain ⟨r, hr, hvr⟩ := hstrict v hv hpv
        rw [hvr, leafAt_set_above hr, hu, ite_self]
      · rw [leafAt_set_of_apart (habove v hv) hpv, hu]
  obtain ⟨before, after, hws⟩ := List.append_of_mem hw
  obtain ⟨r, hr, hwr⟩ := hstrict w hw hp
  rw [hws, setAll_append, setAll_cons]
  apply hkeeps after
  · intro v hv
    simp [hws, hv]
  · rw [hwr, leafAt_set_above hr, hne]
    rfl

/-! ## The comparison of trees -/

variable [DecidableEq α]

mutual

/-- As many children, and equal ones under each key. -/
def isEqual : PathTree κ α → PathTree κ α → Bool
  | .leaf v, .leaf w => v = w
  | .branch cs, .branch ds => cs.length = ds.length && childrenEqual cs ds
  | _, _ => false

def childrenEqual : List (κ × PathTree κ α) → List (κ × PathTree κ α) → Bool
  | [], _ => true
  | (k, n) :: rest, ds => isEqual n ((getKey k ds).getD empty) && childrenEqual rest ds

end

theorem childrenEqual_iff {cs ds : List (κ × PathTree κ α)} :
    childrenEqual cs ds = true ↔
      ∀ c ∈ cs, isEqual c.2 ((getKey c.1 ds).getD empty) = true := by
  induction cs with
  | nil => simp [childrenEqual]
  | cons c rest ih => simp [childrenEqual, ih]

omit [DecidableEq κ] [DecidableEq α] in
theorem WellKeyed.nodup_keys {cs : List (κ × PathTree κ α)} (h : WellKeyed (.branch cs)) :
    (cs.map Prod.fst).Nodup := h.nodup_children

omit [DecidableEq α] in
theorem child_of_mem {cs : List (κ × PathTree κ α)} (hn : (cs.map Prod.fst).Nodup)
    {c : κ × PathTree κ α} (hc : c ∈ cs) : child c.1 (.branch cs) = c.2 := by
  have hk := (getKey_eq_some_iff (v := c.2) hn).mpr hc
  simp [child, children, hk]

omit [DecidableEq α] in
/-- A branch has a key exactly where its child is not empty. -/
theorem Tidy.mem_keys_iff {cs : List (κ × PathTree κ α)} (h : Tidy (.branch cs)) {k : κ} :
    k ∈ cs.map Prod.fst ↔ PathTree.child k (.branch cs) ≠ empty := by
  constructor
  · intro hk
    obtain ⟨c, hc, rfl⟩ := List.mem_map.mp hk
    rw [child_of_mem h.wellKeyed.nodup_keys hc]
    cases h.pruned with
    | branch _ _ hall => exact hall c hc
  · intro hne
    by_contra hk
    apply hne
    have hnone : getKey k cs = none := by
      by_contra hsome
      obtain ⟨n, hn⟩ := Option.ne_none_iff_exists'.mp hsome
      exact hk (List.mem_map_of_mem (mem_of_getKey hn))
    simp [PathTree.child, children, hnone]

omit [DecidableEq α] in
theorem SameLeaves.child {t u : PathTree κ α} (h : SameLeaves t u) (k : κ) :
    SameLeaves (PathTree.child k t) (PathTree.child k u) := fun p => h (k :: p)

omit [DecidableEq α] in
theorem SameLeaves.keys_subset {cs ds : List (κ × PathTree κ α)} (ht : Tidy (.branch cs))
    (hu : Tidy (.branch ds)) (h : SameLeaves (.branch cs) (.branch ds)) :
    cs.map Prod.fst ⊆ ds.map Prod.fst := by
  intro k hk
  rw [ht.mem_keys_iff] at hk
  rw [hu.mem_keys_iff]
  have he := (h.child k).isEmpty_eq (ht.child k).pruned (hu.child k).pruned
  intro hempty
  rw [hempty] at he
  exact hk (isEmpty_iff.mp he)

theorem isEqual_of_sameLeaves {t u : PathTree κ α} (ht : Tidy t) (hu : Tidy u)
    (h : SameLeaves t u) : isEqual t u = true := by
  obtain ⟨hw, hp⟩ := ht
  induction hp generalizing u with
  | leaf v =>
    have hroot := h []
    cases u with
    | leaf w => simpa [leafAt, get, isEqual] using hroot
    | branch ds => simp [leafAt, get] at hroot
  | branch cs hcs hall ih =>
    have hroot := h []
    cases u with
    | leaf w => simp [leafAt, get] at hroot
    | branch ds =>
      have ht : Tidy (.branch cs) := ⟨hw, .branch cs hcs hall⟩
      have hnt := hw.nodup_keys
      have hnu := hu.wellKeyed.nodup_keys
      have hkeys : (cs.map Prod.fst).Perm (ds.map Prod.fst) :=
        (List.subperm_of_subset hnt (h.keys_subset ht hu)).antisymm
          (List.subperm_of_subset hnu (h.symm.keys_subset hu ht))
      have hlen : cs.length = ds.length := by simpa using hkeys.length_eq
      rw [isEqual, decide_eq_true hlen, Bool.true_and, childrenEqual_iff]
      intro c hc
      apply ih c hc (hu.child c.1) _ (hw.of_mem hc)
      intro p
      have hp := h (c.1 :: p)
      rwa [leafAt_cons, child_of_mem hnt hc] at hp

theorem sameLeaves_of_isEqual {t u : PathTree κ α} (ht : Tidy t) (hu : Tidy u)
    (h : isEqual t u = true) : SameLeaves t u := by
  obtain ⟨hw, hp⟩ := ht
  induction hp generalizing u with
  | leaf v =>
    cases u with
    | leaf w =>
      have hvw : v = w := by simpa [isEqual] using h
      rw [hvw]
      exact sameLeaves_refl _
    | branch ds => simp [isEqual] at h
  | branch cs hcs hall ih =>
    cases u with
    | leaf w => simp [isEqual] at h
    | branch ds =>
      have ht : Tidy (.branch cs) := ⟨hw, .branch cs hcs hall⟩
      have hnt := hw.nodup_keys
      have hnu := hu.wellKeyed.nodup_keys
      simp only [isEqual, Bool.and_eq_true, decide_eq_true_eq, childrenEqual_iff] at h
      obtain ⟨hlen, hequal⟩ := h
      have hchild : ∀ c ∈ cs, SameLeaves c.2 (PathTree.child c.1 (.branch ds)) := fun c hc =>
        ih c hc (hu.child c.1) (hequal c hc) (hw.of_mem hc)
      -- the keys of the one are keys of the other, and there are as many
      have hsub : cs.map Prod.fst ⊆ ds.map Prod.fst := by
        intro k hk
        obtain ⟨c, hc, rfl⟩ := List.mem_map.mp hk
        rw [hu.mem_keys_iff]
        intro hempty
        have hbare := (hchild c hc).isEmpty_eq (hcs c hc) (hu.child c.1).pruned
        rw [hempty] at hbare
        exact hall c hc (PathTree.isEmpty_iff.mp hbare)
      have hkeys : (cs.map Prod.fst).Perm (ds.map Prod.fst) :=
        (List.subperm_of_subset hnt hsub).perm_of_length_le (by simp [hlen])
      intro p
      cases p with
      | nil => rfl
      | cons k p =>
        rw [leafAt_cons, leafAt_cons]
        by_cases hk : k ∈ cs.map Prod.fst
        · obtain ⟨c, hc, rfl⟩ := List.mem_map.mp hk
          rw [child_of_mem hnt hc]
          exact hchild c hc p
        · have hcs' : PathTree.child k (.branch cs) = empty := by
            by_contra hne
            exact hk (ht.mem_keys_iff.mpr hne)
          have hds' : PathTree.child k (.branch ds) = empty := by
            by_contra hne
            exact hk (hkeys.mem_iff.mpr (hu.mem_keys_iff.mpr hne))
          rw [hcs', hds']

/-- Tidy trees are equal for `isEqual` where they have the same leaves. -/
theorem isEqual_iff {t u : PathTree κ α} (ht : Tidy t) (hu : Tidy u) :
    isEqual t u = true ↔ SameLeaves t u :=
  ⟨sameLeaves_of_isEqual ht hu, isEqual_of_sameLeaves ht hu⟩

end path_tree.PathTree
