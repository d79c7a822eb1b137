-- Lists of entries in the order of their keys, each key at most once. A key is
-- the key of an entry when the comparison of the two says `eq`, so two keys
-- that differ can stand for one entry.
import Mathlib.Data.List.Basic
import Mathlib.Data.List.Chain
import Mathlib.Data.List.Pairwise

open Std

namespace sorted_entries

variable {κ β : Type*} {cmp : κ → κ → Ordering}

/-! ## The operations -/

/-- The keys ascend. -/
def Sorted (cmp : κ → κ → Ordering) (es : List (κ × β)) : Prop :=
  es.Pairwise fun a b => cmp a.1 b.1 = .lt

instance (cmp : κ → κ → Ordering) (es : List (κ × β)) : Decidable (Sorted cmp es) :=
  inferInstanceAs (Decidable (es.Pairwise fun a b => cmp a.1 b.1 = .lt))

/-- The entries with the value at the key. An entry that is there keeps its
own key. -/
def insertEntry (cmp : κ → κ → Ordering) (k : κ) (v : β) : List (κ × β) → List (κ × β)
  | [] => [(k, v)]
  | e :: rest =>
    match cmp k e.1 with
    | .lt => (k, v) :: e :: rest
    | .eq => (e.1, v) :: rest
    | .gt => e :: insertEntry cmp k v rest

/-- The entries of every other key. -/
def eraseEntry (cmp : κ → κ → Ordering) (k : κ) (es : List (κ × β)) : List (κ × β) :=
  es.filter fun e => cmp k e.1 ≠ .eq

/-- The value of the first entry with the key. -/
def findEntry (cmp : κ → κ → Ordering) (k : κ) : List (κ × β) → Option β
  | [] => none
  | e :: rest => if cmp k e.1 = .eq then some e.2 else findEntry cmp k rest

/-- The entries whose keys come before the key. -/
def entriesBefore (cmp : κ → κ → Ordering) (k : κ) (es : List (κ × β)) : List (κ × β) :=
  es.filter fun e => cmp e.1 k = .lt

/-- The entries in the order of their keys. -/
def sortEntries (cmp : κ → κ → Ordering) (es : List (κ × β)) : List (κ × β) :=
  es.mergeSort fun a b => (cmp a.1 b.1).isLE

/-- No two of the entries share a key. -/
def Apart (cmp : κ → κ → Ordering) (es : List (κ × β)) : Prop :=
  es.Pairwise fun a b => cmp a.1 b.1 ≠ .eq

/-- The same values in the same order, under keys that compare equal. -/
def SameEntries (cmp : κ → κ → Ordering) (es fs : List (κ × β)) : Prop :=
  List.Forall₂ (fun a b => cmp a.1 b.1 = .eq ∧ a.2 = b.2) es fs

theorem sorted_nil : Sorted cmp ([] : List (κ × β)) := List.Pairwise.nil

theorem sorted_append {l r : List (κ × β)} :
    Sorted cmp (l ++ r) ↔
      Sorted cmp l ∧ Sorted cmp r ∧ ∀ a ∈ l, ∀ b ∈ r, cmp a.1 b.1 = .lt :=
  List.pairwise_append

theorem sorted_cons {e : κ × β} {es : List (κ × β)} :
    Sorted cmp (e :: es) ↔ (∀ b ∈ es, cmp e.1 b.1 = .lt) ∧ Sorted cmp es :=
  List.pairwise_cons

theorem Sorted.sublist {es fs : List (κ × β)} (h : Sorted cmp fs) (hs : es.Sublist fs) :
    Sorted cmp es :=
  List.Pairwise.sublist hs h

theorem Sorted.apart {es : List (κ × β)} (hs : Sorted cmp es) : Apart cmp es := by
  refine List.Pairwise.imp ?_ hs
  intro a b h
  simp [h]

/-- What stands before and after an entry. -/
theorem sorted_middle {l r : List (κ × β)} {e : κ × β} (h : Sorted cmp (l ++ e :: r)) :
    Sorted cmp l ∧ Sorted cmp r ∧ (∀ a ∈ l, cmp a.1 e.1 = .lt) ∧ ∀ b ∈ r, cmp e.1 b.1 = .lt := by
  obtain ⟨hl, hr, hlr⟩ := sorted_append.mp h
  obtain ⟨her, hr⟩ := sorted_cons.mp hr
  exact ⟨hl, hr, fun a ha => hlr a ha e List.mem_cons_self, her⟩

/-! ## An insertion -/

/-- The key of an entry after an insertion is the new key or a key from before. -/
theorem mem_keys_insertEntry {k : κ} {v : β} {a : κ × β} {es : List (κ × β)}
    (h : a ∈ insertEntry cmp k v es) : a.1 = k ∨ ∃ b ∈ es, b.1 = a.1 := by
  induction es with
  | nil => exact Or.inl (by rw [List.mem_singleton.mp h])
  | cons e rest ih =>
    simp only [insertEntry] at h
    split at h
    · rcases List.mem_cons.mp h with rfl | h
      · exact Or.inl rfl
      · exact Or.inr ⟨a, h, rfl⟩
    · rcases List.mem_cons.mp h with rfl | h
      · exact Or.inr ⟨e, List.mem_cons_self, rfl⟩
      · exact Or.inr ⟨a, List.mem_cons_of_mem _ h, rfl⟩
    · rcases List.mem_cons.mp h with rfl | h
      · exact Or.inr ⟨a, List.mem_cons_self, rfl⟩
      · rcases ih h with h | ⟨b, hb, he⟩
        · exact Or.inl h
        · exact Or.inr ⟨b, List.mem_cons_of_mem _ hb, he⟩

/-- An insertion before an entry passes it by. -/
theorem insertEntry_append_of_lt {k : κ} {v : β} {l r : List (κ × β)} {e : κ × β}
    (h : cmp k e.1 = .lt) :
    insertEntry cmp k v (l ++ e :: r) = insertEntry cmp k v l ++ e :: r := by
  induction l with
  | nil => simp [insertEntry, h]
  | cons a l ih =>
    simp only [List.cons_append, insertEntry]
    split
    · rfl
    · rfl
    · rw [ih, List.cons_append]

/-! ## A removal -/

theorem Sorted.eraseEntry {es : List (κ × β)} (hs : Sorted cmp es) (k : κ) :
    Sorted cmp (eraseEntry cmp k es) :=
  hs.sublist List.filter_sublist

@[simp] theorem eraseEntry_append (k : κ) (l r : List (κ × β)) :
    eraseEntry cmp k (l ++ r) = eraseEntry cmp k l ++ eraseEntry cmp k r := by
  simp only [eraseEntry, List.filter_append]

/-- Without an entry for the key there is nothing to remove. -/
theorem eraseEntry_eq_self {k : κ} {es : List (κ × β)} (h : ∀ e ∈ es, cmp k e.1 ≠ .eq) :
    eraseEntry cmp k es = es := by
  unfold eraseEntry
  rw [List.filter_eq_self]
  intro e he
  simpa using h e he

theorem eraseEntry_cons_of_ne {k : κ} {e : κ × β} {es : List (κ × β)} (h : cmp k e.1 ≠ .eq) :
    eraseEntry cmp k (e :: es) = e :: eraseEntry cmp k es := by
  simp [eraseEntry, h]

theorem eraseEntry_cons_of_eq {k : κ} {e : κ × β} {es : List (κ × β)} (h : cmp k e.1 = .eq) :
    eraseEntry cmp k (e :: es) = eraseEntry cmp k es := by
  simp [eraseEntry, h]

/-! ## What is found -/

theorem findEntry_eq_none_iff {k : κ} {es : List (κ × β)} :
    findEntry cmp k es = none ↔ ∀ e ∈ es, cmp k e.1 ≠ .eq := by
  induction es with
  | nil => simp [findEntry]
  | cons e rest ih =>
    simp only [findEntry, List.forall_mem_cons]
    split
    · rename_i h
      simp [h]
    · rename_i h
      rw [ih]
      simp [h]

theorem mem_of_findEntry {k : κ} {v : β} {es : List (κ × β)} (h : findEntry cmp k es = some v) :
    ∃ k', cmp k k' = .eq ∧ (k', v) ∈ es := by
  induction es with
  | nil => cases h
  | cons e rest ih =>
    simp only [findEntry] at h
    split at h
    · rename_i heq
      cases h
      exact ⟨e.1, heq, List.mem_cons_self⟩
    · obtain ⟨k', hk, hm⟩ := ih h
      exact ⟨k', hk, List.mem_cons_of_mem _ hm⟩

theorem findEntry_append {k : κ} {l r : List (κ × β)} :
    findEntry cmp k (l ++ r) = (findEntry cmp k l).or (findEntry cmp k r) := by
  induction l with
  | nil => rfl
  | cons e l ih =>
    simp only [List.cons_append, findEntry]
    split
    · rfl
    · exact ih

theorem findEntry_eraseEntry_self {k : κ} (es : List (κ × β)) :
    findEntry cmp k (eraseEntry cmp k es) = none := by
  rw [findEntry_eq_none_iff]
  intro e he
  simpa [eraseEntry] using (List.mem_filter.mp he).2

/-! ## In a total preorder -/

section
variable [TransCmp cmp]

/-- An insertion past an entry leaves what comes before as it is. -/
theorem insertEntry_append_of_gt {k : κ} {v : β} {l r : List (κ × β)} {e : κ × β}
    (hs : Sorted cmp (l ++ e :: r)) (h : cmp k e.1 = .gt) :
    insertEntry cmp k v (l ++ e :: r) = l ++ e :: insertEntry cmp k v r := by
  obtain ⟨-, -, hle, -⟩ := sorted_middle hs
  induction l with
  | nil => simp [insertEntry, h]
  | cons a l ih =>
    have ha : cmp k a.1 = .gt :=
      TransCmp.gt_trans h (OrientedCmp.gt_of_lt (hle a List.mem_cons_self))
    have hrest := ih (sorted_cons.mp hs).2 fun b hb => hle b (List.mem_cons_of_mem _ hb)
    simp [insertEntry, ha, hrest]

/-- An insertion at an entry. -/
theorem insertEntry_append_of_eq {k : κ} {v : β} {l r : List (κ × β)} {e : κ × β}
    (hs : Sorted cmp (l ++ e :: r)) (h : cmp k e.1 = .eq) :
    insertEntry cmp k v (l ++ e :: r) = l ++ (e.1, v) :: r := by
  obtain ⟨-, -, hle, -⟩ := sorted_middle hs
  induction l with
  | nil => simp [insertEntry, h]
  | cons a l ih =>
    have ha : cmp k a.1 = .gt :=
      TransCmp.gt_of_eq_of_gt h (OrientedCmp.gt_of_lt (hle a List.mem_cons_self))
    have hrest := ih (sorted_cons.mp hs).2 fun b hb => hle b (List.mem_cons_of_mem _ hb)
    simp [insertEntry, ha, hrest]

omit [TransCmp cmp] in
theorem perm_insertEntry {k : κ} {es : List (κ × β)} (h : findEntry cmp k es = none) (v : β) :
    (insertEntry cmp k v es).Perm (es ++ [(k, v)]) := by
  induction es with
  | nil => exact List.Perm.refl _
  | cons e rest ih =>
    simp only [findEntry] at h
    simp only [insertEntry]
    split
    · exact (List.perm_append_singleton (k, v) (e :: rest)).symm
    · rename_i heq
      simp [heq] at h
    · rename_i hgt
      exact (ih (by simpa [hgt] using h)).cons e

theorem Sorted.insertEntry {es : List (κ × β)} (hs : Sorted cmp es) (k : κ) (v : β) :
    Sorted cmp (insertEntry cmp k v es) := by
  induction es with
  | nil => exact List.pairwise_singleton _ _
  | cons e rest ih =>
    obtain ⟨he, hrest⟩ := sorted_cons.mp hs
    simp only [sorted_entries.insertEntry]
    split
    · rename_i hlt
      refine sorted_cons.mpr ⟨fun b hb => ?_, hs⟩
      rcases List.mem_cons.mp hb with rfl | hb
      · exact hlt
      · exact TransCmp.lt_trans hlt (he b hb)
    · exact sorted_cons.mpr ⟨he, hrest⟩
    · rename_i hgt
      refine sorted_cons.mpr ⟨fun b hb => ?_, ih hrest⟩
      rcases mem_keys_insertEntry hb with hk | ⟨c, hc, hk⟩
      · rw [hk]
        exact OrientedCmp.lt_of_gt hgt
      · rw [← hk]
        exact he c hc

/-! ### A removal -/

/-- The entries after a key at or past the removed one stay. -/
theorem eraseEntry_eq_self_of_gt {k k' : κ} {es : List (κ × β)} (hk : cmp k k' ≠ .gt)
    (h : ∀ e ∈ es, cmp k' e.1 = .lt) : eraseEntry cmp k es = es := by
  apply eraseEntry_eq_self
  intro e he heq
  have hlt : cmp k' k = .lt := TransCmp.lt_of_lt_of_eq (h e he) (OrientedCmp.eq_symm heq)
  exact hk (OrientedCmp.gt_of_lt hlt)

/-- The entries before a key at or before the removed one stay. -/
theorem eraseEntry_eq_self_of_lt {k k' : κ} {es : List (κ × β)} (hk : cmp k k' ≠ .lt)
    (h : ∀ e ∈ es, cmp e.1 k' = .lt) : eraseEntry cmp k es = es := by
  apply eraseEntry_eq_self
  intro e he heq
  exact hk (TransCmp.lt_of_eq_of_lt heq (h e he))

/-- An insertion leaves the entries of every other key. -/
theorem mem_insertEntry_of_ne {k : κ} {v : β} {a : κ × β} (h : cmp k a.1 ≠ .eq)
    {es : List (κ × β)} : a ∈ insertEntry cmp k v es ↔ a ∈ es := by
  have hne : ∀ {k' : κ}, cmp k k' = .eq → ∀ w : β, a ≠ (k', w) := by
    rintro k' hk w rfl
    exact h hk
  induction es with
  | nil => simp [insertEntry, hne ReflCmp.compare_self]
  | cons e rest ih =>
    simp only [sorted_entries.insertEntry]
    split
    · simp [hne ReflCmp.compare_self]
    · rename_i heq
      have he : a ≠ e := hne heq e.2
      rw [List.mem_cons, List.mem_cons, or_iff_right (hne heq v), or_iff_right he]
    · simp [ih]

/-! ### What is found -/

/-- In order, the entries are the graph of what is found. -/
theorem findEntry_eq_some_iff {k : κ} {v : β} {es : List (κ × β)} (hs : Sorted cmp es) :
    findEntry cmp k es = some v ↔ ∃ k', cmp k k' = .eq ∧ (k', v) ∈ es := by
  refine ⟨mem_of_findEntry, ?_⟩
  rintro ⟨k', hk, hm⟩
  induction es with
  | nil => cases hm
  | cons e rest ih =>
    obtain ⟨he, hrest⟩ := sorted_cons.mp hs
    simp only [findEntry]
    rcases List.mem_cons.mp hm with rfl | hm
    · rw [if_pos hk]
    · have hlt : cmp e.1 k = .lt := TransCmp.lt_of_lt_of_eq (he _ hm) (OrientedCmp.eq_symm hk)
      rw [if_neg (by rw [OrientedCmp.gt_of_lt hlt]; decide)]
      exact ih hrest hm

theorem findEntry_congr {k k' : κ} (h : cmp k k' = .eq) (es : List (κ × β)) :
    findEntry cmp k es = findEntry cmp k' es := by
  induction es with
  | nil => rfl
  | cons e rest ih =>
    simp only [findEntry, TransCmp.congr_left h, ih]

theorem findEntry_eq_none_of_before {k k' : κ} {es : List (κ × β)} (hk : cmp k k' ≠ .lt)
    (h : ∀ e ∈ es, cmp e.1 k' = .lt) : findEntry cmp k es = none :=
  findEntry_eq_none_iff.mpr fun e he heq => hk (TransCmp.lt_of_eq_of_lt heq (h e he))

theorem findEntry_eq_none_of_after {k k' : κ} {es : List (κ × β)} (hk : cmp k k' ≠ .gt)
    (h : ∀ e ∈ es, cmp k' e.1 = .lt) : findEntry cmp k es = none := by
  refine findEntry_eq_none_iff.mpr fun e he heq => hk (OrientedCmp.gt_of_lt ?_)
  exact TransCmp.lt_of_lt_of_eq (h e he) (OrientedCmp.eq_symm heq)

theorem findEntry_append_of_lt {k : κ} {e : κ × β} {l r : List (κ × β)}
    (hs : Sorted cmp (l ++ e :: r)) (h : cmp k e.1 = .lt) :
    findEntry cmp k (l ++ e :: r) = findEntry cmp k l := by
  obtain ⟨-, -, -, her⟩ := sorted_middle hs
  rw [findEntry_append, findEntry, findEntry_eq_none_of_after (by simp [h]) her]
  simp [h]

theorem findEntry_append_of_gt {k : κ} {e : κ × β} {l r : List (κ × β)}
    (hs : Sorted cmp (l ++ e :: r)) (h : cmp k e.1 = .gt) :
    findEntry cmp k (l ++ e :: r) = findEntry cmp k r := by
  obtain ⟨-, -, hle, -⟩ := sorted_middle hs
  rw [findEntry_append, findEntry, findEntry_eq_none_of_before (by simp [h]) hle]
  simp [h]

theorem findEntry_append_of_eq {k : κ} {e : κ × β} {l r : List (κ × β)}
    (hs : Sorted cmp (l ++ e :: r)) (h : cmp k e.1 = .eq) :
    findEntry cmp k (l ++ e :: r) = some e.2 := by
  obtain ⟨-, -, hle, -⟩ := sorted_middle hs
  rw [findEntry_append, findEntry, findEntry_eq_none_of_before (by simp [h]) hle]
  simp [h]

/-! ### What comes before a key -/

theorem entriesBefore_eq_self {k k' : κ} {es : List (κ × β)} (hk : cmp k k' ≠ .lt)
    (h : ∀ e ∈ es, cmp e.1 k' = .lt) : entriesBefore cmp k es = es := by
  unfold entriesBefore
  rw [List.filter_eq_self]
  intro e he
  have hlt : cmp e.1 k = .lt := by
    cases hcmp : cmp k' k with
    | lt => exact TransCmp.lt_trans (h e he) hcmp
    | eq => exact TransCmp.lt_of_lt_of_eq (h e he) hcmp
    | gt => exact absurd (OrientedCmp.lt_of_gt hcmp) hk
  simpa using hlt

theorem entriesBefore_eq_nil {k k' : κ} {es : List (κ × β)} (hk : cmp k k' ≠ .gt)
    (h : ∀ e ∈ es, cmp k' e.1 = .lt) : entriesBefore cmp k es = [] := by
  unfold entriesBefore
  rw [List.filter_eq_nil_iff]
  intro e he hlt
  apply hk
  apply OrientedCmp.gt_of_lt
  exact TransCmp.lt_trans (h e he) (by simpa using hlt)

theorem entriesBefore_append_of_lt {k : κ} {e : κ × β} {l r : List (κ × β)}
    (hs : Sorted cmp (l ++ e :: r)) (h : cmp k e.1 = .lt) :
    entriesBefore cmp k (l ++ e :: r) = entriesBefore cmp k l := by
  obtain ⟨-, -, -, her⟩ := sorted_middle hs
  have hr := entriesBefore_eq_nil (k := k) (by simp [h]) her
  have he : ¬ cmp e.1 k = .lt := by simp [OrientedCmp.gt_of_lt h]
  unfold entriesBefore at hr ⊢
  rw [List.filter_append, List.filter_cons_of_neg (by simpa using he), hr, List.append_nil]

theorem entriesBefore_append_of_eq {k : κ} {e : κ × β} {l r : List (κ × β)}
    (hs : Sorted cmp (l ++ e :: r)) (h : cmp k e.1 = .eq) :
    entriesBefore cmp k (l ++ e :: r) = l := by
  obtain ⟨-, -, hle, her⟩ := sorted_middle hs
  have hr := entriesBefore_eq_nil (k := k) (by simp [h]) her
  have hl := entriesBefore_eq_self (k := k) (by simp [h]) hle
  have he : ¬ cmp e.1 k = .lt := by simp [OrientedCmp.eq_symm h]
  unfold entriesBefore at hr hl ⊢
  rw [List.filter_append, List.filter_cons_of_neg (by simpa using he), hr, hl, List.append_nil]

theorem entriesBefore_append_of_gt {k : κ} {e : κ × β} {l r : List (κ × β)}
    (hs : Sorted cmp (l ++ e :: r)) (h : cmp k e.1 = .gt) :
    entriesBefore cmp k (l ++ e :: r) = l ++ e :: entriesBefore cmp k r := by
  obtain ⟨-, -, hle, -⟩ := sorted_middle hs
  have hl := entriesBefore_eq_self (k := k) (by simp [h]) hle
  have he : cmp e.1 k = .lt := OrientedCmp.lt_of_gt h
  unfold entriesBefore at hl ⊢
  rw [List.filter_append, List.filter_cons_of_pos (by simpa using he), hl]

@[simp] theorem findEntry_insertEntry_self (k : κ) (v : β) (es : List (κ × β)) :
    findEntry cmp k (insertEntry cmp k v es) = some v := by
  induction es with
  | nil => simp [insertEntry, findEntry, ReflCmp.compare_self]
  | cons e rest ih =>
    simp only [insertEntry]
    split
    · simp [findEntry, ReflCmp.compare_self]
    · rename_i heq
      simp [findEntry, heq]
    · rename_i hgt
      simpa [findEntry, hgt] using ih

theorem findEntry_insertEntry_of_ne {k k' : κ} (h : cmp k' k ≠ .eq) (v : β)
    (es : List (κ × β)) :
    findEntry cmp k' (insertEntry cmp k v es) = findEntry cmp k' es := by
  induction es with
  | nil => simp [insertEntry, findEntry, h]
  | cons e rest ih =>
    simp only [insertEntry]
    split
    · simp [findEntry, h]
    · rename_i heq
      have hne : cmp k' e.1 ≠ .eq := fun he => h (TransCmp.eq_trans he (OrientedCmp.eq_symm heq))
      simp [findEntry, hne]
    · simp only [findEntry, ih]

theorem findEntry_eraseEntry_of_ne {k k' : κ} (h : cmp k' k ≠ .eq) (es : List (κ × β)) :
    findEntry cmp k' (eraseEntry cmp k es) = findEntry cmp k' es := by
  induction es with
  | nil => rfl
  | cons e rest ih =>
    by_cases hk : cmp k e.1 = .eq
    · have hne : cmp k' e.1 ≠ .eq := fun he => h (TransCmp.eq_trans he (OrientedCmp.eq_symm hk))
      rw [eraseEntry_cons_of_eq hk, ih]
      simp [findEntry, hne]
    · rw [eraseEntry_cons_of_ne hk]
      simp only [findEntry, ih]

/-! ### One order for one set of entries -/

/-- Entries in order are determined by which entries they are. -/
theorem Sorted.eq_of_mem_iff {es fs : List (κ × β)} (he : Sorted cmp es) (hf : Sorted cmp fs)
    (h : ∀ e, e ∈ es ↔ e ∈ fs) : es = fs := by
  have hne : ∀ {gs : List (κ × β)}, Sorted cmp gs → gs.Nodup := by
    intro gs hg
    refine List.Pairwise.imp ?_ hg
    intro a b hlt hab
    rw [hab, (ReflCmp.compare_self : cmp b.1 b.1 = .eq)] at hlt
    cases hlt
  have hp : es.Perm fs := (List.perm_ext_iff_of_nodup (hne he) (hne hf)).mpr h
  refine hp.eq_of_pairwise ?_ he hf
  intro a b _ _ hab hba
  rw [OrientedCmp.gt_of_lt hba] at hab
  cases hab

/-! ### Sorting -/

theorem apart_perm {es fs : List (κ × β)} (hp : es.Perm fs) : Apart cmp es ↔ Apart cmp fs :=
  hp.pairwise_iff fun h he => h (OrientedCmp.eq_symm he)

theorem Apart.nodup_keys {es : List (κ × β)} (ha : Apart cmp es) : (es.map Prod.fst).Nodup := by
  refine List.pairwise_map.mpr (List.Pairwise.imp ?_ ha)
  rintro a b hne he
  rw [he] at hne
  exact hne ReflCmp.compare_self

/-- A new key is apart from the others. -/
theorem apart_append {k : κ} {es : List (κ × β)} (hs : Sorted cmp es)
    (h : findEntry cmp k es = none) (v : β) : Apart cmp (es ++ [(k, v)]) :=
  (apart_perm (perm_insertEntry h v)).mp (hs.insertEntry k v).apart

theorem sorted_sortEntries_iff {es : List (κ × β)} :
    Sorted cmp (sortEntries cmp es) ↔ Apart cmp es := by
  have hperm : (sortEntries cmp es).Perm es := List.mergeSort_perm _ _
  constructor
  · intro hs
    exact (apart_perm hperm).mp hs.apart
  · intro ha
    have hle : (sortEntries cmp es).Pairwise fun a b => (cmp a.1 b.1).isLE = true := by
      apply List.pairwise_mergeSort
      · intro a b c hab hbc
        exact TransCmp.isLE_trans hab hbc
      · intro a b
        cases h : cmp a.1 b.1 with
        | lt => rfl
        | eq => rfl
        | gt => simp [OrientedCmp.lt_of_gt h]
    refine List.Pairwise.imp ?_ (hle.and ((apart_perm hperm).mpr ha))
    rintro a b ⟨hab, hne⟩
    cases h : cmp a.1 b.1 with
    | lt => rfl
    | eq => exact absurd h hne
    | gt => rw [h] at hab; cases hab

/-- Sorting forgets the order it starts from. -/
theorem sortEntries_perm {es fs : List (κ × β)} (hp : es.Perm fs) (ha : Apart cmp es) :
    sortEntries cmp es = sortEntries cmp fs := by
  have he := sorted_sortEntries_iff.mpr ha
  have hf := sorted_sortEntries_iff.mpr ((apart_perm hp).mp ha)
  refine he.eq_of_mem_iff hf fun e => ?_
  have hpe : (sortEntries cmp es).Perm es := List.mergeSort_perm _ _
  have hpf : (sortEntries cmp fs).Perm fs := List.mergeSort_perm _ _
  rw [hpe.mem_iff, hp.mem_iff, hpf.mem_iff]

theorem sortEntries_append {k : κ} {es : List (κ × β)} (hs : Sorted cmp es)
    (h : findEntry cmp k es = none) (v : β) :
    sortEntries cmp (es ++ [(k, v)]) = insertEntry cmp k v es := by
  have hi := hs.insertEntry k v
  have hp := perm_insertEntry h v
  have hsort := sorted_sortEntries_iff.mpr (apart_append hs h v)
  have hperm : (sortEntries cmp (es ++ [(k, v)])).Perm (es ++ [(k, v)]) :=
    List.mergeSort_perm _ _
  exact hsort.eq_of_mem_iff hi fun e => (hperm.trans hp.symm).mem_iff

/-- Each key before the next is each key before every later one. -/
theorem isChain_iff_sorted {es : List (κ × β)} :
    es.IsChain (fun a b => cmp a.1 b.1 = .lt) ↔ Sorted cmp es := by
  have : Trans (fun a b : κ × β => cmp a.1 b.1 = .lt) (fun a b : κ × β => cmp a.1 b.1 = .lt)
      (fun a b : κ × β => cmp a.1 b.1 = .lt) := ⟨fun hab hbc => TransCmp.lt_trans hab hbc⟩
  exact List.isChain_iff_pairwise

/-! ### Entries up to keys that compare equal -/

theorem sameEntries_refl (es : List (κ × β)) : SameEntries cmp es es := by
  induction es with
  | nil => exact .nil
  | cons e es ih => exact .cons ⟨ReflCmp.compare_self, rfl⟩ ih

theorem SameEntries.trans {es fs gs : List (κ × β)} (h : SameEntries cmp es fs)
    (h' : SameEntries cmp fs gs) : SameEntries cmp es gs := by
  induction h generalizing gs with
  | nil => exact h'
  | cons hab _ ih =>
    cases h' with
    | cons hbc hrest =>
      exact .cons ⟨TransCmp.eq_trans hab.1 hbc.1, hab.2.trans hbc.2⟩ (ih hrest)

theorem SameEntries.insertEntry {es fs : List (κ × β)} (h : SameEntries cmp es fs) (k : κ)
    (v : β) : SameEntries cmp (insertEntry cmp k v es) (insertEntry cmp k v fs) := by
  induction h with
  | nil => exact sameEntries_refl _
  | @cons a b es fs hab hrest ih =>
    simp only [sorted_entries.insertEntry, TransCmp.congr_right hab.1]
    split
    · exact .cons ⟨ReflCmp.compare_self, rfl⟩ (.cons hab hrest)
    · exact .cons ⟨hab.1, rfl⟩ hrest
    · exact .cons hab ih

omit [TransCmp cmp] in
/-- A choice that reads the keys up to equal ones. -/
theorem SameEntries.filter {p : κ → Bool} (hp : ∀ a b, cmp a b = .eq → p a = p b)
    {es fs : List (κ × β)} (h : SameEntries cmp es fs) :
    SameEntries cmp (es.filter fun e => p e.1) (fs.filter fun e => p e.1) := by
  induction h with
  | nil => exact .nil
  | @cons a b es fs hab hrest ih =>
    simp only [List.filter_cons, hp a.1 b.1 hab.1]
    split
    · exact .cons hab ih
    · exact ih

theorem SameEntries.eraseEntry {es fs : List (κ × β)} (h : SameEntries cmp es fs) (k : κ) :
    SameEntries cmp (eraseEntry cmp k es) (eraseEntry cmp k fs) :=
  h.filter (p := fun k' => decide (cmp k k' ≠ .eq)) fun a b hab => by
    rw [TransCmp.congr_right hab]

theorem SameEntries.sorted {es fs : List (κ × β)} (h : SameEntries cmp es fs)
    (hs : Sorted cmp fs) : Sorted cmp es := by
  induction h with
  | nil => exact sorted_nil
  | @cons a b es fs hab hrest ih =>
    obtain ⟨hb, hfs⟩ := sorted_cons.mp hs
    refine sorted_cons.mpr ⟨fun c hc => ?_, ih hfs⟩
    obtain ⟨d, hd, hcd⟩ : ∃ d ∈ fs, cmp c.1 d.1 = .eq := by
      clear ih hs hfs hb
      induction hrest with
      | nil => cases hc
      | cons hxy _ ih =>
        rcases List.mem_cons.mp hc with rfl | hc
        · exact ⟨_, List.mem_cons_self, hxy.1⟩
        · obtain ⟨d, hd, hcd⟩ := ih hc
          exact ⟨d, List.mem_cons_of_mem _ hd, hcd⟩
    rw [TransCmp.congr_left hab.1, TransCmp.congr_right hcd]
    exact hb d hd

theorem SameEntries.findEntry_eq {es fs : List (κ × β)} (h : SameEntries cmp es fs) (k : κ) :
    findEntry cmp k es = findEntry cmp k fs := by
  induction h with
  | nil => rfl
  | @cons a b es fs hab hrest ih =>
    simp only [findEntry, TransCmp.congr_right hab.1, hab.2, ih]

omit [TransCmp cmp] in
theorem SameEntries.keys {es fs : List (κ × β)} (h : SameEntries cmp es fs) :
    List.Forall₂ (fun a b => cmp a b = .eq) (es.map Prod.fst) (fs.map Prod.fst) := by
  induction h with
  | nil => exact .nil
  | cons hab _ ih => exact .cons hab.1 ih

omit [TransCmp cmp] in
/-- Where only the key itself compares equal, the entries are the same. -/
theorem SameEntries.eq {es fs : List (κ × β)} (h : SameEntries cmp es fs)
    (hk : ∀ b ∈ fs, ∀ k, cmp k b.1 = .eq → k = b.1) : es = fs := by
  induction h with
  | nil => rfl
  | @cons a b es fs hab hrest ih =>
    have hkey := hk b List.mem_cons_self a.1 hab.1
    rw [ih fun c hc => hk c (List.mem_cons_of_mem b hc), Prod.ext hkey hab.2]

end

end sorted_entries
