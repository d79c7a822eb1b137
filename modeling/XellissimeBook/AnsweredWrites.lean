-- The answers to the pending writes (Pods/FirebaseDatabase, FWriteTree.m). An
-- answered write leaves the list, and the compound write is repaired: it stays,
-- loses one path, or is layered again, as the other writes overlap.
import XellissimeBook.KeyOrder
import XellissimeBook.PendingWrites
import XellissimeBook.Runs

open path_tree runs
open xellissime_book.key_order
open xellissime_book.database xellissime_book.immutable_tree xellissime_book.compound_writes
open xellissime_book.pending_writes FWriteTree

namespace xellissime_book.answered_writes

/-! ## A write that is taken out -/

/-- The first has a write at the path, and but for what stands there and below
the two are alike. Nothing stands above the path. -/
structure Hidden (path : List String) (w w' : FCompoundWrite) : Prop where
  written : ∃ v, w.writeAt path = some v
  outside : ∀ p, ¬ path <+: p → w.writeAt p = w'.writeAt p
  above : ∀ p, p <+: path → p ≠ path → w'.writeAt p = none

theorem not_prefix_of_above {p q : List String} (h : p <+: q) (hne : p ≠ q) : ¬ q <+: p := by
  intro hq
  exact hne (h.eq_of_length (Nat.le_antisymm h.length_le hq.length_le))

theorem ne_of_not_above {p q : List String} (h : ¬ q <+: p) : p ≠ q := by
  rintro rfl
  exact h (List.prefix_refl p)

theorem Hidden.congr {path : List String} {w w' u u' : FCompoundWrite} (h : Hidden path w w')
    (hw : SameWrites w u) (hw' : SameWrites w' u') : Hidden path u u' where
  written := by
    obtain ⟨v, hv⟩ := h.written
    exact ⟨v, hw path ▸ hv⟩
  outside := fun p hp => by rw [← hw, ← hw', h.outside p hp]
  above := fun p hp hne => by rw [← hw', h.above p hp hne]

/-- A write that is neither at the path nor above it keeps the two so. -/
theorem Hidden.addWrite {path : List String} {w w' : FCompoundWrite} (h : Hidden path w w')
    (n : FNode) {q : List String} (hq : ¬ q <+: path) :
    Hidden path (w.addWrite n q) (w'.addWrite n q) := by
  obtain ⟨v, hv⟩ := h.written
  by_cases hbelow : path <+: q
  · -- below the path the write changes nothing outside
    obtain ⟨s, rfl⟩ := hbelow
    have hw := FCompoundWrite.writeAt_addWrite_of_shadowed (s := s) hv n
    have hw' : ∀ p, ¬ path <+: p → (w'.addWrite n (path ++ s)).writeAt p = w'.writeAt p := by
      intro p hp
      rcases w'.shadowed_or_unshadowed (path ++ s) with ⟨r, x, u, hrx, hu⟩ | hun
      · rw [hrx, FCompoundWrite.writeAt_addWrite_of_shadowed hu, if_neg]
        rintro rfl
        have hrp : p <+: path := by
          have hpre : p <+: path ++ s := ⟨x, hrx.symm⟩
          rcases List.prefix_or_prefix_of_prefix hpre (List.prefix_append path s) with h1 | h1
          · exact h1
          · exact absurd h1 hp
        rw [h.above p hrp (ne_of_not_above hp)] at hu
        cases hu
      · rw [FCompoundWrite.writeAt_addWrite_of_unshadowed hun,
          if_neg fun hpre => hp ((List.prefix_append path s).trans hpre)]
    refine ⟨⟨_, by rw [hw, if_pos rfl]⟩, fun p hp => ?_, fun p hp hne => ?_⟩
    · rw [hw, if_neg (ne_of_not_above hp), hw' p hp, h.outside p hp]
    · rw [hw' p (not_prefix_of_above hp hne), h.above p hp hne]
  · -- apart from the path both take it the same way
    have hpre : ∀ r, r <+: q → w.writeAt r = w'.writeAt r :=
      fun r hr => h.outside r fun hp => hbelow (hp.trans hr)
    rcases w.shadowed_or_unshadowed q with ⟨r, s, u, rfl, hu⟩ | hun
    · have hu' := hpre r (List.prefix_append r s) ▸ hu
      have hrp : ¬ path <+: r := fun hp => hbelow (hp.trans (List.prefix_append r s))
      have hw := FCompoundWrite.writeAt_addWrite_of_shadowed (s := s) hu n
      have hw' := FCompoundWrite.writeAt_addWrite_of_shadowed (s := s) hu' n
      refine ⟨⟨v, ?_⟩, fun p hp => ?_, fun p hp hne => ?_⟩
      · rw [hw, if_neg (Ne.symm (ne_of_not_above hrp)), hv]
      · rw [hw, hw', h.outside p hp]
      · rw [hw', if_neg, h.above p hp hne]
        rintro rfl
        rw [h.above p hp hne] at hu'
        cases hu'
    · have hun' : w'.Unshadowed q := fun r hr => by rw [← hpre r hr, hun r hr]
      have hw := FCompoundWrite.writeAt_addWrite_of_unshadowed hun n
      have hw' := FCompoundWrite.writeAt_addWrite_of_unshadowed hun' n
      refine ⟨⟨v, by rw [hw, if_neg hq, hv]⟩, fun p hp => ?_, fun p hp hne => ?_⟩
      · rw [hw, hw', h.outside p hp]
      · rw [hw', if_neg (fun hqp => hq (hqp.trans hp)), h.above p hp hne]

/-- A write at the path or above it makes the two alike. -/
theorem Hidden.shadow {path : List String} {w w' : FCompoundWrite} (h : Hidden path w w')
    (n : FNode) {q : List String} (hq : q <+: path) :
    SameWrites (w.addWrite n q) (w'.addWrite n q) := by
  obtain ⟨v, hv⟩ := h.written
  by_cases hqp : q = path
  · subst hqp
    have hw := FCompoundWrite.writeAt_addWrite_of_shadowed (s := []) hv n
    rw [List.append_nil] at hw
    -- at the path itself the new node replaces whatever is there
    have hw' : ∀ p, (w'.addWrite n q).writeAt p =
        if q <+: p then (if p = q then some n else none) else w'.writeAt p := by
      intro p
      rcases w'.shadowed_or_unshadowed q with ⟨r, s, u, rfl, hu⟩ | hun
      · have hs : s = [] := by
          by_contra hs
          rw [h.above r (List.prefix_append r s) (by simpa using hs)] at hu
          cases hu
        subst hs
        rw [FCompoundWrite.writeAt_addWrite_of_shadowed hu, List.append_nil]
        by_cases hp : p = r
        · simp [hp, PathTree.set]
        · by_cases hrp : r <+: p
          · rw [if_neg hp, if_pos hrp, if_neg hp]
            exact FCompoundWrite.writeAt_below hu hrp (Ne.symm hp)
          · rw [if_neg hp, if_neg hrp]
      · exact FCompoundWrite.writeAt_addWrite_of_unshadowed hun n p
    intro p
    rw [hw, hw']
    by_cases hp : p = q
    · simp [hp, PathTree.set]
    · by_cases hqp : q <+: p
      · rw [if_neg hp, if_pos hqp, if_neg hp]
        exact FCompoundWrite.writeAt_below hv hqp (Ne.symm hp)
      · rw [if_neg hp, if_neg hqp, h.outside p hqp]
  · have hun' : w'.Unshadowed q := by
      intro r hr
      apply h.above r (hr.trans hq)
      rintro rfl
      exact not_prefix_of_above hq hqp hr
    have hun : w.Unshadowed q := by
      intro r hr
      rw [h.outside r, hun' r hr]
      exact fun hp => not_prefix_of_above hq hqp (hp.trans hr)
    intro p
    rw [FCompoundWrite.writeAt_addWrite_of_unshadowed hun,
      FCompoundWrite.writeAt_addWrite_of_unshadowed hun']
    by_cases hp : q <+: p
    · rw [if_pos hp, if_pos hp]
    · rw [if_neg hp, if_neg hp, h.outside p fun hpp => hp (hq.trans hpp)]

theorem Hidden.addWrites {path : List String} {w w' : FCompoundWrite} (h : Hidden path w w')
    {writes : List FWriteRecord} (hq : ∀ record ∈ writes, ¬ record.path <+: path) :
    Hidden path (addWrites w writes) (addWrites w' writes) := by
  induction writes generalizing w w' with
  | nil => exact h
  | cons record rest ih =>
    rw [addWrites_cons, addWrites_cons]
    apply ih (h.addWrite record.overwrite (hq record List.mem_cons_self))
    exact fun r hr => hq r (List.mem_cons_of_mem record hr)

section
variable {before after : List FWriteRecord} {record : FWriteRecord}

/-- No write of the list is strictly above the path. -/
def NoneAbove (writes : List FWriteRecord) (path : List String) : Prop :=
  ∀ record ∈ writes, record.path <+: path → record.path = path

theorem hidden_snoc (h : NoneAbove before record.path) :
    Hidden record.path (layerTreeFromWrites (before ++ [record])) (layerTreeFromWrites before) := by
  have habove : ∀ p, p <+: record.path → p ≠ record.path →
      (layerTreeFromWrites before).writeAt p = none := by
    intro p hp hne
    by_contra hsome
    obtain ⟨v, hv⟩ := Option.ne_none_iff_exists'.mp hsome
    obtain ⟨r, hr, rfl⟩ := exists_record_of_writeAt hv
    exact hne (h r hr hp)
  rw [layer_snoc]
  rcases (layerTreeFromWrites before).shadowed_or_unshadowed record.path with
    ⟨r, s, u, hrs, hu⟩ | hun
  · have hr : r = record.path := by
      by_contra hne
      rw [habove r ⟨s, hrs.symm⟩ hne] at hu
      cases hu
    subst hr
    have hw := FCompoundWrite.writeAt_addWrite_of_shadowed (s := s) hu record.overwrite
    rw [← hrs] at hw
    refine ⟨⟨_, by rw [hw, if_pos rfl]⟩, fun p hp => ?_, habove⟩
    rw [hw, if_neg (ne_of_not_above hp)]
  · have hw := FCompoundWrite.writeAt_addWrite_of_unshadowed hun record.overwrite
    refine ⟨⟨record.overwrite, ?_⟩, fun p hp => ?_, habove⟩
    · rw [hw, if_pos (List.prefix_refl _), if_pos rfl]
    · rw [hw, if_neg hp]

theorem layer_split : layerTreeFromWrites (before ++ record :: after) =
    addWrites (layerTreeFromWrites (before ++ [record])) after := by
  rw [← layer_append, List.append_assoc]
  rfl

/-- Without a later write above, the layers are alike but for the path. -/
theorem hidden_layer (h : NoneAbove before record.path)
    (hafter : ∀ r ∈ after, ¬ r.path <+: record.path) :
    Hidden record.path (layerTreeFromWrites (before ++ record :: after))
      (layerTreeFromWrites (before ++ after)) := by
  rw [layer_split, layer_append before after]
  exact (hidden_snoc h).addWrites hafter

/-- A later write above makes the layers alike. -/
theorem sameWrites_of_shadowed (h : NoneAbove before record.path)
    (hafter : ∃ r ∈ after, r.path <+: record.path) :
    SameWrites (layerTreeFromWrites (before ++ record :: after))
      (layerTreeFromWrites (before ++ after)) := by
  rw [layer_split, layer_append before after]
  have hhidden := hidden_snoc h
  generalize layerTreeFromWrites (before ++ [record]) = w at hhidden ⊢
  generalize layerTreeFromWrites before = w' at hhidden ⊢
  clear h
  induction after generalizing w w' with
  | nil => simp at hafter
  | cons first rest ih =>
    rw [addWrites_cons, addWrites_cons]
    by_cases hfirst : first.path <+: record.path
    · exact (hhidden.shadow first.overwrite hfirst).addWrites rest
    · apply ih _ _ _ (hhidden.addWrite first.overwrite hfirst)
      obtain ⟨r, hr, hpath⟩ := hafter
      rcases List.mem_cons.mp hr with rfl | hr
      · exact absurd hpath hfirst
      · exact ⟨r, hr, hpath⟩

/-- Without another write at the path, above or below, the layers without it
are those with it taken out. -/
theorem sameWrites_of_alone (h : NoneAbove before record.path)
    (hafter : ∀ r ∈ after, ¬ r.path <+: record.path)
    (hbelow : ∀ r ∈ before ++ after, ¬ record.path <+: r.path) :
    SameWrites ((layerTreeFromWrites (before ++ record :: after)).removeWriteAtPath record.path)
      (layerTreeFromWrites (before ++ after)) := by
  intro p
  rw [FCompoundWrite.writeAt_removeWriteAtPath]
  by_cases hp : record.path <+: p
  · rw [if_pos hp]
    by_contra hne
    obtain ⟨v, hv⟩ := Option.ne_none_iff_exists'.mp (Ne.symm hne)
    obtain ⟨r, hr, rfl⟩ := exists_record_of_writeAt hv
    exact hbelow r hr hp
  · rw [if_neg hp, (hidden_layer h hafter).outside p hp]

end

/-! ## The answer to a write -/

theorem overlapLoop_fst (w : FWriteRecord) (index : Nat) (l : List (FWriteRecord × Nat))
    (overlaps : Bool) :
    (overlapLoop w index l overlaps).1 = true ↔
      ∀ e ∈ l, index ≤ e.2 → ¬ e.1.path <+: w.path := by
  induction l generalizing overlaps with
  | nil => simp [overlapLoop]
  | cons e rest ih =>
    simp only [overlapLoop, contains_iff]
    by_cases he : index ≤ e.2 ∧ e.1.path <+: w.path
    · rw [if_pos he]
      simp only [Bool.false_eq_true, false_iff]
      exact fun hall => hall e List.mem_cons_self he.1 he.2
    · rw [if_neg he, ih]
      constructor
      · intro hall d hd hi hp
        rcases List.mem_cons.mp hd with rfl | hd
        · exact he ⟨hi, hp⟩
        · exact hall d hd hi hp
      · exact fun hall d hd => hall d (List.mem_cons_of_mem e hd)

theorem overlapLoop_snd {w : FWriteRecord} {index : Nat} {l : List (FWriteRecord × Nat)}
    {overlaps : Bool} (h : (overlapLoop w index l overlaps).1 = true) :
    (overlapLoop w index l overlaps).2 = true ↔
      overlaps = true ∨ ∃ e ∈ l, w.path <+: e.1.path := by
  induction l generalizing overlaps with
  | nil => simp [overlapLoop]
  | cons e rest ih =>
    simp only [overlapLoop, contains_iff] at h ⊢
    by_cases he : index ≤ e.2 ∧ e.1.path <+: w.path
    · rw [if_pos he] at h
      cases h
    · rw [if_neg he] at h ⊢
      rw [ih h]
      by_cases hp : w.path <+: e.1.path <;> simp [hp]

theorem forall_zipIdx_iff {before after : List FWriteRecord} {P : FWriteRecord → Prop} :
    (∀ e ∈ ((before ++ after).zipIdx).reverse, before.length ≤ e.2 → P e.1) ↔
      ∀ r ∈ after, P r := by
  simp only [List.mem_reverse, List.mem_zipIdx_iff_getElem?]
  constructor
  · intro h r hr
    obtain ⟨i, hi⟩ := List.mem_iff_getElem?.mp hr
    apply h (r, before.length + i)
    · simp [List.getElem?_append_right, hi]
    · simp
  · intro h e he hi
    rw [List.getElem?_append_right hi] at he
    exact h e.1 (List.mem_of_getElem? he)

theorem exists_zipIdx_iff {writes : List FWriteRecord} {P : FWriteRecord → Prop} :
    (∃ e ∈ (writes.zipIdx).reverse, P e.1) ↔ ∃ r ∈ writes, P r := by
  simp only [List.mem_reverse, List.mem_zipIdx_iff_getElem?]
  constructor
  · rintro ⟨e, he, hp⟩
    exact ⟨e.1, List.mem_of_getElem? he, hp⟩
  · rintro ⟨r, hr, hp⟩
    obtain ⟨i, hi⟩ := List.mem_iff_getElem?.mp hr
    exact ⟨(r, i), hi, hp⟩

/-- What `removeWriteId:` does to the visible writes. -/
inductive Repair (t t' : FWriteTree) (before : List FWriteRecord) (record : FWriteRecord)
    (after : List FWriteRecord) : Bool → Prop
  /-- A later write covers the removed one. -/
  | shadowed : (∃ r ∈ after, r.path <+: record.path) → t'.visibleWrites = t.visibleWrites →
      Repair t t' before record after false
  | rebuilt : (∀ r ∈ after, ¬ r.path <+: record.path) →
      t'.visibleWrites = layerTreeFromWrites (before ++ after) →
      Repair t t' before record after true
  | takenOut : (∀ r ∈ after, ¬ r.path <+: record.path) →
      (∀ r ∈ before ++ after, ¬ record.path <+: r.path) →
      t'.visibleWrites = t.visibleWrites.removeWriteAtPath record.path →
      Repair t t' before record after true

theorem Repair.not_covered {t t' : FWriteTree} {before after : List FWriteRecord}
    {record : FWriteRecord} (h : Repair t t' before record after true) :
    ∀ r ∈ after, ¬ r.path <+: record.path := by
  cases h with
  | rebuilt hafter _ => exact hafter
  | takenOut hafter _ _ => exact hafter

theorem Repair.unchanged {t t' : FWriteTree} {before after : List FWriteRecord}
    {record : FWriteRecord} (h : Repair t t' before record after false) :
    t'.visibleWrites = t.visibleWrites := by
  cases h with
  | shadowed _ hsame => exact hsame

/-- The first element with a property, and the list without it. -/
theorem exists_split_of_findIdx? {α : Type*} {p : α → Bool} {l : List α} {index : Nat}
    (h : l.findIdx? p = some index) :
    ∃ before x after, l = before ++ x :: after ∧ before.length = index ∧ p x = true ∧
      (∀ y ∈ before, p y = false) ∧ l.eraseIdx index = before ++ after := by
  obtain ⟨hlt, hp, hfirst⟩ := List.findIdx?_eq_some_iff_getElem.mp h
  refine ⟨l.take index, l[index], l.drop (index + 1), ?_, ?_, hp, ?_, ?_⟩
  · rw [← List.drop_eq_getElem_cons hlt, List.take_append_drop]
  · rw [List.length_take, Nat.min_eq_left (Nat.le_of_lt hlt)]
  · intro y hy
    obtain ⟨i, hi, rfl⟩ := List.mem_take_iff_getElem.mp hy
    simpa using hfirst i (by omega)
  · exact List.eraseIdx_eq_take_drop_succ l index

theorem removeWriteId_cases {t t' : FWriteTree} {writeId : Nat} {reevaluate : Bool}
    (h : t.removeWriteId writeId = some (reevaluate, t')) :
    ∃ before record after, t.allWrites = before ++ record :: after ∧
      record.writeId = writeId ∧ (∀ r ∈ before, r.writeId ≠ writeId) ∧
      t'.allWrites = before ++ after ∧ Repair t t' before record after reevaluate := by
  simp only [removeWriteId] at h
  cases hindex : t.allWrites.findIdx? (fun r => decide (r.writeId = writeId)) with
  | none => simp [hindex] at h
  | some index =>
    obtain ⟨before, record, after, hall, rfl, hid, hfirst, herase⟩ :=
      exists_split_of_findIdx? hindex
    have hget : t.allWrites[before.length]? = some record := by simp [hall]
    simp only [hindex, hget, herase] at h
    have hshadow := overlapLoop_fst record before.length
      ((before ++ after).zipIdx).reverse false
    rw [forall_zipIdx_iff (P := fun r => ¬ r.path <+: record.path)] at hshadow
    refine ⟨before, record, after, hall, by simpa using hid, ?_, ?_⟩
    · intro r hr
      simpa using hfirst r hr
    · split at h
      · rename_i hfalse
        cases h
        refine ⟨rfl, .shadowed ?_ rfl⟩
        by_contra hnone
        have htrue := hshadow.mpr fun r hr hp => hnone ⟨r, hr, hp⟩
        rw [hfalse] at htrue
        cases htrue
      · rename_i htrue
        rw [Bool.not_eq_false] at htrue
        have hoverlap := overlapLoop_snd htrue
        rw [exists_zipIdx_iff (P := fun r => record.path <+: r.path)] at hoverlap
        split at h
        · cases h
          exact ⟨rfl, .rebuilt (hshadow.mp htrue) rfl⟩
        · rename_i hsnd
          cases h
          refine ⟨rfl, .takenOut (hshadow.mp htrue) (fun r hr hp => hsnd ?_) rfl⟩
          exact hoverlap.mpr (Or.inr ⟨r, hr, hp⟩)

/-! ## What a write tree keeps -/

/-- The pending writes have the property, and so have the visible ones. -/
structure TreeKeeps (Fine : String → Prop) (P : FNode → Prop) (t : FWriteTree) : Prop where
  paths : ∀ record ∈ t.allWrites, ∀ k ∈ record.path, Fine k
  records : ∀ record ∈ t.allWrites, P record.overwrite
  visible : t.visibleWrites.WritesKeep Fine P

section
variable {Fine : String → Prop} {P : FNode → Prop} {t : FWriteTree}

theorem treeKeeps_init : TreeKeeps Fine P .init where
  paths := by simp [FWriteTree.init]
  records := by simp [FWriteTree.init]
  visible := FCompoundWrite.writesKeep_emptyWrite

theorem TreeKeeps.addOverwrite (h : TreeKeeps Fine P t) (hkept : PathTree.Kept Fine P)
    {path : List String} (hpath : ∀ k ∈ path, Fine k) {newData : FNode} (hnew : P newData)
    (writeId : Nat) : TreeKeeps Fine P (t.addOverwrite path newData writeId) where
  paths := by
    intro record hrecord
    rcases List.mem_append.mp hrecord with hold | hadded
    · exact h.paths record hold
    · cases List.mem_singleton.mp hadded
      exact hpath
  records := by
    intro record hrecord
    rcases List.mem_append.mp hrecord with hold | hadded
    · exact h.records record hold
    · cases List.mem_singleton.mp hadded
      exact hnew
  visible := h.visible.addWrite hkept hnew hpath

theorem TreeKeeps.removeWriteId {t' : FWriteTree} {writeId : Nat} {reevaluate : Bool}
    (h : TreeKeeps Fine P t) (hkept : PathTree.Kept Fine P)
    (hremove : t.removeWriteId writeId = some (reevaluate, t')) : TreeKeeps Fine P t' := by
  obtain ⟨before, record, after, hall, _, _, hall', hrepair⟩ := removeWriteId_cases hremove
  have hsub : ∀ r ∈ before ++ after, r ∈ t.allWrites := by
    intro r hr
    rw [hall]
    simp only [List.mem_append, List.mem_cons] at hr ⊢
    tauto
  have hpaths : ∀ r ∈ before ++ after, ∀ k ∈ r.path, Fine k := fun r hr => h.paths r (hsub r hr)
  have hrecords : ∀ r ∈ before ++ after, P r.overwrite := fun r hr => h.records r (hsub r hr)
  refine ⟨hall' ▸ hpaths, hall' ▸ hrecords, ?_⟩
  cases hrepair with
  | shadowed _ hsame => rw [hsame]; exact h.visible
  | rebuilt _ hlayer => rw [hlayer]; exact writesKeep_layer hkept hpaths hrecords
  | takenOut _ _ hvisible => rw [hvisible]; exact h.visible.removeWriteAtPath record.path

end

/-! ## Runs -/

inductive WriteEvent where
  | made (path : List String) (newData : FNode) (writeId : Nat)
  | answered (writeId : Nat)

/-- A new write needs an id above the last one: the code asserts it. -/
def step (t : FWriteTree) : WriteEvent → Option FWriteTree
  | .made path newData writeId =>
    if t.lastWriteId.all (· < writeId) then some (t.addOverwrite path newData writeId)
    else none
  | .answered writeId => (t.removeWriteId writeId).map Prod.snd

/-- The pending writes that are older than the one with the id. -/
def olderWrites (writeId : Nat) (t : FWriteTree) : List FWriteRecord :=
  t.allWrites.takeWhile (·.writeId ≠ writeId)

/-- The answered write is not strictly below an older one that is still pending. -/
def NotBelowOlder (t : FWriteTree) : WriteEvent → Prop
  | .made _ _ _ => True
  | .answered writeId =>
    ∀ record ∈ t.allWrites.find? (·.writeId = writeId),
      NoneAbove (olderWrites writeId t) record.path

instance : (t : FWriteTree) → (e : WriteEvent) → Decidable (NotBelowOlder t e)
  | _, .made _ _ _ => inferInstanceAs (Decidable True)
  | t, .answered writeId =>
    inferInstanceAs (Decidable (∀ record ∈ t.allWrites.find? (·.writeId = writeId),
      ∀ older ∈ olderWrites writeId t, older.path <+: record.path → older.path = record.path))

theorem find?_of_split {t : FWriteTree} {before after : List FWriteRecord}
    {record : FWriteRecord} (hall : t.allWrites = before ++ record :: after)
    (hfirst : ∀ r ∈ before, r.writeId ≠ record.writeId) :
    t.allWrites.find? (·.writeId = record.writeId) = some record := by
  rw [hall, List.find?_append, List.find?_eq_none.mpr]
  · simp
  · simpa using hfirst

theorem olderWrites_of_split {t : FWriteTree} {before after : List FWriteRecord}
    {record : FWriteRecord} (hall : t.allWrites = before ++ record :: after)
    (hfirst : ∀ r ∈ before, r.writeId ≠ record.writeId) :
    olderWrites record.writeId t = before := by
  rw [olderWrites, hall, List.takeWhile_append_of_pos]
  · simp
  · simpa using hfirst

theorem notBelowOlder_split {t : FWriteTree} {before after : List FWriteRecord}
    {record : FWriteRecord} (hall : t.allWrites = before ++ record :: after)
    (hfirst : ∀ r ∈ before, r.writeId ≠ record.writeId)
    (h : NotBelowOlder t (.answered record.writeId)) : NoneAbove before record.path := by
  have habove := h record (find?_of_split hall hfirst)
  rwa [olderWrites_of_split hall hfirst] at habove

/-- The visible writes are those of a write tree that is built again. -/
def Layered (t : FWriteTree) : Prop :=
  SameWrites t.visibleWrites (layerTreeFromWrites t.allWrites)

theorem layered_addOverwrite {t : FWriteTree} (h : Layered t) (path : List String)
    (newData : FNode) (writeId : Nat) : Layered (t.addOverwrite path newData writeId) := by
  unfold Layered FWriteTree.addOverwrite
  rw [layer_snoc]
  exact h.addWrite newData path

theorem layered_repair {t t' : FWriteTree} {before after : List FWriteRecord}
    {record : FWriteRecord} {reevaluate : Bool} (h : Layered t)
    (hall : t.allWrites = before ++ record :: after) (hall' : t'.allWrites = before ++ after)
    (habove : NoneAbove before record.path)
    (hrepair : Repair t t' before record after reevaluate) : Layered t' := by
  unfold Layered at h ⊢
  rw [hall] at h
  rw [hall']
  cases hrepair with
  | shadowed hafter hvisible =>
    rw [hvisible]
    exact h.trans (sameWrites_of_shadowed habove hafter)
  | rebuilt _ hvisible => rw [hvisible]; exact sameWrites_refl _
  | takenOut hafter hbelow hvisible =>
    rw [hvisible]
    exact (h.removeWriteAtPath record.path).trans (sameWrites_of_alone habove hafter hbelow)

theorem layered_step {t t' : FWriteTree} {e : WriteEvent} (h : Layered t)
    (hold : NotBelowOlder t e) (hs : step t e = some t') : Layered t' := by
  cases e with
  | made path newData writeId =>
    simp only [step] at hs
    split at hs
    · cases hs
      exact layered_addOverwrite h path newData writeId
    · cases hs
  | answered writeId =>
    simp only [step, Option.map_eq_some_iff] at hs
    obtain ⟨⟨reevaluate, u⟩, hu, rfl⟩ := hs
    obtain ⟨before, record, after, hall, rfl, hfirst, hall', hrepair⟩ := removeWriteId_cases hu
    exact layered_repair h hall hall' (notBelowOlder_split hall hfirst hold) hrepair

theorem layered_run {events : List WriteEvent} {t : FWriteTree}
    (hmeets : Meets step (fun _ => NotBelowOlder) [] .init events)
    (hrun : run step .init events = some t) : Layered t := by
  have hinit : Layered .init := sameWrites_refl .emptyWrite
  exact state_invariant_of_run Layered (fun _ _ _ h hold hs => layered_step h hold hs)
    hinit hmeets hrun

/-- Every name that the event brings in is plain ASCII. -/
def PlainWrite : WriteEvent → Prop
  | .made path newData _ =>
    (∀ name ∈ path, PlainAscii name) ∧ PathTree.Named PlainAscii newData
  | .answered _ => True

/-- The names of the write tree come from the writes. -/
theorem plainTree_step (t : FWriteTree) (e : WriteEvent) (t' : FWriteTree)
    (h : TreeKeeps PlainAscii (PathTree.Named PlainAscii) t) (he : PlainWrite e)
    (hs : step t e = some t') : TreeKeeps PlainAscii (PathTree.Named PlainAscii) t' := by
  cases e with
  | made path newData writeId =>
    simp only [step] at hs
    split at hs
    · cases hs
      exact h.addOverwrite PathTree.kept_named he.1 he.2 writeId
    · cases hs
  | answered writeId =>
    obtain ⟨⟨reevaluate, u⟩, hu, rfl⟩ := Option.map_eq_some_iff.mp hs
    exact h.removeWriteId PathTree.kept_named hu

theorem plainTree_run {events : List WriteEvent} {t : FWriteTree}
    (hplain : ∀ e ∈ events, PlainWrite e) (hrun : run step .init events = some t) :
    TreeKeeps PlainAscii (PathTree.Named PlainAscii) t :=
  invariant_of_events _ plainTree_step treeKeeps_init hplain hrun

/-- However the answers came in, the repaired writes are the pending ones
layered again, if no answered write was strictly below an older pending one. -/
theorem the_repaired_writes_are_the_layered_ones {events : List WriteEvent} {t : FWriteTree}
    (hplain : ∀ e ∈ events, PlainWrite e)
    (hmeets : Meets step (fun _ => NotBelowOlder) [] .init events)
    (hrun : run step .init events = some t) :
    t.visibleWrites.WritesKeep PlainAscii (PathTree.Named PlainAscii) ∧
      ∀ path : PlainPath,
        t.visibleWrites.writeAt path.pieces =
            (layerTreeFromWrites t.allWrites).writeAt path.pieces ∧
          t.visibleWrites.completeNodeAtPath path.pieces =
            (layerTreeFromWrites t.allWrites).completeNodeAtPath path.pieces := by
  have hlayered := layered_run hmeets hrun
  refine ⟨(plainTree_run hplain hrun).visible, fun path => ⟨hlayered path.pieces, ?_⟩⟩
  exact hlayered.completeNodeAtPath_eq path.pieces

/-- Two records are saved, the first one gets its cover, and its save is answered. -/
def answeredSave : List WriteEvent :=
  [.made ["books", "1"] (.branch [("title", .leaf (.string "Dune"))]) 0,
    .made ["books", "2"] (.branch [("title", .leaf (.string "Ubik"))]) 1,
    .made ["books", "1", "cover"] (.leaf (.string "dune.jpg")) 2,
    .answered 0]

theorem plain_answeredSave : ∀ e ∈ answeredSave, PlainWrite e := by
  intro e he
  simp only [answeredSave, List.mem_cons, List.not_mem_nil, or_false] at he
  rcases he with rfl | rfl | rfl | rfl
  · exact ⟨by decide +kernel, PathTree.named_of_keys (by decide +kernel)⟩
  · exact ⟨by decide +kernel, PathTree.named_of_keys (by decide +kernel)⟩
  · exact ⟨by decide +kernel, PathTree.named_leaf _⟩
  · exact trivial

theorem two_writes_are_left_of_three :
    ∃ t, run step .init answeredSave = some t ∧
      t.allWrites.map (·.path) = [["books", "2"], ["books", "1", "cover"]] ∧
      t.visibleWrites.WritesKeep PlainAscii (PathTree.Named PlainAscii) ∧
      ∀ path : PlainPath,
        t.visibleWrites.writeAt path.pieces =
            (layerTreeFromWrites t.allWrites).writeAt path.pieces ∧
          t.visibleWrites.completeNodeAtPath path.pieces =
            (layerTreeFromWrites t.allWrites).completeNodeAtPath path.pieces := by
  have hpaths : (run step .init answeredSave).map (fun t => t.allWrites.map (·.path)) =
      some [["books", "2"], ["books", "1", "cover"]] := by decide +kernel
  obtain ⟨t, hrun, ht⟩ := Option.map_eq_some_iff.mp hpaths
  have hmeets : Meets step (fun _ => NotBelowOlder) [] .init answeredSave := by decide +kernel
  exact ⟨t, hrun, ht,
    the_repaired_writes_are_the_layered_ones plain_answeredSave hmeets hrun⟩

/-- At every path the app sees the node of the server as all the pending writes
leave it, made in their order. -/
theorem the_app_sees_the_pending_writes_in_order {events : List WriteEvent} {t : FWriteTree}
    (hplain : ∀ e ∈ events, PlainWrite e)
    (hmeets : Meets step (fun _ => NotBelowOlder) [] .init events)
    (hrun : run step .init events = some t) {server : FNode}
    (hserver : PathTree.Named PlainAscii server)
    (hclear : ∀ record ∈ t.allWrites, FCompoundWrite.NoLeafAbove server record.path)
    (treePath : PlainPath) :
    ∃ node,
      t.calculateCompleteEventCacheAtPath treePath.pieces
          (some (getChild treePath.pieces server)) = some node ∧
      PathTree.SameLeaves node
        (getChild treePath.pieces (PathTree.setAll (writesOf t.allWrites) server)) ∧
      PathTree.Named PlainAscii node := by
  obtain ⟨node, hnode, hview⟩ :=
    calculateCompleteEventCacheAtPath_sameLeaves t server treePath.pieces
  refine ⟨node, hnode, hview.trans ?_, ?_⟩
  · have hvisible := (layered_run hmeets hrun).applyToNode server
    exact (hvisible.trans (sameLeaves_layer hclear)).get treePath.pieces
  · have hbelow := PathTree.kept_named.get treePath.pieces hserver
    exact kept_calculateCompleteEventCacheAtPath PathTree.kept_named
      (plainTree_run hplain hrun).visible hbelow hnode

/-- The server with the first record. -/
def savedServer : FNode :=
  .branch [("books", .branch [("1", .branch [("title", .leaf (.string "Dune"))])])]

theorem the_cover_is_seen_over_the_saved_record :
    ∃ t node, run step .init answeredSave = some t ∧
      t.calculateCompleteEventCacheAtPath ["books"] (some (getChild ["books"] savedServer)) =
        some node ∧
      PathTree.leafAt ["1", "title"] node = some (.string "Dune") ∧
      PathTree.leafAt ["1", "cover"] node = some (.string "dune.jpg") ∧
      PathTree.leafAt ["2", "title"] node = some (.string "Ubik") := by
  have hwrites : (run step .init answeredSave).map (fun t => writesOf t.allWrites) =
      some [(["books", "2"], .branch [("title", .leaf (.string "Ubik"))]),
        (["books", "1", "cover"], .leaf (.string "dune.jpg"))] := by rfl
  obtain ⟨t, hrun, ht⟩ := Option.map_eq_some_iff.mp hwrites
  have hmeets : Meets step (fun _ => NotBelowOlder) [] .init answeredSave := by decide +kernel
  have hclear : ∀ record ∈ t.allWrites, FCompoundWrite.NoLeafAbove savedServer record.path := by
    intro record hrecord
    have hmem : (record.path, record.overwrite) ∈ writesOf t.allWrites :=
      List.mem_map_of_mem hrecord
    simp only [ht, List.mem_cons, Prod.mk.injEq, List.not_mem_nil, or_false] at hmem
    rcases hmem with ⟨hpath, _⟩ | ⟨hpath, _⟩
    · rw [hpath]
      decide +kernel
    · rw [hpath]
      decide +kernel
  have hserver : PathTree.Named PlainAscii savedServer :=
    PathTree.named_of_keys (by decide +kernel)
  obtain ⟨node, hnode, hview, _⟩ := the_app_sees_the_pending_writes_in_order plain_answeredSave
    hmeets hrun hserver hclear [⟨"books", by decide +kernel⟩]
  rw [ht] at hview
  refine ⟨t, node, hrun, hnode, ?_, ?_, ?_⟩
  · rw [hview]
    decide +kernel
  · rw [hview]
    decide +kernel
  · rw [hview]
    decide +kernel

end xellissime_book.answered_writes
