-- Lists trimmed of one kind of entry at both ends, and lists with the runs of
-- one entry made short.
import Mathlib.Data.List.Chain
import Mathlib.Data.List.DropRight

namespace trimming

variable {α : Type*}

/-! ## The ends -/

/-- The list without its longest prefix and its longest suffix of entries that
`p` takes. -/
def trim (p : α → Bool) (l : List α) : List α := (l.dropWhile p).rdropWhile p

/-- No entry that `p` takes stands at an end. -/
def CleanEnds (p : α → Bool) (l : List α) : Prop :=
  (∀ c ∈ l.head?, p c = false) ∧ ∀ c ∈ l.getLast?, p c = false

variable {p : α → Bool} {l : List α}

theorem dropWhile_eq_self_of_head (h : ∀ c ∈ l.head?, p c = false) :
    l.dropWhile p = l := by
  cases l with
  | nil => rfl
  | cons c rest =>
    rw [List.dropWhile_cons_of_neg]
    rw [h c rfl]
    exact Bool.false_ne_true

theorem trim_of_cleanEnds (h : CleanEnds p l) : trim p l = l := by
  obtain ⟨hhead, hlast⟩ := h
  unfold trim
  rw [dropWhile_eq_self_of_head hhead, List.rdropWhile_eq_self_iff]
  intro hne
  rw [hlast _ (List.getLast?_eq_getLast_of_ne_nil hne)]
  exact Bool.false_ne_true

theorem cleanEnds_trim (p : α → Bool) (l : List α) : CleanEnds p (trim p l) := by
  unfold trim
  refine ⟨fun c hc => ?_, fun c hc => ?_⟩
  · obtain ⟨rest, hrest⟩ := List.head?_eq_some_iff.mp hc
    obtain ⟨more, hmore⟩ := List.rdropWhile_prefix p (l := l.dropWhile p)
    rw [hrest, List.cons_append] at hmore
    have hhead := List.head?_dropWhile_not p l
    rw [← hmore] at hhead
    exact hhead
  · have hne : (l.dropWhile p).rdropWhile p ≠ [] := by
      intro hnil
      rw [hnil] at hc
      cases hc
    have hlast := List.rdropWhile_last_not p (l.dropWhile p) hne
    rw [List.getLast?_eq_getLast_of_ne_nil hne] at hc
    cases hc
    simpa using hlast

theorem trim_cons_of_pos {c : α} (h : p c = true) (rest : List α) :
    trim p (c :: rest) = trim p rest := by
  unfold trim
  rw [List.dropWhile_cons_of_pos h]

theorem trim_concat_of_pos {c : α} (h : p c = true) (rest : List α) :
    trim p (rest ++ [c]) = trim p rest := by
  unfold trim
  rw [List.dropWhile_append]
  split
  · rename_i hempty
    rw [List.isEmpty_iff.mp hempty, List.dropWhile_cons_of_pos h]
    rfl
  · exact List.rdropWhile_concat_pos p _ c h

theorem trim_eq_nil_iff : trim p l = [] ↔ ∀ c ∈ l, p c = true := by
  unfold trim
  constructor
  · intro h
    rw [List.rdropWhile_eq_nil_iff] at h
    have hnil : l.dropWhile p = [] := by
      cases hd : l.dropWhile p with
      | nil => rfl
      | cons c rest =>
        have hhead := List.head?_dropWhile_not p l
        rw [hd] at h hhead
        have hneg : p c = false := hhead
        rw [h c List.mem_cons_self] at hneg
        cases hneg
    exact List.dropWhile_eq_nil_iff.mp hnil
  · intro h
    rw [List.dropWhile_eq_nil_iff.mpr h]
    rfl

/-! ## The runs -/

variable [DecidableEq α]

/-- The list with one `a` in place of each maximal run of them. -/
def collapse (a : α) : List α → List α
  | [] => []
  | c :: rest =>
    if c = a then a :: collapse a (rest.dropWhile (· = a)) else c :: collapse a rest
termination_by l => l.length
decreasing_by
  · exact Nat.lt_succ_of_le (List.length_dropWhile_le _ rest)
  · exact Nat.lt_succ_self _

/-- No two neighbours are both `a`. -/
def NoPair (a : α) (l : List α) : Prop := l.IsChain fun c d => ¬ (c = a ∧ d = a)

variable {a : α}

@[simp] theorem collapse_nil : collapse a [] = [] := by
  rw [collapse]

theorem collapse_cons_self (rest : List α) :
    collapse a (a :: rest) = a :: collapse a (rest.dropWhile (· = a)) := by
  rw [collapse, if_pos rfl]

theorem collapse_cons_of_ne {c : α} (h : c ≠ a) (rest : List α) :
    collapse a (c :: rest) = c :: collapse a rest := by
  rw [collapse, if_neg h]

theorem collapse_cons_cons_self (rest : List α) :
    collapse a (a :: a :: rest) = collapse a (a :: rest) := by
  rw [collapse_cons_self, collapse_cons_self, List.dropWhile_cons_of_pos (by simp)]

theorem head?_collapse (l : List α) : (collapse a l).head? = l.head? := by
  cases l with
  | nil => rw [collapse_nil]
  | cons c rest =>
    by_cases hc : c = a
    · rw [hc, collapse_cons_self]
      rfl
    · rw [collapse_cons_of_ne hc]
      rfl

theorem dropWhile_collapse (l : List α) :
    (collapse a l).dropWhile (· = a) = collapse a (l.dropWhile (· = a)) := by
  cases l with
  | nil => rw [collapse_nil, List.dropWhile_nil, collapse_nil]
  | cons c rest =>
    by_cases hc : c = a
    · rw [hc, collapse_cons_self, List.dropWhile_cons_of_pos (by simp),
        List.dropWhile_cons_of_pos (by simp)]
      apply dropWhile_eq_self_of_head
      intro d hd
      rw [head?_collapse] at hd
      have hhead := List.head?_dropWhile_not (· = a) rest
      rw [Option.mem_def.mp hd] at hhead
      exact hhead
    · rw [collapse_cons_of_ne hc, List.dropWhile_cons_of_neg (by simpa using hc),
        List.dropWhile_cons_of_neg (by simpa using hc), collapse_cons_of_ne hc]

/-- Lists that collapse alike do so behind one more entry. -/
theorem collapse_cons_congr {l' : List α} (h : collapse a l = collapse a l') (c : α) :
    collapse a (c :: l) = collapse a (c :: l') := by
  by_cases hc : c = a
  · rw [hc, collapse_cons_self, collapse_cons_self, ← dropWhile_collapse, h, dropWhile_collapse]
  · rw [collapse_cons_of_ne hc, collapse_cons_of_ne hc, h]

/-- The entries that go are `a`, so the last one stays unless it is `a`. -/
theorem getLast?_dropWhile_getD (l : List α) :
    (l.dropWhile (· = a)).getLast?.getD a = l.getLast?.getD a := by
  induction l with
  | nil => rfl
  | cons c rest ih =>
    by_cases hc : c = a
    · rw [List.dropWhile_cons_of_pos (by simpa using hc), ih, List.getLast?_cons, hc]
      rfl
    · rw [List.dropWhile_cons_of_neg (by simpa using hc)]

theorem getLast?_collapse (l : List α) : (collapse a l).getLast? = l.getLast? := by
  induction l using collapse.induct a with
  | case1 => rw [collapse_nil]
  | case2 rest ih =>
    rw [collapse_cons_self, List.getLast?_cons, ih, getLast?_dropWhile_getD, List.getLast?_cons]
  | case3 c rest hc ih => rw [collapse_cons_of_ne hc, List.getLast?_cons, ih, List.getLast?_cons]

theorem cleanEnds_collapse (h : CleanEnds p l) : CleanEnds p (collapse a l) := by
  unfold CleanEnds
  rw [head?_collapse, getLast?_collapse]
  exact h

theorem noPair_collapse (l : List α) : NoPair a (collapse a l) := by
  unfold NoPair
  induction l using collapse.induct a with
  | case1 =>
    rw [collapse_nil]
    exact List.isChain_nil
  | case2 rest ih =>
    rw [collapse_cons_self]
    refine List.IsChain.cons ih ?_
    rintro d hd ⟨_, rfl⟩
    rw [head?_collapse] at hd
    have hhead := List.head?_dropWhile_not (· = d) rest
    rw [Option.mem_def.mp hd] at hhead
    simp at hhead
  | case3 c rest hc ih =>
    rw [collapse_cons_of_ne hc]
    exact List.IsChain.cons ih fun d _ h => hc h.1

theorem collapse_of_noPair (h : NoPair a l) : collapse a l = l := by
  unfold NoPair at h
  induction l with
  | nil => exact collapse_nil
  | cons c rest ih =>
    obtain ⟨hhead, hrest⟩ := List.isChain_cons.mp h
    by_cases hc : c = a
    · have hdrop : rest.dropWhile (· = a) = rest := by
        apply dropWhile_eq_self_of_head
        intro d hd
        exact decide_eq_false fun hda => hhead d hd ⟨hc, hda⟩
      rw [hc, collapse_cons_self, hdrop, ih hrest]
    · rw [collapse_cons_of_ne hc, ih hrest]

end trimming
