-- The balance of the left-leaning red-black trees, and that an insertion keeps
-- it and changes one entry.
import XellissimeBook.LLRBNodes
import XellissimeBook.SortedEntries

open Std sorted_entries

namespace xellissime_book.llrb_nodes.FLLRBNode

open FLLRBColor

variable {κ β : Type*} {cmp : κ → κ → Ordering}

/-! ## Entries under the turns -/

@[simp] theorem entries_otherColor (n : FLLRBNode κ β) : n.otherColor.entries = n.entries := by
  cases n <;> rfl

@[simp] theorem entries_copyWithColor (c : FLLRBColor) (n : FLLRBNode κ β) :
    (n.copyWithColor c).entries = n.entries := by
  cases n <;> rfl

@[simp] theorem entries_colorFlip (n : FLLRBNode κ β) : n.colorFlip.entries = n.entries := by
  cases n <;> simp [colorFlip, entries]

theorem entries_rotateLeft {n : FLLRBNode κ β} (h : n.right ≠ emptyNode) :
    n.rotateLeft.entries = n.entries := by
  cases n with
  | emptyNode => exact absurd rfl h
  | valueNode k v c l r =>
    cases r with
    | emptyNode => exact absurd rfl h
    | valueNode => simp [rotateLeft, entries]

theorem entries_rotateRight {n : FLLRBNode κ β} (h : n.left ≠ emptyNode) :
    n.rotateRight.entries = n.entries := by
  cases n with
  | emptyNode => exact absurd rfl h
  | valueNode k v c l r =>
    cases l with
    | emptyNode => exact absurd rfl h
    | valueNode => simp [rotateRight, entries]

theorem ne_empty_of_isRed {n : FLLRBNode κ β} (h : n.isRed = true) : n ≠ emptyNode := by
  rintro rfl
  cases h

theorem ne_empty_of_left_isRed {n : FLLRBNode κ β} (h : n.left.isRed = true) :
    n ≠ emptyNode := by
  rintro rfl
  cases h

@[simp] theorem entries_fixUp (n : FLLRBNode κ β) : n.fixUp.entries = n.entries := by
  unfold fixUp
  extract_lets n1 n2
  have h1 : n1.entries = n.entries := by
    unfold n1
    split_ifs with h
    · simp only [Bool.and_eq_true] at h
      exact entries_rotateLeft (ne_empty_of_isRed h.1)
    · rfl
  have h2 : n2.entries = n1.entries := by
    unfold n2
    split_ifs with h
    · simp only [Bool.and_eq_true] at h
      exact entries_rotateRight (ne_empty_of_isRed h.1)
    · rfl
  split_ifs
  · rw [entries_colorFlip, h2, h1]
  · rw [h2, h1]

@[simp] theorem entries_copyWithRight {r n : FLLRBNode κ β} (h : r.entries = n.right.entries) :
    (copyWithRight r n).entries = n.entries := by
  cases n <;> simp_all [copyWithRight, entries, right]

@[simp] theorem entries_moveRedLeft (n : FLLRBNode κ β) : n.moveRedLeft.entries = n.entries := by
  unfold moveRedLeft
  extract_lets m
  have hm : m.entries = n.entries := entries_colorFlip n
  split_ifs with h
  · have hr : m.right.rotateRight.entries = m.right.entries :=
      entries_rotateRight (ne_empty_of_isRed h)
    have hne : (copyWithRight m.right.rotateRight m).right ≠ emptyNode := by
      intro he
      cases hmk : m with
      | emptyNode => rw [hmk] at h; cases h
      | valueNode k v c l r =>
        rw [hmk] at h he
        cases r with
        | emptyNode => cases h
        | valueNode k' v' c' l' r' =>
          cases l' with
          | emptyNode => cases h
          | valueNode => simp [copyWithRight, right, rotateRight] at he
    rw [entries_colorFlip, entries_rotateLeft hne, entries_copyWithRight hr, hm]
  · exact hm

@[simp] theorem entries_moveRedRight (n : FLLRBNode κ β) :
    n.moveRedRight.entries = n.entries := by
  unfold moveRedRight
  extract_lets m
  have hm : m.entries = n.entries := entries_colorFlip n
  split_ifs with h
  · rw [entries_colorFlip, entries_rotateRight (ne_empty_of_left_isRed h), hm]
  · exact hm

@[simp] theorem entries_beforeLeft (n : FLLRBNode κ β) : n.beforeLeft.entries = n.entries := by
  unfold beforeLeft
  split_ifs
  · exact entries_moveRedLeft n
  · rfl

@[simp] theorem entries_beforeRight (n : FLLRBNode κ β) :
    n.beforeRight.entries = n.entries := by
  unfold beforeRight
  extract_lets m
  have hm : m.entries = n.entries := by
    unfold m
    split_ifs with h
    · exact entries_rotateRight (ne_empty_of_isRed h)
    · rfl
  split_ifs
  · rw [entries_moveRedRight, hm]
  · exact hm

theorem entries_eq_nil_iff {n : FLLRBNode κ β} : n.entries = [] ↔ n = emptyNode := by
  cases n <;> simp [entries]

theorem length_entries (n : FLLRBNode κ β) : n.entries.length = n.count := by
  induction n with
  | emptyNode => rfl
  | valueNode k v c l r ihl ihr =>
    simp only [entries, count, List.length_append, List.length_cons, ihl, ihr]
    omega

/-- `min` holds the first entry. -/
theorem exists_min {n : FLLRBNode κ β} (h : n ≠ emptyNode) :
    ∃ k v c l r rest, n.min = valueNode k v c l r ∧ n.entries = (k, v) :: rest := by
  induction n with
  | emptyNode => exact absurd rfl h
  | valueNode k v c l r ihl ihr =>
    cases hl : l with
    | emptyNode => exact ⟨k, v, c, _, r, r.entries, rfl, rfl⟩
    | valueNode k' v' c' l' r' =>
      have hne : l ≠ emptyNode := by simp [hl]
      obtain ⟨mk, mv, mc, ml, mr, rest, hmin, hentries⟩ := ihl hne
      rw [← hl]
      refine ⟨mk, mv, mc, ml, mr, rest ++ (k, v) :: r.entries, ?_, ?_⟩
      · rw [← hmin, hl]
        rfl
      · rw [entries, hentries, List.cons_append]

/-! ## Balance -/

/-- What `check` asks: the black depth is the same on every way down, only left
children are red, and a red node has no red child. -/
inductive Balanced : FLLRBColor → Nat → FLLRBNode κ β → Prop
  | empty : Balanced BLACK 0 emptyNode
  | red {h k v l r} : Balanced BLACK h l → Balanced BLACK h r →
      Balanced RED h (valueNode k v RED l r)
  | black {h k v c l r} : Balanced c h l → Balanced BLACK h r →
      Balanced BLACK (h + 1) (valueNode k v BLACK l r)

/-- A black node with a red left child. -/
inductive ThreeNode : Nat → FLLRBNode κ β → Prop
  | mk {h k v l r} : Balanced RED h l → Balanced BLACK h r →
      ThreeNode (h + 1) (valueNode k v BLACK l r)

theorem ThreeNode.balanced {h : Nat} {n : FLLRBNode κ β} (hn : ThreeNode h n) :
    Balanced BLACK h n := by
  cases hn with
  | mk hl hr => exact .black hl hr

theorem Balanced.isRed {h : Nat} {n : FLLRBNode κ β} (hn : Balanced RED h n) :
    n.isRed = true := by
  cases hn
  rfl

theorem Balanced.not_isRed {h : Nat} {n : FLLRBNode κ β} (hn : Balanced BLACK h n) :
    n.isRed = false := by
  cases hn <;> rfl

theorem Balanced.eq_black {c : FLLRBColor} {h : Nat} {n : FLLRBNode κ β} (hn : Balanced c h n)
    (hr : n.isRed = false) : c = BLACK := by
  cases hn with
  | empty => rfl
  | red => cases hr
  | black => rfl

/-- Below a balanced node no red node has a red left child. -/
theorem Balanced.left_of_isRed {c : FLLRBColor} {h : Nat} {n : FLLRBNode κ β}
    (hn : Balanced c h n) (hr : n.isRed = true) : n.left.isRed = false := by
  cases hn with
  | empty => rfl
  | red hl _ => exact hl.not_isRed
  | black => cases hr

theorem Balanced.eq_empty {n : FLLRBNode κ β} (hn : Balanced BLACK 0 n) : n = emptyNode := by
  cases hn
  rfl

theorem Balanced.copyWithColor_black {c : FLLRBColor} {h : Nat} {n : FLLRBNode κ β}
    (hn : Balanced c h n) : ∃ h', Balanced BLACK h' (n.copyWithColor BLACK) := by
  cases hn with
  | empty => exact ⟨0, .empty⟩
  | red hl hr => exact ⟨_, .black hl hr⟩
  | black hl hr => exact ⟨_, .black hl hr⟩

theorem check_valueNode_eq_ok_iff {description : β → String} {k : κ} {v : β} {c : FLLRBColor}
    {l r : FLLRBNode κ β} {h : Nat} :
    check description (valueNode k v c l r) = .ok h ↔
      (c = RED → l.isRed = false) ∧ r.isRed = false ∧ ∃ g, check description l = .ok g ∧
        check description r = .ok g ∧ h = g + if c = RED then 0 else 1 := by
  cases hr : r.isRed <;> cases hl : l.isRed <;> cases c <;> cases hcl : check description l <;>
    cases hcr : check description r <;>
    simp [check, hr, hl, hcl, hcr, bind, Except.bind, throw, throwThe, MonadExceptOf.throw,
      pure, Except.pure] <;>
    grind

/-- `check` takes exactly the balanced trees, and gives their black depth. -/
theorem check_eq_ok_iff {description : β → String} {n : FLLRBNode κ β} {h : Nat} :
    check description n = .ok h ↔ ∃ c, Balanced c h n := by
  induction n generalizing h with
  | emptyNode =>
    constructor
    · intro he
      cases he
      exact ⟨BLACK, .empty⟩
    · rintro ⟨c, hb⟩
      cases hb
      rfl
  | valueNode k v c l r ihl ihr =>
    rw [check_valueNode_eq_ok_iff]
    constructor
    · rintro ⟨hl, hr, g, hcl, hcr, rfl⟩
      obtain ⟨d, hd⟩ := ihl.mp hcl
      obtain ⟨e, he⟩ := ihr.mp hcr
      have hblack : e = BLACK := he.eq_black hr
      subst hblack
      cases c with
      | RED =>
        have hblack : d = BLACK := hd.eq_black (hl rfl)
        subst hblack
        exact ⟨RED, .red hd he⟩
      | BLACK => exact ⟨BLACK, .black hd he⟩
    · rintro ⟨d, hb⟩
      cases hb with
      | red hl hr =>
        exact ⟨fun _ => hl.not_isRed, hr.not_isRed, h, ihl.mpr ⟨_, hl⟩, ihr.mpr ⟨_, hr⟩, by simp⟩
      | @black g _ _ d _ _ hl hr =>
        exact ⟨by simp, hr.not_isRed, g, ihl.mpr ⟨_, hl⟩, ihr.mpr ⟨_, hr⟩, by simp⟩

/-! ### Depth -/

/-- The nodes on the longest way down. -/
def depth : FLLRBNode κ β → Nat
  | emptyNode => 0
  | valueNode _ _ _ l r => max l.depth r.depth + 1

/-- Of two nodes on a way down at least one is black. -/
theorem Balanced.depth_le {c : FLLRBColor} {h : Nat} {n : FLLRBNode κ β} (hn : Balanced c h n) :
    n.depth ≤ 2 * h + if c = RED then 1 else 0 := by
  induction hn with
  | empty => simp [depth]
  | red hl hr ihl ihr =>
    simp only [depth, reduceCtorEq, if_false, if_true] at ihl ihr ⊢
    omega
  | @black h _ _ c _ _ hl hr ihl ihr =>
    have hone : (if c = RED then 1 else 0) ≤ 1 := by split_ifs <;> simp
    simp only [depth, reduceCtorEq, if_false] at ihr ⊢
    omega

theorem Balanced.pow_le_count {c : FLLRBColor} {h : Nat} {n : FLLRBNode κ β}
    (hn : Balanced c h n) : 2 ^ h ≤ n.count + 1 := by
  induction hn with
  | empty => simp [count]
  | red hl hr ihl ihr =>
    simp only [count]
    omega
  | black hl hr ihl ihr =>
    simp only [count, Nat.pow_succ]
    omega

/-! ### `fixUp` -/

section
variable {k : κ} {v : β} {c : FLLRBColor} {l r : FLLRBNode κ β} {h : Nat}

/-- Nothing to do beside a right child that is black. -/
theorem fixUp_eq_self (hr : r.isRed = false) (hl : l.isRed = true → l.left.isRed = false) :
    fixUp (valueNode k v c l r) = valueNode k v c l r := by
  cases hred : l.isRed with
  | true => simp [fixUp, hr, hred, hl hred]
  | false => simp [fixUp, hr, hred]

theorem fixUp_rotateLeft {rk : κ} {rv : β} {rl rr : FLLRBNode κ β} (hl : l.isRed = false)
    (hrr : rr.isRed = false) :
    fixUp (valueNode k v c l (valueNode rk rv RED rl rr)) =
      valueNode rk rv c (valueNode k v RED l rl) rr := by
  simp [fixUp, rotateLeft, hl, hrr]

theorem fixUp_rotateRight {lk llk : κ} {lv llv : β} {lll llr lr : FLLRBNode κ β}
    (hr : r.isRed = false) :
    fixUp (valueNode k v c (valueNode lk lv RED (valueNode llk llv RED lll llr) lr) r) =
      valueNode lk lv c.not (valueNode llk llv BLACK lll llr) (valueNode k v BLACK lr r) := by
  simp [fixUp, rotateRight, colorFlip, otherColor, FLLRBColor.not, hr]

theorem fixUp_colorFlip {lk rk : κ} {lv rv : β} {ll lr rl rr : FLLRBNode κ β}
    (hll : ll.isRed = false) :
    fixUp (valueNode k v c (valueNode lk lv RED ll lr) (valueNode rk rv RED rl rr)) =
      valueNode k v c.not (valueNode lk lv BLACK ll lr) (valueNode rk rv BLACK rl rr) := by
  simp [fixUp, colorFlip, otherColor, FLLRBColor.not, hll]

theorem balanced_fixUp_red (hl : Balanced BLACK h l) (hr : Balanced BLACK h r) :
    Balanced RED h (fixUp (valueNode k v RED l r)) := by
  rw [fixUp_eq_self hr.not_isRed hl.left_of_isRed]
  exact .red hl hr

theorem balanced_fixUp_black (hl : Balanced c h l) (hr : Balanced BLACK h r) :
    Balanced BLACK (h + 1) (fixUp (valueNode k v BLACK l r)) := by
  rw [fixUp_eq_self hr.not_isRed hl.left_of_isRed]
  exact .black hl hr

/-- Beside a red right child, the color of the left child becomes that of the node. -/
theorem balanced_fixUp_black_red (hl : Balanced c h l) (hr : Balanced RED h r) :
    Balanced c (h + 1) (fixUp (valueNode k v BLACK l r)) := by
  cases hr with
  | red hrl hrr =>
    cases c with
    | RED =>
      cases hl with
      | red hll hlr =>
        rw [fixUp_colorFlip hll.not_isRed]
        exact .red (.black hll hlr) (.black hrl hrr)
    | BLACK =>
      rw [fixUp_rotateLeft hl.not_isRed hrr.not_isRed]
      exact .black (.red hl hrl) hrr

theorem exists_balanced_fixUp_black {d : FLLRBColor} (hl : Balanced c h l)
    (hr : Balanced d h r) : ∃ e, Balanced e (h + 1) (fixUp (valueNode k v BLACK l r)) := by
  cases d with
  | RED => exact ⟨c, balanced_fixUp_black_red hl hr⟩
  | BLACK => exact ⟨BLACK, balanced_fixUp_black hl hr⟩

end

/-! ### An insertion -/

section
variable {aKey : κ} {aValue : β}

theorem entries_insertKey [TransCmp cmp] {n : FLLRBNode κ β} (hs : Sorted cmp n.entries) :
    (insertKey cmp aKey aValue n).entries = insertEntry cmp aKey aValue n.entries := by
  induction n with
  | emptyNode => rfl
  | valueNode k v c l r ihl ihr =>
    obtain ⟨hl, hr, -, -⟩ := sorted_middle hs
    simp only [insertKey]
    split
    · rename_i hlt
      rw [entries_fixUp, entries, ihl hl, entries]
      exact (insertEntry_append_of_lt hlt).symm
    · rename_i heq
      rw [entries_fixUp, entries, entries]
      exact (insertEntry_append_of_eq hs heq).symm
    · rename_i hgt
      rw [entries_fixUp, entries, ihr hr, entries]
      exact (insertEntry_append_of_gt hs hgt).symm

/-- What an insertion leaves of a balanced node: a balanced node, or a red node
that only has to be made black. -/
inductive Grown : FLLRBColor → Nat → FLLRBNode κ β → Prop
  | balanced {c h n} : Balanced c h n → Grown BLACK h n
  | red {c h k v l r} : Balanced c h l → Balanced BLACK h r →
      Grown RED h (valueNode k v RED l r)

theorem grown_fixUp_red {k : κ} {v : β} {l r : FLLRBNode κ β} {h : Nat} {c d : FLLRBColor}
    (hl : Balanced c h l) (hr : Balanced d h r) (hcd : c = BLACK ∨ d = BLACK) :
    Grown RED h (fixUp (valueNode k v RED l r)) := by
  cases hr with
  | red hrl hrr =>
    have hc : c = BLACK := hcd.resolve_right (by simp)
    subst hc
    rw [fixUp_rotateLeft hl.not_isRed hrr.not_isRed]
    exact .red (.red hl hrl) hrr
  | empty =>
    rw [fixUp_eq_self rfl hl.left_of_isRed]
    exact .red hl .empty
  | black hrl hrr =>
    rw [fixUp_eq_self rfl hl.left_of_isRed]
    exact .red hl (.black hrl hrr)

/-- A left child that has grown, below a black node. -/
theorem exists_balanced_fixUp_grown {k : κ} {v : β} {l r : FLLRBNode κ β} {h : Nat}
    {c : FLLRBColor} (hl : Grown c h l) (hr : Balanced BLACK h r) :
    ∃ d, Balanced d (h + 1) (fixUp (valueNode k v BLACK l r)) := by
  cases hl with
  | balanced hl => exact ⟨BLACK, balanced_fixUp_black hl hr⟩
  | @red c _ lk lv ll lr hll hlr =>
    cases c with
    | BLACK => exact ⟨BLACK, balanced_fixUp_black (.red hll hlr) hr⟩
    | RED =>
      -- two red nodes in a row: the rotation puts the upper one in place
      cases hll with
      | red hlll hllr =>
        rw [fixUp_rotateRight hr.not_isRed]
        exact ⟨RED, .red (.black hlll hllr) (.black hlr hr)⟩

theorem grown_insertKey {c : FLLRBColor} {h : Nat} {n : FLLRBNode κ β} (hn : Balanced c h n) :
    Grown c h (insertKey cmp aKey aValue n) := by
  induction hn with
  | empty => exact .balanced (.red .empty .empty)
  | red hl hr ihl ihr =>
    simp only [insertKey]
    split
    · cases ihl with
      | balanced hl' => exact grown_fixUp_red hl' hr (Or.inr rfl)
    · exact grown_fixUp_red hl hr (Or.inr rfl)
    · cases ihr with
      | balanced hr' => exact grown_fixUp_red hl hr' (Or.inl rfl)
  | black hl hr ihl ihr =>
    simp only [insertKey]
    split
    · obtain ⟨d, hd⟩ := exists_balanced_fixUp_grown ihl hr
      exact .balanced hd
    · exact .balanced (balanced_fixUp_black hl hr)
    · cases ihr with
      | balanced hr' =>
        obtain ⟨d, hd⟩ := exists_balanced_fixUp_black hl hr'
        exact .balanced hd

theorem Grown.copyWithColor_black {c : FLLRBColor} {h : Nat} {n : FLLRBNode κ β}
    (hg : Grown c h n) : ∃ h', Balanced BLACK h' (n.copyWithColor BLACK) := by
  cases hg with
  | balanced hb => exact hb.copyWithColor_black
  | red hl hr => exact ⟨_, .black hl hr⟩

/-- An insertion, with the root made black, keeps the balance. -/
theorem balanced_insertKey {c : FLLRBColor} {h : Nat} {n : FLLRBNode κ β} (hn : Balanced c h n) :
    ∃ h', Balanced BLACK h' ((insertKey cmp aKey aValue n).copyWithColor BLACK) :=
  (grown_insertKey hn).copyWithColor_black

end

end xellissime_book.llrb_nodes.FLLRBNode
