-- A removal keeps the balance of a left-leaning red-black tree and drops one
-- entry. It works below a node that it has made red, or whose left child is
-- red, and the inductions here carry which of the two it is.
import XellissimeBook.BalancedNodes

open Std sorted_entries

namespace xellissime_book.llrb_nodes.FLLRBNode

open FLLRBColor

variable {κ β : Type*} {cmp : κ → κ → Ordering}

/-! ## The color of the root

No turn reads the color of the node that it turns. -/

@[simp] theorem left_otherColor (n : FLLRBNode κ β) : n.otherColor.left = n.left := by
  cases n <;> rfl

@[simp] theorem right_otherColor (n : FLLRBNode κ β) : n.otherColor.right = n.right := by
  cases n <;> rfl

@[simp] theorem otherColor_otherColor (n : FLLRBNode κ β) : n.otherColor.otherColor = n := by
  cases n with
  | emptyNode => rfl
  | valueNode k v c l r => cases c <;> rfl

@[simp] theorem otherColor_eq_empty {n : FLLRBNode κ β} :
    n.otherColor = emptyNode ↔ n = emptyNode := by
  cases n <;> simp [otherColor]

@[simp] theorem copyWithColor_otherColor (c : FLLRBColor) (n : FLLRBNode κ β) :
    n.otherColor.copyWithColor c = n.copyWithColor c := by
  cases n <;> rfl

theorem rotateLeft_otherColor (n : FLLRBNode κ β) :
    n.otherColor.rotateLeft = n.rotateLeft.otherColor := by
  cases n with
  | emptyNode => rfl
  | valueNode k v c l r => cases r <;> rfl

theorem rotateRight_otherColor (n : FLLRBNode κ β) :
    n.otherColor.rotateRight = n.rotateRight.otherColor := by
  cases n with
  | emptyNode => rfl
  | valueNode k v c l r => cases l <;> rfl

theorem colorFlip_otherColor (n : FLLRBNode κ β) :
    n.otherColor.colorFlip = n.colorFlip.otherColor := by
  cases n <;> rfl

theorem copyWithRight_otherColor (r n : FLLRBNode κ β) :
    copyWithRight r n.otherColor = (copyWithRight r n).otherColor := by
  cases n <;> rfl

theorem copyWithLeft_otherColor (l n : FLLRBNode κ β) :
    copyWithLeft l n.otherColor = (copyWithLeft l n).otherColor := by
  cases n <;> rfl

theorem ite_otherColor (b : Bool) (n m : FLLRBNode κ β) :
    (if b then n.otherColor else m.otherColor) = (if b then n else m).otherColor := by
  split_ifs <;> rfl

theorem fixUp_otherColor (n : FLLRBNode κ β) : n.otherColor.fixUp = n.fixUp.otherColor := by
  simp only [fixUp, left_otherColor, right_otherColor, rotateLeft_otherColor,
    rotateRight_otherColor, colorFlip_otherColor, ite_otherColor]

theorem moveRedLeft_otherColor (n : FLLRBNode κ β) :
    n.otherColor.moveRedLeft = n.moveRedLeft.otherColor := by
  simp only [moveRedLeft, colorFlip_otherColor, right_otherColor, copyWithRight_otherColor,
    rotateLeft_otherColor, ite_otherColor]

theorem moveRedRight_otherColor (n : FLLRBNode κ β) :
    n.otherColor.moveRedRight = n.moveRedRight.otherColor := by
  simp only [moveRedRight, colorFlip_otherColor, left_otherColor, rotateRight_otherColor,
    ite_otherColor]

theorem beforeLeft_otherColor (n : FLLRBNode κ β) :
    n.otherColor.beforeLeft = n.beforeLeft.otherColor := by
  simp only [beforeLeft, left_otherColor, moveRedLeft_otherColor, ite_otherColor]

theorem beforeRight_otherColor (n : FLLRBNode κ β) :
    n.otherColor.beforeRight = n.beforeRight.otherColor := by
  simp only [beforeRight, left_otherColor, right_otherColor, rotateRight_otherColor,
    moveRedRight_otherColor, ite_otherColor]

/-! ## The way to the left -/

/-- How a red node stands before a removal goes on in its left child, which
began with the entries `es`. -/
inductive LeftReady (es : List (κ × β)) : Nat → FLLRBNode κ β → Prop
  | red {h k v l r} : ThreeNode h l → Balanced BLACK h r → es <+: l.entries →
      LeftReady es h (valueNode k v RED l r)
  | black {h k v l r} : Balanced RED h l → Balanced RED h r → es <+: l.entries →
      LeftReady es (h + 1) (valueNode k v BLACK l r)

theorem leftReady_beforeLeft {h : Nat} {k : κ} {v : β} {l r : FLLRBNode κ β}
    (hl : Balanced BLACK h l) (hr : Balanced BLACK h r) (hne : l ≠ emptyNode) :
    LeftReady l.entries h (beforeLeft (valueNode k v RED l r)) := by
  cases hl with
  | empty => exact absurd rfl hne
  | @black h' lk lv c ll lr hll hlr =>
    cases c with
    | RED =>
      have hm : beforeLeft (valueNode k v RED (valueNode lk lv BLACK ll lr) r) =
          valueNode k v RED (valueNode lk lv BLACK ll lr) r := by
        simp [beforeLeft, hll.isRed]
      rw [hm]
      exact .red (.mk hll hlr) hr (List.prefix_refl _)
    | BLACK =>
      have hred := hll.not_isRed
      cases hr with
      | @black _ rk rv d rl rr hrl hrr =>
        cases d with
        | BLACK =>
          have hred' := hrl.not_isRed
          have hm : beforeLeft (valueNode k v RED (valueNode lk lv BLACK ll lr)
              (valueNode rk rv BLACK rl rr)) =
              valueNode k v BLACK (valueNode lk lv RED ll lr) (valueNode rk rv RED rl rr) := by
            simp [beforeLeft, FLLRBNode.isEmpty, moveRedLeft, colorFlip, otherColor,
              FLLRBColor.not, hred, hred']
          rw [hm]
          exact .black (.red hll hlr) (.red hrl hrr) (List.prefix_refl _)
        | RED =>
          -- the red node of the right child moves over the root
          cases hrl with
          | @red _ rlk rlv rll rlr hrll hrlr =>
            have hm : beforeLeft (valueNode k v RED (valueNode lk lv BLACK ll lr)
                (valueNode rk rv BLACK (valueNode rlk rlv RED rll rlr) rr)) =
                valueNode rlk rlv RED (valueNode k v BLACK (valueNode lk lv RED ll lr) rll)
                  (valueNode rk rv BLACK rlr rr) := by
              simp [beforeLeft, FLLRBNode.isEmpty, moveRedLeft, colorFlip, otherColor,
                FLLRBColor.not, rotateRight, rotateLeft, copyWithRight, hred]
            rw [hm]
            exact .red (.mk (.red hll hlr) hrll) (.black hrlr hrr) (List.prefix_append _ _)

/-- A node that is ready takes a left child of any color back that meets `P`. -/
theorem LeftReady.fixUp_copyWithLeft {P : FLLRBColor → Prop} (hP : P RED) {es : List (κ × β)}
    {h : Nat} {m x : FLLRBNode κ β} (hm : LeftReady es h m)
    (hred : ∀ g, Balanced RED g m.left → ∃ c, P c ∧ Balanced c g x)
    (hthree : ∀ g, ThreeNode g m.left → Balanced BLACK g x) :
    ∃ c, P c ∧ Balanced c h (fixUp (copyWithLeft x m)) := by
  cases hm with
  | red hl hr => exact ⟨RED, hP, balanced_fixUp_red (hthree _ hl) hr⟩
  | black hl hr =>
    obtain ⟨c, hc, hx⟩ := hred _ hl
    exact ⟨c, hc, balanced_fixUp_black_red hx hr⟩

theorem LeftReady.ne_empty {es : List (κ × β)} {h : Nat} {m : FLLRBNode κ β}
    (hm : LeftReady es h m) : m ≠ emptyNode := by
  cases hm <;> simp

theorem LeftReady.left_ne_empty {es : List (κ × β)} {h : Nat} {m : FLLRBNode κ β}
    (hm : LeftReady es h m) : m.left ≠ emptyNode := by
  cases hm with
  | red hl _ _ =>
    cases hl
    simp
  | black hl _ _ =>
    cases hl
    simp

/-- The root of a node that is ready, and what is on its right, were there
before, after the left child. -/
theorem LeftReady.entries_suffix {es rest : List (κ × β)} {h : Nat} {m : FLLRBNode κ β}
    (hm : LeftReady es h m) (he : m.entries = es ++ rest) :
    ∃ tail, tail <:+ rest ∧ m.entries = m.left.entries ++ tail ∧
      ∀ x : FLLRBNode κ β, (copyWithLeft x m).entries = x.entries ++ tail := by
  have hes : es <+: m.left.entries := by
    cases hm with
    | red _ _ hp => exact hp
    | black _ _ hp => exact hp
  obtain ⟨mid, hmid⟩ := hes
  cases m with
  | emptyNode => exact absurd rfl hm.ne_empty
  | valueNode k v c l r =>
    refine ⟨(k, v) :: r.entries, ⟨mid, ?_⟩, rfl, fun x => rfl⟩
    rw [left_valueNode] at hmid
    rw [entries, ← hmid, List.append_assoc] at he
    exact List.append_cancel_left he

theorem ThreeNode.beforeLeft_eq_self {h : Nat} {n : FLLRBNode κ β} (hn : ThreeNode h n) :
    n.beforeLeft = n := by
  cases hn with
  | mk hl hr => simp [beforeLeft, hl.isRed]

theorem beforeRemoveMin_eq_beforeLeft {n : FLLRBNode κ β} (h : n.left ≠ emptyNode) :
    n.beforeRemoveMin = n.beforeLeft := by
  have he : n.left.isEmpty = false := by
    cases hl : n.left with
    | emptyNode => exact absurd hl h
    | valueNode => rfl
  simp [beforeRemoveMin, beforeLeft, he]

theorem removeMin_of_left_empty {n : FLLRBNode κ β} (h : n.left = emptyNode) :
    n.removeMin = emptyNode := by
  have he : n.left.isEmpty = true := by rw [h]; rfl
  rw [removeMin, dif_pos he]

theorem removeMin_of_left_ne_empty {n : FLLRBNode κ β} (h : n.left ≠ emptyNode) :
    n.removeMin = fixUp (copyWithLeft n.beforeLeft.left.removeMin n.beforeLeft) := by
  have he : ¬ n.left.isEmpty = true := by
    cases hl : n.left with
    | emptyNode => exact absurd hl h
    | valueNode => exact Bool.false_ne_true
  rw [removeMin, dif_neg he, beforeRemoveMin_eq_beforeLeft h]

theorem tail_append_of_ne_empty {n : FLLRBNode κ β} (h : n ≠ emptyNode)
    (rest : List (κ × β)) : (n.entries ++ rest).tail = n.entries.tail ++ rest :=
  List.tail_append_of_ne_nil fun he => h (entries_eq_nil_iff.mp he)

/-- `removeMin` below a red node or a red left child drops the first entry. -/
theorem removeMin_spec (n : FLLRBNode κ β) :
    (∀ h, Balanced RED h n →
      (∃ c, Balanced c h n.removeMin) ∧ n.removeMin.entries = n.entries.tail) ∧
    (∀ h, ThreeNode h n →
      Balanced BLACK h n.removeMin ∧ n.removeMin.entries = n.entries.tail) := by
  induction hc : n.count using Nat.strongRecOn generalizing n with
  | _ _ ih =>
    subst hc
    constructor
    · intro h hn
      cases hn with
      | @red _ k v l r hl hr =>
        by_cases hne : l = emptyNode
        · subst hne
          cases hl
          rw [hr.eq_empty, removeMin_of_left_empty rfl]
          exact ⟨⟨BLACK, .empty⟩, rfl⟩
        · have hm := leftReady_beforeLeft (k := k) (v := v) hl hr hne
          rw [removeMin_of_left_ne_empty (by simpa using hne)]
          generalize hmn : beforeLeft (valueNode k v RED l r) = m at hm
          have hlt : m.left.count < (valueNode k v RED l r).count := by
            rw [← hmn]
            exact count_left_lt (count_beforeLeft_le _) (by simp)
          have hme : m.entries = (valueNode k v RED l r).entries := by
            rw [← hmn, entries_beforeLeft]
          obtain ⟨ihred, ihthree⟩ := ih _ hlt m.left rfl
          constructor
          · obtain ⟨c, -, hb⟩ := hm.fixUp_copyWithLeft (P := fun _ => True) trivial
              (fun g hg => ⟨_, trivial, (ihred g hg).1.choose_spec⟩) fun g hg => (ihthree g hg).1
            exact ⟨c, hb⟩
          · have htail : m.left.removeMin.entries = m.left.entries.tail := by
              cases hm with
              | red hl' _ _ => exact (ihthree _ hl').2
              | black hl' _ _ => exact (ihred _ hl').2
            obtain ⟨tail, -, hmt, hct⟩ := hm.entries_suffix hme
            rw [entries_fixUp, hct, htail, ← hme, hmt, tail_append_of_ne_empty hm.left_ne_empty]
    · intro h hn
      have hself := hn.beforeLeft_eq_self
      cases hn with
      | @mk h k v l r hl hr =>
        have hne : l ≠ emptyNode := ne_empty_of_isRed hl.isRed
        have hlt : l.count < (valueNode k v BLACK l r).count := by
          simp only [count]
          omega
        obtain ⟨⟨c, hb⟩, htail⟩ := (ih _ hlt l rfl).1 h hl
        rw [removeMin_of_left_ne_empty (by simpa using hne), hself]
        refine ⟨balanced_fixUp_black hb hr, ?_⟩
        rw [entries_fixUp]
        simp only [copyWithLeft, left_valueNode, entries, htail]
        rw [tail_append_of_ne_empty hne]

/-! ## The cases of a removal -/

section
variable {aKey key : κ} {value : β} {color : FLLRBColor} {left right : FLLRBNode κ β}

@[simp] theorem remove_empty : remove cmp aKey (emptyNode : FLLRBNode κ β) = emptyNode := by
  rw [remove]

theorem remove_of_lt (h : cmp aKey key = .lt) :
    remove cmp aKey (valueNode key value color left right) =
      fixUp (copyWithLeft
        (remove cmp aKey (beforeLeft (valueNode key value color left right)).left)
        (beforeLeft (valueNode key value color left right))) := by
  rw [remove]
  simp only [h, if_true]

variable {k smallestKey : κ} {v smallestValue : β} {c sc : FLLRBColor} {l r sl sr : FLLRBNode κ β}

theorem remove_of_ne (h : cmp aKey key ≠ .lt)
    (hm : beforeRight (valueNode key value color left right) = valueNode k v c l r)
    (hk : cmp aKey k ≠ .eq) :
    remove cmp aKey (valueNode key value color left right) =
      fixUp (valueNode k v c l (remove cmp aKey r)) := by
  rw [remove]
  simp only [h, if_false]
  split
  · rename_i he
    rw [hm] at he
    cases he
  · rename_i he
    rw [hm] at he
    cases he
    rw [if_neg hk]

theorem remove_of_eq_last (h : cmp aKey key ≠ .lt)
    (hm : beforeRight (valueNode key value color left right) = valueNode k v c l emptyNode)
    (hk : cmp aKey k = .eq) :
    remove cmp aKey (valueNode key value color left right) = emptyNode := by
  rw [remove]
  simp only [h, if_false]
  split
  · rfl
  · rename_i he
    rw [hm] at he
    cases he
    rw [if_pos hk]
    rfl

theorem remove_of_eq (h : cmp aKey key ≠ .lt)
    (hm : beforeRight (valueNode key value color left right) = valueNode k v c l r)
    (hk : cmp aKey k = .eq) (hmin : r.min = valueNode smallestKey smallestValue sc sl sr) :
    remove cmp aKey (valueNode key value color left right) =
      fixUp (valueNode smallestKey smallestValue c l (remove cmp aKey r.removeMin)) := by
  rw [remove]
  simp only [h, if_false]
  split
  · rename_i he
    rw [hm] at he
    cases he
  · rename_i he
    rw [hm] at he
    cases he
    rw [if_pos hk]
    simp only [hmin]

end

/-- The color of the root stays out of a removal. -/
theorem remove_otherColor (cmp : κ → κ → Ordering) (aKey : κ) (n : FLLRBNode κ β) :
    remove cmp aKey n.otherColor = (remove cmp aKey n).otherColor := by
  cases n with
  | emptyNode =>
    rw [otherColor, remove_empty]
    rfl
  | valueNode key value color left right =>
    by_cases h : cmp aKey key = .lt
    · have hb := beforeLeft_otherColor (valueNode key value color left right)
      rw [otherColor] at hb ⊢
      rw [remove_of_lt h, remove_of_lt h, hb, left_otherColor, copyWithLeft_otherColor,
        fixUp_otherColor]
    · have hb := beforeRight_otherColor (valueNode key value color left right)
      have hne : beforeRight (valueNode key value color left right) ≠ emptyNode := by
        rw [ne_eq, ← entries_eq_nil_iff, entries_beforeRight, entries_eq_nil_iff]
        simp
      rw [otherColor] at hb ⊢
      cases hm : beforeRight (valueNode key value color left right) with
      | emptyNode => exact absurd hm hne
      | valueNode k v c l r =>
        rw [hm, otherColor] at hb
        by_cases hk : cmp aKey k = .eq
        · by_cases hr : r = emptyNode
          · subst hr
            rw [remove_of_eq_last h hb hk, remove_of_eq_last h hm hk]
            rfl
          · obtain ⟨sk, sv, sc, sl, sr, _, hmin, -⟩ := exists_min hr
            rw [remove_of_eq h hb hk hmin, remove_of_eq h hm hk hmin, ← fixUp_otherColor]
            rfl
        · rw [remove_of_ne h hb hk, remove_of_ne h hm hk, ← fixUp_otherColor]
          rfl

theorem Balanced.otherColor {h : Nat} {n : FLLRBNode κ β} (hn : Balanced RED h n) :
    Balanced BLACK (h + 1) n.otherColor := by
  cases hn with
  | red hl hr => exact .black hl hr

/-! ## A removal below every key -/

/-- A removal of a key below every key leaves the entries, the depth and the
color. `remove:` meets this case after it has moved the smallest entry up. -/
theorem remove_below (aKey : κ) {c : FLLRBColor} {h : Nat} {n : FLLRBNode κ β}
    (hn : Balanced c h n) (hlow : ∀ e ∈ n.entries, cmp aKey e.1 = .lt) :
    Balanced c h (remove cmp aKey n) ∧ (remove cmp aKey n).entries = n.entries := by
  induction hc : n.count using Nat.strongRecOn generalizing c h n with
  | _ _ ih =>
    subst hc
    have hred : ∀ {g : Nat} {m : FLLRBNode κ β}, m.count = n.count → Balanced RED g m →
        (∀ e ∈ m.entries, cmp aKey e.1 = .lt) →
        Balanced RED g (remove cmp aKey m) ∧ (remove cmp aKey m).entries = m.entries := by
      intro g m hcount hm hlow
      cases hm with
      | @red _ k v l r hl hr =>
        have hk : cmp aKey k = .lt := hlow (k, v) (by simp [entries])
        rw [remove_of_lt hk]
        by_cases hne : l = emptyNode
        · subst hne
          cases hl
          rw [hr.eq_empty]
          have hself : beforeLeft (valueNode k v RED emptyNode (emptyNode : FLLRBNode κ β)) =
              valueNode k v RED emptyNode emptyNode := rfl
          rw [hself, left_valueNode, remove_empty]
          exact ⟨balanced_fixUp_red .empty .empty, entries_fixUp _⟩
        · have hm := leftReady_beforeLeft (k := k) (v := v) hl hr hne
          have hlt : (beforeLeft (valueNode k v RED l r)).left.count < n.count := by
            rw [← hcount]
            exact count_left_lt (count_beforeLeft_le _) (by simp)
          have hme : (beforeLeft (valueNode k v RED l r)).entries =
              (valueNode k v RED l r).entries := entries_beforeLeft _
          generalize beforeLeft (valueNode k v RED l r) = m at *
          obtain ⟨tail, -, hmt, hct⟩ := hm.entries_suffix hme
          have hlow' : ∀ e ∈ m.left.entries, cmp aKey e.1 = .lt := by
            intro e he
            apply hlow
            rw [← hme, hmt]
            exact List.mem_append_left _ he
          have hleft : (remove cmp aKey m.left).entries = m.left.entries := by
            cases hm with
            | red hl' _ _ => exact (ih _ hlt hl'.balanced hlow' rfl).2
            | black hl' _ _ => exact (ih _ hlt hl' hlow' rfl).2
          constructor
          · obtain ⟨c, rfl, hb⟩ := hm.fixUp_copyWithLeft (P := fun c => c = RED) rfl
              (fun g hg => ⟨RED, rfl, (ih _ hlt hg hlow' rfl).1⟩)
              fun g hg => (ih _ hlt hg.balanced hlow' rfl).1
            exact hb
          · rw [entries_fixUp, hct, hleft, ← hmt, hme]
    cases hn with
    | empty => exact ⟨by simpa using Balanced.empty, by simp⟩
    | red hl hr => exact hred rfl (.red hl hr) hlow
    | @black h k v c l r hl hr =>
      have hk : cmp aKey k = .lt := hlow (k, v) (by simp [entries])
      cases c with
      | RED =>
        have hlt : l.count < (valueNode k v BLACK l r).count := by
          simp only [count]
          omega
        obtain ⟨hb, he⟩ := ih _ hlt hl
          (fun e he => hlow e (by simp [entries, he])) rfl
        rw [remove_of_lt hk, (ThreeNode.mk hl hr).beforeLeft_eq_self]
        refine ⟨balanced_fixUp_black hb hr, ?_⟩
        rw [entries_fixUp]
        simp only [copyWithLeft, left_valueNode, entries, he]
      | BLACK =>
        -- the root made red, and its color turned back
        obtain ⟨hb, he⟩ := hred (m := valueNode k v RED l r) rfl (.red hl hr) hlow
        have hturn : remove cmp aKey (valueNode k v BLACK l r) =
            (remove cmp aKey (valueNode k v RED l r)).otherColor :=
          remove_otherColor cmp aKey (valueNode k v RED l r)
        rw [hturn, entries_otherColor]
        exact ⟨hb.otherColor, he⟩

/-! ## The way to the right -/

/-- A black node with a red right child, on the way to a key that is not before
the node. -/
inductive Leaned (cmp : κ → κ → Ordering) (aKey : κ) : Nat → FLLRBNode κ β → Prop
  | mk {h k v l r} : Balanced BLACK h l → Balanced RED h r → cmp aKey k ≠ .lt →
      Leaned cmp aKey (h + 1) (valueNode k v BLACK l r)

/-- The nodes that a removal works on, with the color that stays black. -/
inductive Removable (cmp : κ → κ → Ordering) (aKey : κ) : FLLRBColor → Nat → FLLRBNode κ β → Prop
  | red {h n} : Balanced RED h n → Removable cmp aKey RED h n
  | three {h n} : ThreeNode h n → Removable cmp aKey BLACK h n
  | leaned {h n} : Leaned cmp aKey h n → Removable cmp aKey BLACK h n

theorem Removable.color_eq {aKey key : κ} {value : β} {c color : FLLRBColor} {h : Nat}
    {l r : FLLRBNode κ β} (hn : Removable cmp aKey c h (valueNode key value color l r)) :
    c = color := by
  cases hn with
  | red hb =>
    cases hb
    rfl
  | three hb =>
    cases hb
    rfl
  | leaned hb =>
    cases hb
    rfl

/-- What a removal leaves: a node as high, and a black one for a black one. -/
def Left (c : FLLRBColor) (h : Nat) (n : FLLRBNode κ β) : Prop :=
  ∃ d, (c = BLACK → d = BLACK) ∧ Balanced d h n

/-- How a node stands before a removal goes on in its right child. -/
inductive RightReady (cmp : κ → κ → Ordering) (aKey : κ) :
    FLLRBColor → Nat → FLLRBNode κ β → Prop
  | last {k v} : RightReady cmp aKey RED 0 (valueNode k v RED emptyNode emptyNode)
  | three {h k v l r} : Balanced BLACK h l → ThreeNode h r →
      RightReady cmp aKey RED h (valueNode k v RED l r)
  | red {h k v l r} : Balanced RED h l → Balanced RED h r →
      RightReady cmp aKey RED (h + 1) (valueNode k v BLACK l r)
  | leaned {h k v l r} : Balanced BLACK h l → Leaned cmp aKey h r → cmp aKey k = .gt →
      RightReady cmp aKey RED h (valueNode k v RED l r)
  | black {h k v l r} : Balanced BLACK h l → Balanced RED h r →
      RightReady cmp aKey BLACK (h + 1) (valueNode k v BLACK l r)

theorem rightReady_beforeRight_red [TransCmp cmp] {aKey : κ} {h : Nat} {k : κ} {v : β}
    {l r : FLLRBNode κ β} (hl : Balanced BLACK h l) (hr : Balanced BLACK h r)
    (hk : cmp aKey k ≠ .lt) (hs : Sorted cmp (valueNode k v RED l r).entries) :
    RightReady cmp aKey RED h (beforeRight (valueNode k v RED l r)) := by
  have hlred := hl.not_isRed
  cases hr with
  | empty =>
    rw [hl.eq_empty]
    exact .last
  | @black h' rk rv c rl rr hrl hrr =>
    cases c with
    | RED =>
      have hm : beforeRight (valueNode k v RED l (valueNode rk rv BLACK rl rr)) =
          valueNode k v RED l (valueNode rk rv BLACK rl rr) := by
        simp [beforeRight, hlred, hrl.isRed]
      rw [hm]
      exact .three hl (.mk hrl hrr)
    | BLACK =>
      have hrlred := hrl.not_isRed
      cases hl with
      | @black _ lk lv d ll lr hll hlr =>
        cases d with
        | BLACK =>
          have hllred := hll.not_isRed
          have hm : beforeRight (valueNode k v RED (valueNode lk lv BLACK ll lr)
              (valueNode rk rv BLACK rl rr)) =
              valueNode k v BLACK (valueNode lk lv RED ll lr) (valueNode rk rv RED rl rr) := by
            simp [beforeRight, FLLRBNode.isEmpty, moveRedRight, colorFlip, otherColor,
              FLLRBColor.not, hrlred, hllred]
          rw [hm]
          exact .red (.red hll hlr) (.red hrl hrr)
        | RED =>
          -- the red node of the left child moves over the root
          cases hll with
          | @red _ llk llv lll llr hlll hllr =>
            have hm : beforeRight (valueNode k v RED
                (valueNode lk lv BLACK (valueNode llk llv RED lll llr) lr)
                (valueNode rk rv BLACK rl rr)) =
                valueNode lk lv RED (valueNode llk llv BLACK lll llr)
                  (valueNode k v BLACK lr (valueNode rk rv RED rl rr)) := by
              simp [beforeRight, FLLRBNode.isEmpty, moveRedRight, colorFlip, otherColor,
                FLLRBColor.not, rotateRight, hrlred]
            have hlk : cmp lk k = .lt := by
              obtain ⟨-, -, hbefore, -⟩ := sorted_middle hs
              exact hbefore (lk, lv) (by simp [entries])
            have hgt : cmp aKey lk = .gt := by
              cases hak : cmp aKey k with
              | lt => exact absurd hak hk
              | eq => exact TransCmp.gt_of_eq_of_gt hak (OrientedCmp.gt_of_lt hlk)
              | gt => exact TransCmp.gt_trans hak (OrientedCmp.gt_of_lt hlk)
            rw [hm]
            exact .leaned (.black hlll hllr) (.mk hlr (.red hrl hrr) hk) hgt

theorem rightReady_beforeRight_three {aKey : κ} {h : Nat} {k : κ} {v : β}
    {l r : FLLRBNode κ β} (hl : Balanced RED h l) (hr : Balanced BLACK h r) :
    RightReady cmp aKey BLACK (h + 1) (beforeRight (valueNode k v BLACK l r)) := by
  cases hl with
  | @red _ lk lv ll lr hll hlr =>
    have hm : beforeRight (valueNode k v BLACK (valueNode lk lv RED ll lr) r) =
        valueNode lk lv BLACK ll (valueNode k v RED lr r) := by
      simp [beforeRight, rotateRight]
    rw [hm]
    exact .black hll (.red hlr hr)

theorem rightReady_beforeRight_leaned {aKey : κ} {h : Nat} {k : κ} {v : β}
    {l r : FLLRBNode κ β} (hl : Balanced BLACK h l) (hr : Balanced RED h r) :
    RightReady cmp aKey BLACK (h + 1) (beforeRight (valueNode k v BLACK l r)) := by
  have hm : beforeRight (valueNode k v BLACK l r) = valueNode k v BLACK l r := by
    simp [beforeRight, hl.not_isRed, hr.isRed]
  rw [hm]
  exact .black hl hr

theorem rightReady_beforeRight [TransCmp cmp] {aKey key : κ} {value : β} {color c : FLLRBColor}
    {l r : FLLRBNode κ β} {h : Nat}
    (hn : Removable cmp aKey c h (valueNode key value color l r)) (hk : cmp aKey key ≠ .lt)
    (hs : Sorted cmp (valueNode key value color l r).entries) :
    RightReady cmp aKey c h (beforeRight (valueNode key value color l r)) := by
  cases hn with
  | red hb =>
    cases hb with
    | red hl hr => exact rightReady_beforeRight_red hl hr hk hs
  | three ht =>
    cases ht with
    | mk hl hr => exact rightReady_beforeRight_three hl hr
  | leaned ht =>
    cases ht with
    | mk hl hr _ => exact rightReady_beforeRight_leaned hl hr

/-- A node that is ready takes back what a removal leaves of its right child,
under any key. -/
theorem RightReady.fixUp_copyWithRight {aKey mk k : κ} {mv v : β} {c color : FLLRBColor}
    {h : Nat} {l r x : FLLRBNode κ β}
    (hm : RightReady cmp aKey c h (valueNode mk mv color l r)) (hne : r ≠ emptyNode)
    (hx : ∀ d g, Removable cmp aKey d g r → Left d g x) :
    Left c h (fixUp (valueNode k v color l x)) := by
  cases hm with
  | last => exact absurd rfl hne
  | three hl hr =>
    obtain ⟨d, hd, hb⟩ := hx _ _ (.three hr)
    cases hd rfl
    exact ⟨RED, by simp, balanced_fixUp_red hl hb⟩
  | red hl hr =>
    obtain ⟨d, -, hb⟩ := hx _ _ (.red hr)
    obtain ⟨e, he⟩ := exists_balanced_fixUp_black hl hb
    exact ⟨e, by simp, he⟩
  | leaned hl hr _ =>
    obtain ⟨d, hd, hb⟩ := hx _ _ (.leaned hr)
    cases hd rfl
    exact ⟨RED, by simp, balanced_fixUp_red hl hb⟩
  | black hl hr =>
    obtain ⟨d, -, hb⟩ := hx _ _ (.red hr)
    refine ⟨BLACK, fun _ => rfl, ?_⟩
    cases d with
    | RED => exact balanced_fixUp_black_red hl hb
    | BLACK => exact balanced_fixUp_black hl hb

theorem RightReady.removable {aKey k : κ} {v : β} {c color : FLLRBColor} {h : Nat}
    {l r : FLLRBNode κ β} (hm : RightReady cmp aKey c h (valueNode k v color l r))
    (hne : r ≠ emptyNode) : ∃ d g, Removable cmp aKey d g r := by
  cases hm with
  | last => exact absurd rfl hne
  | three _ hr => exact ⟨_, _, .three hr⟩
  | red _ hr => exact ⟨_, _, .red hr⟩
  | leaned _ hr _ => exact ⟨_, _, .leaned hr⟩
  | black _ hr => exact ⟨_, _, .red hr⟩

theorem RightReady.eq_last {aKey k : κ} {v : β} {c color : FLLRBColor} {h : Nat}
    {l : FLLRBNode κ β} (hm : RightReady cmp aKey c h (valueNode k v color l emptyNode)) :
    c = RED ∧ h = 0 ∧ color = RED ∧ l = emptyNode := by
  cases hm with
  | last => exact ⟨rfl, rfl, rfl, rfl⟩
  | three _ hr => cases hr
  | red _ hr => cases hr
  | leaned _ hr _ => cases hr
  | black _ hr => cases hr

/-! ## A removal -/

/-- The removal of the smallest entry, and then of a key before the others. -/
theorem remove_removeMin [TransCmp cmp] {aKey k : κ} {v : β} {d : FLLRBColor} {g : Nat}
    {r : FLLRBNode κ β} (hr : Removable cmp aKey d g r) (hk : cmp aKey k = .eq)
    (hs : Sorted cmp ((k, v) :: r.entries)) :
    Left d g (remove cmp aKey r.removeMin) ∧
      (remove cmp aKey r.removeMin).entries = r.entries.tail := by
  have hlow : ∀ e ∈ r.entries, cmp aKey e.1 = .lt := fun e he =>
    TransCmp.lt_of_eq_of_lt hk ((sorted_cons.mp hs).1 e he)
  have htail : r.removeMin.entries = r.entries.tail →
      ∀ e ∈ r.removeMin.entries, cmp aKey e.1 = .lt := by
    intro ht e he
    rw [ht] at he
    exact hlow e (List.mem_of_mem_tail he)
  obtain ⟨hred, hthree⟩ := removeMin_spec r
  cases hr with
  | red hb =>
    obtain ⟨⟨c, hc⟩, ht⟩ := hred _ hb
    obtain ⟨hb', he⟩ := remove_below aKey hc (htail ht)
    exact ⟨⟨c, by simp, hb'⟩, by rw [he, ht]⟩
  | three hb =>
    obtain ⟨hc, ht⟩ := hthree _ hb
    obtain ⟨hb', he⟩ := remove_below aKey hc (htail ht)
    exact ⟨⟨BLACK, fun _ => rfl, hb'⟩, by rw [he, ht]⟩
  | leaned hb =>
    cases hb with
    | @mk _ rk rv _ _ _ _ hrk => exact absurd (hlow (rk, rv) (by simp [entries])) hrk

theorem eraseEntry_middle [TransCmp cmp] {aKey k : κ} {v : β} {l r : List (κ × β)}
    (hs : Sorted cmp (l ++ (k, v) :: r)) (hk : cmp aKey k = .eq) :
    eraseEntry cmp aKey (l ++ (k, v) :: r) = l ++ r := by
  obtain ⟨-, -, hlk, hkr⟩ := sorted_middle hs
  rw [eraseEntry_append, eraseEntry_cons_of_eq hk,
    eraseEntry_eq_self_of_lt (by simp [hk]) hlk, eraseEntry_eq_self_of_gt (by simp [hk]) hkr]

/-- Past an entry, a removal is a removal from what follows. -/
theorem eraseEntry_append_of_gt [TransCmp cmp] {aKey k : κ} {v : β} {l r : List (κ × β)}
    (hs : Sorted cmp (l ++ (k, v) :: r)) (hk : cmp aKey k = .gt) :
    eraseEntry cmp aKey (l ++ (k, v) :: r) = l ++ (k, v) :: eraseEntry cmp aKey r := by
  obtain ⟨-, -, hlk, -⟩ := sorted_middle hs
  rw [eraseEntry_append, eraseEntry_cons_of_ne (by simp [hk]),
    eraseEntry_eq_self_of_lt (by simp [hk]) hlk]

theorem entries_left_rotateRight (n : FLLRBNode κ β) :
    n.rotateRight.left.entries <+: n.left.entries := by
  cases n with
  | emptyNode => exact List.nil_prefix
  | valueNode k v c l r =>
    cases l with
    | emptyNode => exact List.nil_prefix
    | valueNode lk lv lc ll lr => exact List.prefix_append _ _

theorem entries_left_beforeRight (n : FLLRBNode κ β) :
    n.beforeRight.left.entries <+: n.left.entries := by
  unfold beforeRight
  extract_lets m
  have hm : m.left.entries <+: n.left.entries := by
    unfold m
    split_ifs
    · exact entries_left_rotateRight n
    · exact List.prefix_refl _
  have hflip : m.colorFlip.left.entries = m.left.entries := by
    cases m <;> simp [colorFlip, left, entries]
  split_ifs
  · refine List.IsPrefix.trans ?_ hm
    unfold moveRedRight
    dsimp only
    rw [← hflip]
    split_ifs
    · have hrot : ∀ n : FLLRBNode κ β, n.colorFlip.left.entries = n.left.entries := by
        intro n
        cases n <;> simp [colorFlip, left, entries]
      rw [hrot]
      exact entries_left_rotateRight _
    · exact List.prefix_refl _
  · exact hm

/-- A removal that goes right does not pass its key. -/
theorem not_lt_of_beforeRight [TransCmp cmp] {aKey key k : κ} {value v : β}
    {color c : FLLRBColor} {left right l r : FLLRBNode κ β}
    (hm : beforeRight (valueNode key value color left right) = valueNode k v c l r)
    (hs : Sorted cmp (valueNode key value color left right).entries)
    (hk : cmp aKey key ≠ .lt) : cmp aKey k ≠ .lt := by
  have hme := entries_beforeRight (valueNode key value color left right)
  have hp := entries_left_beforeRight (valueNode key value color left right)
  rw [hm, left_valueNode, left_valueNode] at hp
  obtain ⟨mid, hmid⟩ := hp
  rw [hm, entries, entries, ← hmid, List.append_assoc, List.append_cancel_left_eq] at hme
  intro hlt
  cases mid with
  | nil =>
    obtain ⟨he, _⟩ := List.cons.inj hme
    cases he
    exact hk hlt
  | cons e mid =>
    obtain ⟨rfl, _⟩ := List.cons.inj hme
    obtain ⟨-, -, hbefore, -⟩ := sorted_middle hs
    have hkey : cmp k key = .lt := hbefore (k, v) (by rw [← hmid]; simp)
    exact hk (TransCmp.lt_trans hlt hkey)

/-- A removal that goes left, below a node that is ready. -/
theorem remove_left [TransCmp cmp] {aKey key : κ} {value : β} {c : FLLRBColor} {h : Nat}
    {left right : FLLRBNode κ β}
    (ih : ∀ {d : FLLRBColor} {g : Nat} {m : FLLRBNode κ β},
      m.count < left.count + 1 + right.count → Removable cmp aKey d g m →
      Sorted cmp m.entries → Left d g (remove cmp aKey m) ∧
        (remove cmp aKey m).entries = eraseEntry cmp aKey m.entries)
    (hn : Removable cmp aKey c h (valueNode key value c left right))
    (hs : Sorted cmp (valueNode key value c left right).entries) (hlt : cmp aKey key = .lt) :
    Left c h (remove cmp aKey (valueNode key value c left right)) ∧
      (remove cmp aKey (valueNode key value c left right)).entries =
        eraseEntry cmp aKey (valueNode key value c left right).entries := by
  obtain ⟨hsl, -, -, hkr⟩ := sorted_middle hs
  have hright : eraseEntry cmp aKey ((key, value) :: right.entries) =
      (key, value) :: right.entries := by
    rw [eraseEntry_cons_of_ne (by simp [hlt]), eraseEntry_eq_self_of_gt (by simp [hlt]) hkr]
  rw [remove_of_lt hlt]
  cases hn with
  | leaned ht =>
    cases ht with
    | mk _ _ hk => exact absurd hlt hk
  | three ht =>
    have hself := ht.beforeLeft_eq_self
    cases ht with
    | mk hl hr =>
      obtain ⟨⟨d, -, hb⟩, he⟩ := ih (by omega) (.red hl) hsl
      rw [hself, left_valueNode]
      refine ⟨⟨BLACK, fun _ => rfl, balanced_fixUp_black hb hr⟩, ?_⟩
      rw [entries_fixUp, copyWithLeft, entries, he, entries, eraseEntry_append, hright]
  | red hb =>
    cases hb with
    | red hl hr =>
      by_cases hne : left = emptyNode
      · subst hne
        cases hl
        have hself : beforeLeft (valueNode key value RED (emptyNode : FLLRBNode κ β) right) =
            valueNode key value RED emptyNode right := rfl
        rw [hself, left_valueNode, remove_empty]
        refine ⟨⟨RED, by simp, balanced_fixUp_red .empty hr⟩, ?_⟩
        rw [entries_fixUp, copyWithLeft, entries, entries, eraseEntry_append, hright]
        rfl
      · have hm := leftReady_beforeLeft (k := key) (v := value) hl hr hne
        have hcount : (beforeLeft (valueNode key value RED left right)).left.count <
            left.count + 1 + right.count :=
          count_left_lt (count_beforeLeft_le (valueNode key value RED left right)) (by simp)
        have hme := entries_beforeLeft (valueNode key value RED left right)
        generalize beforeLeft (valueNode key value RED left right) = m at *
        obtain ⟨tail, htail, hmt, hct⟩ := hm.entries_suffix hme
        have hsm : Sorted cmp m.left.entries := by
          rw [← hme, hmt] at hs
          exact (sorted_append.mp hs).1
        have hkeep : eraseEntry cmp aKey tail = tail := by
          apply eraseEntry_eq_self
          intro e he
          rcases List.mem_cons.mp (htail.subset he) with rfl | he
          · simp [hlt]
          · simp [TransCmp.lt_trans hlt (hkr e he)]
        constructor
        · obtain ⟨d, -, hb⟩ := hm.fixUp_copyWithLeft (P := fun _ => True) trivial
            (fun g hg => by
              obtain ⟨⟨d, -, hb⟩, -⟩ := ih hcount (.red hg) hsm
              exact ⟨d, trivial, hb⟩)
            fun g hg => by
              obtain ⟨⟨d, hd, hb⟩, -⟩ := ih hcount (.three hg) hsm
              cases hd rfl
              exact hb
          exact ⟨d, by simp, hb⟩
        · have hleft : (remove cmp aKey m.left).entries = eraseEntry cmp aKey m.left.entries := by
            cases hm with
            | red hl' _ _ => exact (ih hcount (.three hl') hsm).2
            | black hl' _ _ => exact (ih hcount (.red hl') hsm).2
          rw [entries_fixUp, hct, hleft, ← hme, hmt, eraseEntry_append, hkeep]

theorem remove_spec [TransCmp cmp] {aKey : κ} {c : FLLRBColor} {h : Nat} {n : FLLRBNode κ β}
    (hn : Removable cmp aKey c h n) (hs : Sorted cmp n.entries) :
    Left c h (remove cmp aKey n) ∧
      (remove cmp aKey n).entries = eraseEntry cmp aKey n.entries := by
  induction hc : n.count using Nat.strongRecOn generalizing c h n with
  | _ _ ih =>
    subst hc
    cases n with
    | emptyNode =>
      cases hn with
      | red hb => cases hb
      | three hb => cases hb
      | leaned hb => cases hb
    | valueNode key value color left right =>
      by_cases hlt : cmp aKey key = .lt
      · have hcolor := hn.color_eq
        subst hcolor
        exact remove_left (fun hcount hd hsm => ih _ hcount hd hsm rfl) hn hs hlt
      · have hready := rightReady_beforeRight hn hlt hs
        have hcount := count_beforeRight_le (valueNode key value color left right)
        have hme := entries_beforeRight (valueNode key value color left right)
        cases hm : beforeRight (valueNode key value color left right) with
        | emptyNode =>
          rw [hm] at hready
          cases hready
        | valueNode k v mc l r =>
          rw [hm] at hready hcount hme
          rw [← hme] at hs ⊢
          by_cases hr : r = emptyNode
          · -- the last node on the right, which has no child
            subst hr
            obtain ⟨rfl, rfl, rfl, rfl⟩ := hready.eq_last
            by_cases hk : cmp aKey k = .eq
            · rw [remove_of_eq_last hlt hm hk]
              exact ⟨⟨BLACK, by simp, .empty⟩, by simp [entries, eraseEntry, hk]⟩
            · rw [remove_of_ne hlt hm hk, remove_empty]
              refine ⟨⟨RED, by simp, balanced_fixUp_red .empty .empty⟩, ?_⟩
              simp [entries, eraseEntry, hk]
          · by_cases hk : cmp aKey k = .eq
            · obtain ⟨d, g, hrem⟩ := hready.removable hr
              obtain ⟨sk, sv, sc, sl, sr, rest, hmin, hrest⟩ := exists_min hr
              have hsr := (sorted_append.mp hs).2.1
              rw [remove_of_eq hlt hm hk hmin]
              refine ⟨hready.fixUp_copyWithRight hr fun d g hd => (remove_removeMin hd hk hsr).1, ?_⟩
              rw [entries_fixUp, entries, (remove_removeMin hrem hk hsr).2, entries,
                eraseEntry_middle hs hk, hrest, List.tail_cons]
            · have hgt : cmp aKey k = .gt := by
                have hnlt := not_lt_of_beforeRight hm (hme ▸ hs) hlt
                cases hcmp : cmp aKey k with
                | lt => exact absurd hcmp hnlt
                | eq => exact absurd hcmp hk
                | gt => rfl
              have hcr : r.count < (valueNode key value color left right).count := by
                simp only [count] at hcount ⊢
                omega
              have hsr := (sorted_middle hs).2.1
              rw [remove_of_ne hlt hm hk]
              refine ⟨hready.fixUp_copyWithRight hr fun d g hd => (ih _ hcr hd hsr rfl).1, ?_⟩
              obtain ⟨d, g, hrem⟩ := hready.removable hr
              rw [entries_fixUp, entries, (ih _ hcr hrem hsr rfl).2, entries,
                eraseEntry_append_of_gt hs hgt]

/-- A removal, with the root made black, keeps the balance and drops the entry. -/
theorem balanced_remove [TransCmp cmp] (aKey : κ) {h : Nat} {n : FLLRBNode κ β}
    (hn : Balanced BLACK h n) (hs : Sorted cmp n.entries) :
    (∃ h', Balanced BLACK h' ((remove cmp aKey n).copyWithColor BLACK)) ∧
      (remove cmp aKey n).entries = eraseEntry cmp aKey n.entries := by
  cases hn with
  | empty =>
    rw [remove_empty]
    exact ⟨⟨0, .empty⟩, rfl⟩
  | @black h k v c l r hl hr =>
    cases c with
    | RED =>
      obtain ⟨⟨d, -, hb⟩, he⟩ := remove_spec (.three (.mk hl hr)) hs
      exact ⟨hb.copyWithColor_black, he⟩
    | BLACK =>
      -- the same with the root made red: in the end the root is black again
      obtain ⟨⟨d, -, hb⟩, he⟩ := remove_spec (n := valueNode k v RED l r) (.red (.red hl hr)) hs
      have hturn : remove cmp aKey (valueNode k v BLACK l r) =
          (remove cmp aKey (valueNode k v RED l r)).otherColor :=
        remove_otherColor cmp aKey (valueNode k v RED l r)
      rw [hturn, copyWithColor_otherColor, entries_otherColor]
      exact ⟨hb.copyWithColor_black, he⟩

end xellissime_book.llrb_nodes.FLLRBNode
