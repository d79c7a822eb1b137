-- The left-leaning red-black trees behind the children of a node of the
-- database (Pods/FirebaseDatabase, FLLRBValueNode.m and FLLRBEmptyNode.m): an
-- insertion and a removal keep the tree balanced and change one entry.
import Mathlib.Algebra.Ring.Nat
import Mathlib.Data.List.Basic
import Mathlib.Data.Nat.Basic
import Mathlib.Order.Basic
import Mathlib.Tactic.SplitIfs
import XellissimeBook.Database

open xellissime_book.database

namespace xellissime_book.llrb_nodes

/-! ## Nodes -/

inductive FLLRBColor where
  | RED
  | BLACK
  deriving DecidableEq

/-- `[NSNumber numberWithBool:![color boolValue]]`. -/
def FLLRBColor.not : FLLRBColor → FLLRBColor
  | .RED => .BLACK
  | .BLACK => .RED

open FLLRBColor

inductive FLLRBNode (κ : Type*) (β : Type*) where
  | emptyNode
  | valueNode (key : κ) (value : β) (color : FLLRBColor) (left right : FLLRBNode κ β)
  deriving DecidableEq

namespace FLLRBNode

variable {κ β : Type*}

def isEmpty : FLLRBNode κ β → Bool
  | emptyNode => true
  | valueNode .. => false

def isRed : FLLRBNode κ β → Bool
  | valueNode _ _ .RED _ _ => true
  | _ => false

/-- The left child. That of the empty node is nil, which answers as an empty node does. -/
def left : FLLRBNode κ β → FLLRBNode κ β
  | emptyNode => emptyNode
  | valueNode _ _ _ l _ => l

def right : FLLRBNode κ β → FLLRBNode κ β
  | emptyNode => emptyNode
  | valueNode _ _ _ _ r => r

@[simp] theorem left_valueNode (k : κ) (v : β) (c : FLLRBColor) (l r : FLLRBNode κ β) :
    (valueNode k v c l r).left = l := rfl

@[simp] theorem right_valueNode (k : κ) (v : β) (c : FLLRBColor) (l r : FLLRBNode κ β) :
    (valueNode k v c l r).right = r := rfl

@[simp] theorem isRed_red (k : κ) (v : β) (l r : FLLRBNode κ β) :
    (valueNode k v RED l r).isRed = true := rfl

@[simp] theorem isRed_black (k : κ) (v : β) (l r : FLLRBNode κ β) :
    (valueNode k v BLACK l r).isRed = false := rfl

/-! `copyWith:withValue:withColor:withLeft:withRight:` with one argument that is
not nil. An empty node stays itself. -/

def copyWithColor (c : FLLRBColor) : FLLRBNode κ β → FLLRBNode κ β
  | emptyNode => emptyNode
  | valueNode k v _ l r => valueNode k v c l r

def copyWithLeft (l : FLLRBNode κ β) : FLLRBNode κ β → FLLRBNode κ β
  | emptyNode => emptyNode
  | valueNode k v c _ r => valueNode k v c l r

def copyWithRight (r : FLLRBNode κ β) : FLLRBNode κ β → FLLRBNode κ β
  | emptyNode => emptyNode
  | valueNode k v c l _ => valueNode k v c l r

def count : FLLRBNode κ β → Nat
  | emptyNode => 0
  | valueNode _ _ _ l r => l.count + 1 + r.count

/-- The entries in the order of `inorderTraversal:`. -/
def entries : FLLRBNode κ β → List (κ × β)
  | emptyNode => []
  | valueNode k v _ l r => l.entries ++ (k, v) :: r.entries

def min : FLLRBNode κ β → FLLRBNode κ β
  | emptyNode => emptyNode
  | valueNode k v c emptyNode r => valueNode k v c emptyNode r
  | valueNode _ _ _ l _ => l.min

def key? : FLLRBNode κ β → Option κ
  | emptyNode => none
  | valueNode k _ _ _ _ => some k

def minKey (n : FLLRBNode κ β) : Option κ := n.min.key?

def maxKey : FLLRBNode κ β → Option κ
  | emptyNode => none
  | valueNode k _ _ _ emptyNode => some k
  | valueNode _ _ _ _ r => r.maxKey

/-! ## Rotations -/

/-- The node with the other color. -/
def otherColor : FLLRBNode κ β → FLLRBNode κ β
  | emptyNode => emptyNode
  | valueNode k v c l r => valueNode k v c.not l r

/-- With an empty right child the copy is sent to the empty node, which answers itself. -/
def rotateLeft : FLLRBNode κ β → FLLRBNode κ β
  | valueNode k v c l (valueNode rk rv _ rl rr) => valueNode rk rv c (valueNode k v RED l rl) rr
  | _ => emptyNode

def rotateRight : FLLRBNode κ β → FLLRBNode κ β
  | valueNode k v c (valueNode lk lv _ ll lr) r => valueNode lk lv c ll (valueNode k v RED lr r)
  | _ => emptyNode

def colorFlip : FLLRBNode κ β → FLLRBNode κ β
  | emptyNode => emptyNode
  | valueNode k v c l r => valueNode k v c.not l.otherColor r.otherColor

def fixUp (n : FLLRBNode κ β) : FLLRBNode κ β :=
  let n := if n.right.isRed && !n.left.isRed then rotateLeft n else n
  let n := if n.left.isRed && n.left.left.isRed then rotateRight n else n
  if n.left.isRed && n.right.isRed then colorFlip n else n

def moveRedLeft (n : FLLRBNode κ β) : FLLRBNode κ β :=
  let n := colorFlip n
  if n.right.left.isRed then
    colorFlip (rotateLeft (copyWithRight (rotateRight n.right) n))
  else n

def moveRedRight (n : FLLRBNode κ β) : FLLRBNode κ β :=
  let n := colorFlip n
  if n.left.left.isRed then colorFlip (rotateRight n) else n

/-! ## Insertion and removal -/

def insertKey (cmp : κ → κ → Ordering) (aKey : κ) (aValue : β) :
    FLLRBNode κ β → FLLRBNode κ β
  | emptyNode => valueNode aKey aValue RED emptyNode emptyNode
  | valueNode key value color left right =>
    match cmp aKey key with
    | .lt => fixUp (valueNode key value color (insertKey cmp aKey aValue left) right)
    | .eq => fixUp (valueNode key aValue color left right)
    | .gt => fixUp (valueNode key value color left (insertKey cmp aKey aValue right))

/-- What `removeMin` does with a node before it goes left. -/
def beforeRemoveMin (n : FLLRBNode κ β) : FLLRBNode κ β :=
  if !n.left.isRed && !n.left.left.isRed then moveRedLeft n else n

/-- What `remove:withComparator:` does with a node before it goes left. -/
def beforeLeft (n : FLLRBNode κ β) : FLLRBNode κ β :=
  if !n.left.isEmpty && !n.left.isRed && !n.left.left.isRed then moveRedLeft n else n

/-- What `remove:withComparator:` does with a node before it goes right. -/
def beforeRight (n : FLLRBNode κ β) : FLLRBNode κ β :=
  let n := if n.left.isRed then rotateRight n else n
  if !n.right.isEmpty && !n.right.isRed && !n.right.left.isRed then moveRedRight n else n

/-! Each of these has at most the nodes it was given. -/

@[simp] theorem count_otherColor (n : FLLRBNode κ β) : n.otherColor.count = n.count := by
  cases n <;> rfl

@[simp] theorem count_colorFlip (n : FLLRBNode κ β) : n.colorFlip.count = n.count := by
  cases n <;> simp [colorFlip, count]

theorem count_rotateLeft_le (n : FLLRBNode κ β) : n.rotateLeft.count ≤ n.count := by
  cases n with
  | emptyNode => simp [rotateLeft]
  | valueNode k v c l r => cases r <;> simp [rotateLeft, count]; omega

theorem count_rotateRight_le (n : FLLRBNode κ β) : n.rotateRight.count ≤ n.count := by
  cases n with
  | emptyNode => simp [rotateRight]
  | valueNode k v c l r => cases l <;> simp [rotateRight, count]; omega

theorem count_fixUp_le (n : FLLRBNode κ β) : n.fixUp.count ≤ n.count := by
  have h1 := count_rotateLeft_le n
  unfold fixUp
  extract_lets n1 n2
  have hn1 : n1.count ≤ n.count := by
    unfold n1
    split_ifs
    · exact h1
    · exact Nat.le_refl _
  have hn2 : n2.count ≤ n1.count := by
    unfold n2
    split_ifs
    · exact count_rotateRight_le n1
    · exact Nat.le_refl _
  split_ifs
  · rw [count_colorFlip]
    exact hn2.trans hn1
  · exact hn2.trans hn1

theorem count_copyWithRight_le {r : FLLRBNode κ β} {n : FLLRBNode κ β}
    (h : r.count ≤ n.right.count) : (copyWithRight r n).count ≤ n.count := by
  cases n with
  | emptyNode => exact Nat.le_refl _
  | valueNode k v c l r' => simpa [copyWithRight, count, right] using h

theorem count_copyWithLeft_le {l : FLLRBNode κ β} {n : FLLRBNode κ β}
    (h : l.count ≤ n.left.count) : (copyWithLeft l n).count ≤ n.count := by
  cases n with
  | emptyNode => exact Nat.le_refl _
  | valueNode k v c l' r =>
    simp only [copyWithLeft, count, left] at h ⊢
    omega

theorem count_moveRedLeft_le (n : FLLRBNode κ β) : n.moveRedLeft.count ≤ n.count := by
  unfold moveRedLeft
  dsimp only
  split_ifs
  · rw [count_colorFlip]
    have h := count_copyWithRight_le (count_rotateRight_le n.colorFlip.right)
    rw [count_colorFlip] at h
    exact (count_rotateLeft_le _).trans h
  · exact (count_colorFlip n).le

theorem count_moveRedRight_le (n : FLLRBNode κ β) : n.moveRedRight.count ≤ n.count := by
  unfold moveRedRight
  dsimp only
  split_ifs
  · rw [count_colorFlip]
    have h := count_rotateRight_le n.colorFlip
    rwa [count_colorFlip] at h
  · exact (count_colorFlip n).le

theorem count_beforeRemoveMin_le (n : FLLRBNode κ β) : n.beforeRemoveMin.count ≤ n.count := by
  unfold beforeRemoveMin
  split_ifs
  · exact count_moveRedLeft_le n
  · exact Nat.le_refl _

theorem count_beforeLeft_le (n : FLLRBNode κ β) : n.beforeLeft.count ≤ n.count := by
  unfold beforeLeft
  split_ifs
  · exact count_moveRedLeft_le n
  · exact Nat.le_refl _

theorem count_beforeRight_le (n : FLLRBNode κ β) : n.beforeRight.count ≤ n.count := by
  unfold beforeRight
  extract_lets m
  have hm : m.count ≤ n.count := by
    unfold m
    split_ifs
    · exact count_rotateRight_le n
    · exact Nat.le_refl _
  split_ifs
  · exact (count_moveRedRight_le m).trans hm
  · exact hm

theorem count_left_lt {n m : FLLRBNode κ β} (h : m.count ≤ n.count) (hn : n ≠ emptyNode) :
    m.left.count < n.count := by
  cases n with
  | emptyNode => exact absurd rfl hn
  | valueNode k v c l r =>
    cases m with
    | emptyNode =>
      simp only [left, count]
      omega
    | valueNode k' v' c' l' r' =>
      simp only [left, count] at h ⊢
      omega

/-- `removeMin`. The empty node has no such method, and nobody sends it to one. -/
def removeMin (n : FLLRBNode κ β) : FLLRBNode κ β :=
  if _h : n.left.isEmpty then emptyNode
  else fixUp (copyWithLeft n.beforeRemoveMin.left.removeMin n.beforeRemoveMin)
termination_by n.count
decreasing_by
  apply count_left_lt (count_beforeRemoveMin_le n)
  rintro rfl
  exact _h rfl

theorem count_removeMin_le (n : FLLRBNode κ β) : n.removeMin.count ≤ n.count := by
  induction hc : n.count using Nat.strongRecOn generalizing n with
  | _ c ih =>
    rw [removeMin]
    split_ifs with h
    · simp [count]
    · have hn : n ≠ emptyNode := by
        rintro rfl
        exact h rfl
      have hl := count_left_lt (count_beforeRemoveMin_le n) hn
      have hm := ih _ (hc ▸ hl) n.beforeRemoveMin.left rfl
      calc (fixUp (copyWithLeft n.beforeRemoveMin.left.removeMin n.beforeRemoveMin)).count
          ≤ (copyWithLeft n.beforeRemoveMin.left.removeMin n.beforeRemoveMin).count :=
            count_fixUp_le _
        _ ≤ n.beforeRemoveMin.count := count_copyWithLeft_le hm
        _ ≤ c := hc ▸ count_beforeRemoveMin_le n

/-- `remove:withComparator:`. The turns of the color before either side are
`beforeLeft` and `beforeRight`. At the key itself the smallest entry of the right
child takes the place, and the removal goes on in what is left there. -/
def remove (cmp : κ → κ → Ordering) (aKey : κ) (n : FLLRBNode κ β) : FLLRBNode κ β :=
  match n with
  | emptyNode => emptyNode
  | valueNode key value color left right =>
    let n := valueNode key value color left right
    if cmp aKey key = .lt then
      fixUp (copyWithLeft (remove cmp aKey n.beforeLeft.left) n.beforeLeft)
    else
      match _hm : n.beforeRight with
      | emptyNode => emptyNode
      | valueNode k v c l r =>
        if cmp aKey k = .eq then
          match r.min with
          | emptyNode => emptyNode
          | valueNode smallestKey smallestValue _ _ _ =>
            fixUp (valueNode smallestKey smallestValue c l (remove cmp aKey r.removeMin))
        else fixUp (valueNode k v c l (remove cmp aKey r))
termination_by n.count
decreasing_by
  · exact count_left_lt (count_beforeLeft_le n) (by simp)
  · have h := count_beforeRight_le n
    have hr := count_removeMin_le r
    rw [_hm] at h
    simp only [n, count] at h ⊢
    omega
  · have h := count_beforeRight_le n
    rw [_hm] at h
    simp only [n, count] at h ⊢
    omega

/-! ## The own check of the tree -/

def checkException (reason : String) : NSException := { name := "check", reason := reason }

/-- `check`: the black depth, where the tree is one it takes. The value of a
node goes into the text of the last error with its `description`. -/
def check (description : β → String) : FLLRBNode κ β → Except NSException Nat
  | emptyNode => .ok 0
  | valueNode k v c l r => do
    let n := valueNode k v c l r
    if n.isRed && l.isRed then
      throw (checkException "Red node has a red child")
    if r.isRed then
      throw (checkException "Right child is red")
    let blackDepth ← l.check description
    let rightDepth ← r.check description
    if blackDepth ≠ rightDepth then
      throw (checkException ("(" ++ description v ++ " -> " ++ (if n.isRed then "red" else "black")
        ++ ")blackDepth: " ++ toString blackDepth ++ " ; self.right check: "
        ++ toString rightDepth))
    else return blackDepth + if n.isRed then 0 else 1

/-- `checkMaxDepth`. -/
def checkMaxDepth (description : β → String) (n : FLLRBNode κ β) : Except NSException Bool := do
  let blackDepth ← n.check description
  return decide (2 ^ blackDepth ≤ n.count + 1)

end FLLRBNode

end xellissime_book.llrb_nodes
