-- The Firebase database as its vendored client sees it
-- (Pods/FirebaseDatabase): references, paths and the tree of nodes.
import Mathlib.Data.List.Basic
import XellissimeBook.PathTree

open path_tree

namespace xellissime_book.database

/-! ## Nodes -/

/-- The value of an `FLeafNode`: an NSString, or an NSNumber that is a
boolean or a number. -/
inductive LeafValue where
  | string (s : String)
  | boolean (b : Bool)
  | number (n : Rat)
  deriving DecidableEq

/-- `FLeafNode` is a leaf, `FChildrenNode` a branch, `FEmptyNode` the branch
with no child. Keys compare as strings here, and a new key goes last. The sorted
dictionary of the client compares them by `compareKey:toKey:`, which takes a row of
zeros and its twin with a minus sign for one key: what is said of the client
(RowOrder, AnsweredWrites and the modules over it) is said of `Plain` names, for
which the two agree. Priorities are left out, the app sets none. -/
abbrev FNode := PathTree String LeafValue

/-- `updateChild:withNewChild:`. `FLeafNode` keeps itself when the new child
is empty, as `PathTree.set` does at a leaf. -/
def updateChild (path : List String) (newChild node : FNode) : FNode :=
  PathTree.set path newChild node

/-- `getChild:`. -/
def getChild (path : List String) (node : FNode) : FNode := node.get path

/-! ## What a Swift cast reads in the value of a snapshot -/

/-- `value as? [String: AnyObject]`. The empty node is an NSNull there. A node
whose keys are all integers can be an NSArray instead, which also ends without
a field: no field of a book has such a key. -/
def asDictionary : FNode → Option (List (String × FNode))
  | .branch (c :: cs) => some (c :: cs)
  | _ => none

/-- `as? String`. -/
def asString : FNode → Option String
  | .leaf (.string s) => some s
  | _ => none

/-- `as? Bool`. The bridge also takes the numbers 1 and 0. -/
def asBool : FNode → Option Bool
  | .leaf (.boolean b) => some b
  | .leaf (.number n) => if n = 1 then some true else if n = 0 then some false else none
  | _ => none

/-! ## Paths -/

/-- `componentsSeparatedByString:@"/"`. -/
def componentsSeparatedBySlash (s : String) : List String :=
  (s.toList.splitOn '/').map String.ofList

/-- The pieces that `FPath` keeps of a string: the components that are not
empty. -/
def pieces (s : String) : List String := (componentsSeparatedBySlash s).filter (· ≠ "")

/-- `childFromString:`. -/
def childFromString (path : List String) (childPath : String) : List String :=
  path ++ pieces childPath

def kInvalidPathCharacters : List Char := "[].#$".toList

/-- `isValidPathString:`. -/
def isValidPathString (pathString : String) : Bool :=
  pathString ≠ "" && pathString.toList.all (· ∉ kInvalidPathCharacters)

structure NSException where
  name : String
  reason : String
  deriving DecidableEq

/-- `validateFrom:validPathString:`. -/
def validateValidPathString (fn pathString : String) : Except NSException Unit :=
  if isValidPathString pathString then .ok ()
  else .error
    { name := "InvalidPathValidation"
      reason := "(" ++ fn ++
        ") Must be a non-empty string and not contain '.' '#' '$' '[' or ']'" }

/-! ## Values that can be stored -/

/-- `kFirebaseMaxLeafSize`, 10 MB. -/
def kFirebaseMaxLeafSize : Nat := 1024 * 1024 * 10

/-- `lengthOfBytesUsingEncoding:`, in UTF-8. -/
def lengthOfBytes (s : String) : Nat := s.utf8ByteSize

/-- `validateFrom:isValidLeafValue:withPath:`, of a string or a number. A `Rat` is
never a NaN. -/
def validateLeafValue (fn : String) (path : List String) : LeafValue → Except NSException Unit
  | .string theString =>
    if kFirebaseMaxLeafSize < lengthOfBytes theString then
      .error
        { name := "InvalidFirebaseData"
          reason := "(" ++ fn ++ ") String exceeds max size of " ++
            kFirebaseMaxLeafSize.repr ++ " utf8 bytes: " ++ ".".intercalate (path.take 50) }
    else .ok ()
  | .boolean _ | .number _ => .ok ()

mutual

/-- The checks of `nodeFrom:priority:withValidationFrom:atDepth:path:`. The depth and
the keys are left out: those of a record pass. A dictionary of Foundation has no
order, so of two texts that are too long either can be named. -/
def validateNode (fn : String) (path : List String) : FNode → Except NSException Unit
  | .leaf value => validateLeafValue fn path value
  | .branch children => validateChildren fn path children

/-- The loop over the keys. -/
def validateChildren (fn : String) (path : List String) :
    List (String × FNode) → Except NSException Unit
  | [] => .ok ()
  | (key, child) :: rest => do
    validateNode fn (path ++ [key]) child
    validateChildren fn path rest

end

/-! ## References -/

structure DatabaseReference where
  path : List String
  deriving DecidableEq

/-- `child:` of a reference below the root. At the root, `child:` also lets
`.info` pass, and the app only calls it there with the literal `books`. -/
def DatabaseReference.child (ref : DatabaseReference) (pathString : String) :
    Except NSException DatabaseReference := do
  validateValidPathString "child:" pathString
  return { path := childFromString ref.path pathString }

/-- `Database.database().reference().child("books")`. -/
def booksReference : DatabaseReference := { path := ["books"] }

theorem child_ok {ref : DatabaseReference} {s : String} (h : isValidPathString s = true) :
    ref.child s = .ok { path := ref.path ++ pieces s } := by
  simp only [DatabaseReference.child, validateValidPathString, h, if_true]
  rfl

theorem child_error {ref : DatabaseReference} {s : String} (h : ¬ isValidPathString s = true) :
    ∃ exception, ref.child s = .error exception := by
  simp only [DatabaseReference.child, validateValidPathString, h]
  exact ⟨_, rfl⟩

theorem validateLeafValue_string_iff {fn : String} {path : List String} {s : String} :
    validateLeafValue fn path (.string s) = .ok () ↔ lengthOfBytes s ≤ kFirebaseMaxLeafSize := by
  simp only [validateLeafValue]
  split
  · simp only [reduceCtorEq, false_iff]
    omega
  · simp only [true_iff]
    omega

theorem validateChildren_iff {fn : String} {path : List String} {cs : List (String × FNode)} :
    validateChildren fn path cs = .ok () ↔
      ∀ c ∈ cs, validateNode fn (path ++ [c.1]) c.2 = .ok () := by
  induction cs with
  | nil => simp [validateChildren]
  | cons c rest ih =>
    rw [List.forall_mem_cons, ← ih, validateChildren]
    cases validateNode fn (path ++ [c.1]) c.2 with
    | error exception => simp [bind, Except.bind]
    | ok u => simp [bind, Except.bind]

theorem lengthOfBytes_append (s t : String) :
    lengthOfBytes (s ++ t) = lengthOfBytes s + lengthOfBytes t :=
  String.utf8ByteSize_append

theorem child_eq_ok_iff {ref r : DatabaseReference} {s : String} :
    ref.child s = .ok r ↔ isValidPathString s = true ∧ r.path = ref.path ++ pieces s := by
  by_cases h : isValidPathString s = true
  · rw [child_ok h]
    constructor
    · intro he
      cases he
      exact ⟨h, rfl⟩
    · rintro ⟨_, hp⟩
      rw [← hp]
  · have hx : ∃ exception, ref.child s = .error exception := child_error h
    obtain ⟨exception, hx⟩ := hx
    simp [hx, h]

/-! ## The database -/

/-- The tree of the whole database. No node has a key twice. -/
structure Database where
  root : FNode
  wellKeyed : root.WellKeyed

/-- A database with no data. -/
def Database.empty : Database := ⟨.empty, PathTree.wellKeyed_empty⟩

/-- `setValue`, with the node that the value makes: it replaces the subtree at
the path of the reference. -/
def Database.setValue (db : Database) (ref : DatabaseReference) (node : FNode)
    (h : node.WellKeyed) : Database :=
  ⟨updateChild ref.path node db.root, h.set db.wellKeyed ref.path⟩

/-- `removeValue` sets the value nil, the empty node. -/
def Database.removeValue (db : Database) (ref : DatabaseReference) : Database :=
  db.setValue ref .empty PathTree.wellKeyed_empty

/-- The children of a node, as its snapshot enumerates them. -/
def Database.children (db : Database) (ref : DatabaseReference) : List (String × FNode) :=
  (getChild ref.path db.root).children

/-- The child of a node at a key, empty when it has none. -/
def Database.childAt (db : Database) (ref : DatabaseReference) (key : String) : FNode :=
  (getChild ref.path db.root).child key

theorem Database.nodup_children (db : Database) (ref : DatabaseReference) :
    ((db.children ref).map Prod.fst).Nodup :=
  (db.wellKeyed.get ref.path).nodup_children

theorem Database.childAt_of_mem {db : Database} {ref : DatabaseReference} {k : String}
    {n : FNode} (h : (k, n) ∈ db.children ref) : db.childAt ref k = n := by
  have hk := (getKey_eq_some_iff (db.nodup_children ref)).mpr h
  unfold Database.children at hk
  simp only [Database.childAt, PathTree.child, hk, Option.getD_some]

theorem Database.childAt_eq_get (db : Database) (ref : DatabaseReference) (k : String) :
    db.childAt ref k = db.root.get (ref.path ++ [k]) := by
  rw [PathTree.get_append]
  rfl

theorem Database.getChild_setValue (db : Database) {ref r : DatabaseReference} {k : String}
    (node : FNode) (h : node.WellKeyed) (hr : r.path = ref.path ++ [k]) :
    getChild ref.path (db.setValue r node h).root =
      PathTree.setChild k node (getChild ref.path db.root) := by
  change PathTree.get ref.path (PathTree.set r.path node db.root) = _
  rw [hr, PathTree.get_set_above, PathTree.set_cons]
  rfl

/-- A write to a child keeps the other children in their order. -/
theorem Database.children_setValue (db : Database) {ref r : DatabaseReference} {k : String}
    {node : FNode} (h : node.WellKeyed) (hn : node ≠ .empty) (hr : r.path = ref.path ++ [k]) :
    (db.setValue r node h).children ref = setKey k node (db.children ref) := by
  unfold Database.children
  rw [db.getChild_setValue node h hr, PathTree.children_setChild hn]

/-- A removal of a child keeps the other children in their order. -/
theorem Database.children_removeValue (db : Database) {ref r : DatabaseReference} {k : String}
    (hr : r.path = ref.path ++ [k]) :
    (db.removeValue r).children ref = eraseKey k (db.children ref) := by
  unfold Database.children Database.removeValue
  rw [db.getChild_setValue _ _ hr, PathTree.children_setChild_empty]

end xellissime_book.database
