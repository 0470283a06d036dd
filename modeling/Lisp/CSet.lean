import Lisp.Library.BalancedTree
import Lisp.Machine
import Mathlib.Data.Finset.Card

/-! The ordered set of the library (`cset.c`), an AVL tree with cached heights and counts. -/
namespace Lisp
open BalancedTree
variable {α : Type}

/-- `struct Node`, or `NULL`. The heights do not overflow: a tree too high for an `int` has more
nodes than there are addresses. -/
inductive SetNode (α : Type) where
  | null
  | node (left right : SetNode α) (height nright nleft : Int) (data : α)
deriving DecidableEq, Repr

/-- `CSet`, with a record of the elements that were passed to `cleanup`. -/
structure CSet (α : Type) where
  root : SetNode α
  cmp : α → α → Int
  cleanup : Bool
  cleaned : List α

/-- `enum Direction` -/
inductive Direction where
  | left
  | right
deriving DecidableEq, Repr

def CSET_ERROR : Int := -1

namespace CSet
open Direction

section source

/-- `new_set`; the memory is allocated. -/
def newSet (cmp : α → α → Int) (cleanup : Bool) : CSet α := ⟨.null, cmp, cleanup, []⟩

def newNode (data : α) : SetNode α := .node .null .null 0 0 0 data

def opposite : Direction → Direction
  | left => right
  | right => left

def getDirection (comparison : Int) : Direction := if 0 < comparison then left else right

def child : SetNode α → Direction → SetNode α
  | .null, _ => .null
  | .node l _ _ _ _ _, left => l
  | .node _ r _ _ _ _, right => r

/-- The contents of a node. -/
def data? : SetNode α → Option α
  | .null => none
  | .node _ _ _ _ _ x => some x

/-- The height of a subtree, as `update_height` and `get_balance` read it. -/
def height : SetNode α → Int
  | .null => -1
  | .node _ _ h _ _ _ => h

def numAncestors : SetNode α → Direction → Int
  | .null, _ => 0
  | .node _ _ _ _ nl _, left => nl
  | .node _ _ _ nr _ _, right => nr

def getSize : SetNode α → Int
  | .null => 0
  | node => toInt (1 + numAncestors node left + numAncestors node right)

/-- An assignment through `child_ref`. -/
def setChild : SetNode α → SetNode α → Direction → SetNode α
  | .null, _, _ => .null
  | .node _ r h nr nl x, newChild, left => .node newChild r h nr nl x
  | .node l _ h nr nl x, newChild, right => .node l newChild h nr nl x

def updateHeight : SetNode α → SetNode α
  | .null => .null
  | .node l r _ nr nl x => .node l r (1 + max (height l) (height r)) nr nl x

def updateCount (node : SetNode α) (dir : Direction) : SetNode α :=
  let count := getSize (child node dir)
  match node, dir with
  | .null, _ => .null
  | .node l r h nr _ x, left => .node l r h nr count x
  | .node l r h _ nl x, right => .node l r h count nl x

def assignChild (node newChild : SetNode α) (dir : Direction) : SetNode α :=
  updateHeight (updateCount (setChild node newChild dir) dir)

def getBalance : SetNode α → Int
  | .null => 0
  | .node l r _ _ _ _ => height l - height r

def rotate (root : SetNode α) (dir : Direction) : SetNode α :=
  match child root (opposite dir) with
  | .null => root
  | newRoot =>
    let transplant := child newRoot dir
    let root := assignChild root transplant (opposite dir)
    assignChild newRoot root dir

/-- The loop of `balance`, for at most the given number of rounds. -/
def balance : Nat → SetNode α → Option (SetNode α)
  | 0, _ => none
  | rounds + 1, node =>
    let bal := getBalance node
    if -1 ≤ bal ∧ bal ≤ 1 then some node else
    let dir := if 1 < bal then left else right
    let subBal := getBalance (child node dir)
    let node :=
      if dir = left then
        if subBal ≤ -1 then setChild node (rotate (child node dir) dir) dir else node
      else
        if 1 ≤ subBal then setChild node (rotate (child node dir) dir) dir else node
    balance rounds (rotate node (opposite dir))

/-- `insert_at`; the memory is allocated. -/
def insertAt (cmp : α → α → Int) (rounds : Nat) (data : α) : SetNode α → Option (SetNode α)
  | .null => some (newNode data)
  | .node l r h nr nl x =>
    let node := SetNode.node l r h nr nl x
    let comparison := cmp x data
    if comparison = 0 then some node else do
    let dir := getDirection comparison
    let newChild ← match dir with
      | left => insertAt cmp rounds data l
      | right => insertAt cmp rounds data r
    balance rounds (assignChild node newChild dir)

def extrema (dir : Direction) : SetNode α → SetNode α
  | .null => .null
  | .node l r h nr nl x =>
    let node := SetNode.node l r h nr nl x
    match child node dir with
    | .null => node
    | _ =>
      match dir with
      | left => extrema left l
      | right => extrema right r

/-- `remove_node`, where `removeLeft` is its call of `remove_at` on the left subtree. -/
def removeNode (rounds : Nat) (removeLeft : α → Option (SetNode α × SetNode α))
    (node : SetNode α) : Option (SetNode α) :=
  match child node left, child node right with
  | .null, r => some r
  | l, .null => some l
  | l, r => do
    let next ← data? (extrema right l)
    let (newLeft, newRoot) ← removeLeft next
    balance rounds (assignChild (assignChild newRoot r right) newLeft left)

/-- `remove_at`: the tree that is left, and the node that was removed. -/
def removeAt (cmp : α → α → Int) (rounds : Nat) :
    SetNode α → α → Option (SetNode α × SetNode α)
  | .null, _ => some (.null, .null)
  | .node l r h nr nl x, data =>
    let node := SetNode.node l r h nr nl x
    let comparison := cmp x data
    if comparison = 0 then do
      let rest ← removeNode rounds (fun next => removeAt cmp rounds l next) node
      return (rest, node)
    else do
      let dir := getDirection comparison
      let (newChild, removed) ← match dir with
        | left => removeAt cmp rounds l data
        | right => removeAt cmp rounds r data
      let rest ← balance rounds (assignChild node newChild dir)
      return (rest, removed)

def lookup (cmp : α → α → Int) (data : α) : SetNode α → SetNode α
  | .null => .null
  | .node l r h nr nl x =>
    let comparison := cmp x data
    if comparison = 0 then .node l r h nr nl x else
    match getDirection comparison with
    | left => lookup cmp data l
    | right => lookup cmp data r

/-- The loop of `set_rank`. -/
def rankFrom (cmp : α → α → Int) (data : α) : SetNode α → Int → Int
  | .null, _ => CSET_ERROR
  | .node l r _ _ nl x, rank =>
    let comparison := cmp x data
    if comparison = 0 then toInt (rank + nl)
    else if comparison < 0 then rankFrom cmp data r (toInt (rank + (1 + nl)))
    else rankFrom cmp data l rank

def disposeNode (recursive : Bool) : CSet α → SetNode α → CSet α
  | set, .null => set
  | set, .node l r _ _ _ x =>
    let set := if recursive then disposeNode recursive (disposeNode recursive set l) r else set
    if set.cleanup then { set with cleaned := set.cleaned ++ [x] } else set

def setSize (set : CSet α) : Int := getSize set.root

def setInsert (rounds : Nat) (set : CSet α) (data : α) : Option (CSet α) := do
  let root ← insertAt set.cmp rounds data set.root
  return { set with root := root }

def setLookup (set : CSet α) (data : α) : Option α := data? (lookup set.cmp data set.root)

def setRank (set : CSet α) (data : α) : Int := rankFrom set.cmp data set.root 0

def setRemove (rounds : Nat) (set : CSet α) (data : α) : Option (CSet α) := do
  let (root, removed) ← removeAt set.cmp rounds set.root data
  return disposeNode false { set with root := root } removed

def setClear (set : CSet α) : CSet α := { disposeNode true set set.root with root := .null }

end source

section runs

inductive CSetOp (α : Type) where
  | insert (x : α)
  | remove (x : α)
  | clear

/-- An operation, where the loop of `balance` has at most the given number of rounds in each
call. -/
def CSetOp.run (rounds : Nat) (set : CSet α) : CSetOp α → Option (CSet α)
  | insert x => setInsert rounds set x
  | remove x => setRemove rounds set x
  | clear => some (setClear set)

def runSet (rounds : Nat) (set : CSet α) (ops : List (CSetOp α)) : Option (CSet α) :=
  ops.foldlM (CSetOp.run rounds) set

/-- The same operations on a mathematical set, with the elements that left it. -/
inductive SetRun [DecidableEq α] : List (CSetOp α) → Finset α → Multiset α → Prop where
  | init : SetRun [] ∅ 0
  | insert {ops s gone} (h : SetRun ops s gone) (x : α) (hlen : (insert x s).card < 2 ^ 31) :
    SetRun (ops ++ [.insert x]) (insert x s) gone
  | remove {ops s gone} (h : SetRun ops s gone) (x : α) :
    SetRun (ops ++ [.remove x]) (s.erase x) (if x ∈ s then x ::ₘ gone else gone)
  | clear {ops s gone} (h : SetRun ops s gone) : SetRun (ops ++ [.clear]) ∅ (gone + s.val)

/-- The real height of a subtree. -/
def realHeight : SetNode α → Int
  | .null => -1
  | .node l r _ _ _ _ => 1 + max (realHeight l) (realHeight r)

/-- In each node, the stored height is the real one and the children differ by at most one. -/
def Avl : SetNode α → Prop
  | .null => True
  | .node l r h nr nl x => h = realHeight (.node l r h nr nl x) ∧
    realHeight l ≤ realHeight r + 1 ∧ realHeight r ≤ realHeight l + 1 ∧ Avl l ∧ Avl r

/-- The number of nodes. -/
def numNodes : SetNode α → Nat
  | .null => 0
  | .node l r _ _ _ _ => numNodes l + numNodes r + 1

end runs

section shape

/-- The tree of the elements. -/
def shape : SetNode α → SearchTree α
  | .null => .nil
  | .node l r _ _ _ x => .node (shape l) x (shape r)

/-- What is cached in each node is what its children say. -/
def Sound : SetNode α → Prop
  | .null => True
  | .node l r h nr nl _ =>
    h = 1 + max (height l) (height r) ∧ nr = getSize r ∧ nl = getSize l ∧ Sound l ∧ Sound r

variable {n l r c : SetNode α} {h nr nl : Int} {x : α}

theorem Sound.height_eq (hn : Sound n) : height n = (shape n).levels - 1 := by
  induction n with
  | null => simp [height, shape, SearchTree.levels]
  | node l r h nr nl x ihl ihr =>
    obtain ⟨hh, -, -, hl, hr⟩ := hn
    have hl' := ihl hl
    have hr' := ihr hr
    simp only [height, shape, SearchTree.levels] at *
    omega

theorem Sound.getSize_eq (hn : Sound n) : getSize n = toInt (shape n).toList.length := by
  induction n with
  | null => simp [getSize, shape, SearchTree.toList, toInt]
  | node l r h nr nl x ihl ihr =>
    obtain ⟨-, hnr, hnl, hl, hr⟩ := hn
    have hlen : ((shape (.node l r h nr nl x)).toList.length : Int) =
        1 + (shape l).toList.length + (shape r).toList.length := by
      simp only [shape, SearchTree.toList, List.length_append, List.length_cons]
      omega
    show toInt (1 + nl + nr) = _
    rw [hlen, hnr, hnl, ihl hl, ihr hr, toInt_add_toInt, Int.add_right_comm, toInt_add_toInt,
      Int.add_right_comm]

@[simp] theorem assignChild_left : assignChild (.node l r h nr nl x) c left =
    .node c r (1 + max (height c) (height r)) nr (getSize c) x := rfl

@[simp] theorem assignChild_right : assignChild (.node l r h nr nl x) c right =
    .node l c (1 + max (height l) (height c)) (getSize c) nl x := rfl

/-- An assignment to a child makes the node sound if the other child is. -/
theorem sound_node (hl : Sound l) (hr : Sound r) :
    Sound (.node l r (1 + max (height l) (height r)) (getSize r) (getSize l) x) :=
  ⟨rfl, rfl, rfl, hl, hr⟩

/-- The left child comes to the top. -/
theorem rotate_right (x : α) (h nl : Int) (hl : Sound l) (hr : Sound r) (hnl : shape l ≠ .nil) :
    Sound (rotate (.node l r h (getSize r) nl x) right) ∧
      shape (rotate (.node l r h (getSize r) nl x) right) =
        (SearchTree.node (shape l) x (shape r)).rotateRight := by
  cases l with
  | null => exact absurd rfl hnl
  | node ll lr lh lnr lnl y =>
    obtain ⟨-, -, rfl, hll, hlr⟩ := hl
    exact ⟨sound_node hll (sound_node hlr hr), rfl⟩

/-- The right child comes to the top. -/
theorem rotate_left (x : α) (h nr : Int) (hl : Sound l) (hr : Sound r) (hnr : shape r ≠ .nil) :
    Sound (rotate (.node l r h nr (getSize l) x) left) ∧
      shape (rotate (.node l r h nr (getSize l) x) left) =
        (SearchTree.node (shape l) x (shape r)).rotateLeft := by
  cases r with
  | null => exact absurd rfl hnr
  | node rl rr rh rnr rnl y =>
    obtain ⟨-, rfl, -, hrl, hrr⟩ := hr
    exact ⟨sound_node (sound_node hl hrl) hrr, rfl⟩

theorem getBalance_node (hl : Sound l) (hr : Sound r) :
    getBalance (.node l r h nr nl x) = (shape l).levels - (shape r).levels := by
  rw [getBalance, hl.height_eq, hr.height_eq]
  omega

theorem balance_done (hn : Sound n) (hb : (shape n).Balanced) (rounds : Nat) :
    balance (rounds + 1) n = some n := by
  cases n with
  | null => rfl
  | node l r h nr nl x =>
    obtain ⟨-, -, -, hl, hr⟩ := hn
    obtain ⟨h1, h2, -, -⟩ := hb
    rw [balance, getBalance_node hl hr, if_pos (by omega)]

/-- The child that leans inwards is rotated first. -/
theorem rotate_child_left (x : α) (h nr nl : Int) (r : SetNode α) (hl : Sound l)
    (hne : shape l ≠ .nil) :
    let node := SetNode.node l r h nr nl x
    ∃ l', (if getBalance (child node left) ≤ -1 then
        setChild node (rotate (child node left) left) left else node) = .node l' r h nr nl x ∧
      Sound l' ∧ shape l' ≠ .nil ∧
      shape l' = if (shape l).leansRight then (shape l).rotateLeft else shape l := by
  cases l with
  | null => exact absurd rfl hne
  | node ll lr lh lnr lnl y =>
    obtain ⟨-, -, rfl, hll, hlr⟩ := id hl
    intro node
    have hbal : getBalance (child node left) = (shape ll).levels - (shape lr).levels :=
      getBalance_node hll hlr
    by_cases hlean : (shape ll).levels < (shape lr).levels
    · have hlr0 : shape lr ≠ .nil := by
        intro h
        simp [h, SearchTree.levels] at hlean
      obtain ⟨hs, hshape⟩ := rotate_left y lh lnr hll hlr hlr0
      refine ⟨_, by rw [if_pos (by omega)]; rfl, hs, ?_, ?_⟩
      · rw [hshape]
        unfold SearchTree.rotateLeft
        split <;> simp
      · rw [hshape]
        simp [shape, SearchTree.leansRight, hlean]
    · exact ⟨_, by rw [if_neg (by omega)], hl, hne, by simp [shape, SearchTree.leansRight, hlean]⟩

theorem rotate_child_right (x : α) (h nr nl : Int) (l : SetNode α) (hr : Sound r)
    (hne : shape r ≠ .nil) :
    let node := SetNode.node l r h nr nl x
    ∃ r', (if 1 ≤ getBalance (child node right) then
        setChild node (rotate (child node right) right) right else node) = .node l r' h nr nl x ∧
      Sound r' ∧ shape r' ≠ .nil ∧
      shape r' = if (shape r).leansLeft then (shape r).rotateRight else shape r := by
  cases r with
  | null => exact absurd rfl hne
  | node rl rr rh rnr rnl y =>
    obtain ⟨-, rfl, -, hrl, hrr⟩ := id hr
    intro node
    have hbal : getBalance (child node right) = (shape rl).levels - (shape rr).levels :=
      getBalance_node hrl hrr
    by_cases hlean : (shape rr).levels < (shape rl).levels
    · have hrl0 : shape rl ≠ .nil := by
        intro h
        simp [h, SearchTree.levels] at hlean
      obtain ⟨hs, hshape⟩ := rotate_right y rh rnl hrl hrr hrl0
      refine ⟨_, by rw [if_pos (by omega)]; rfl, hs, ?_, ?_⟩
      · rw [hshape]
        unfold SearchTree.rotateRight
        split <;> simp
      · rw [hshape]
        simp [shape, SearchTree.leansLeft, hlean]
    · exact ⟨_, by rw [if_neg (by omega)], hr, hne, by simp [shape, SearchTree.leansLeft, hlean]⟩

/-- The loop ends after at most one rotation of the node. -/
theorem balance_sound (hl : Sound l) (hr : Sound r) (hlb : (shape l).Balanced)
    (hrb : (shape r).Balanced) (h1 : (shape l).levels ≤ (shape r).levels + 2)
    (h2 : (shape r).levels ≤ (shape l).levels + 2) {rounds : Nat} (hrounds : 2 ≤ rounds) :
    ∃ n, balance rounds
        (.node l r (1 + max (height l) (height r)) (getSize r) (getSize l) x) = some n ∧
      Sound n ∧ shape n = SearchTree.balance (shape l) x (shape r) := by
  obtain ⟨k, rfl⟩ : ∃ k, rounds = k + 1 + 1 := ⟨rounds - 2, by omega⟩
  have hbal := (SearchTree.rebalanced_balance (x := x) hlb hrb h1 h2).balanced
  by_cases hleft : (shape r).levels + 1 < (shape l).levels
  · have hne : shape l ≠ .nil := by
      intro h
      simp [h, SearchTree.levels] at hleft
    obtain ⟨l', hl', hsl', hne', hshape'⟩ := rotate_child_left x
      (1 + max (height l) (height r)) (getSize r) (getSize l) r hl hne
    obtain ⟨hs, hshape⟩ := rotate_right x (1 + max (height l) (height r)) (getSize l)
      hsl' hr hne'
    rw [hshape'] at hshape
    rw [SearchTree.balance, if_pos hleft] at hbal ⊢
    refine ⟨_, ?_, hs, hshape⟩
    rw [balance, getBalance_node hl hr, if_neg (by omega), if_pos (by omega)]
    simp only [if_true, opposite]
    rw [hl']
    exact balance_done hs (hshape ▸ hbal) k
  · by_cases hright : (shape l).levels + 1 < (shape r).levels
    · have hne : shape r ≠ .nil := by
        intro h
        simp [h, SearchTree.levels] at hright
      obtain ⟨r', hr', hsr', hne', hshape'⟩ := rotate_child_right x
        (1 + max (height l) (height r)) (getSize r) (getSize l) l hr hne
      obtain ⟨hs, hshape⟩ := rotate_left x (1 + max (height l) (height r)) (getSize r)
        hl hsr' hne'
      rw [hshape'] at hshape
      rw [SearchTree.balance, if_neg hleft, if_pos hright] at hbal ⊢
      refine ⟨_, ?_, hs, hshape⟩
      rw [balance, getBalance_node hl hr, if_neg (by omega), if_neg (by omega)]
      simp only [reduceCtorEq, if_false, opposite]
      rw [hr']
      exact balance_done hs (hshape ▸ hbal) k
    · rw [SearchTree.balance, if_neg hleft, if_neg hright] at hbal ⊢
      exact ⟨_, balance_done (sound_node hl hr) hbal _, sound_node hl hr, rfl⟩

end shape

section trees
variable {cmp : α → α → Int} {n l r : SetNode α} {x : α} {rounds : Nat}

theorem insertAt_sound (cmp : α → α → Int) (x : α) (hrounds : 2 ≤ rounds) (hn : Sound n)
    (hb : (shape n).Balanced) :
    ∃ n', insertAt cmp rounds x n = some n' ∧ Sound n' ∧
      shape n' = SearchTree.insert cmp x (shape n) := by
  induction n with
  | null => exact ⟨_, rfl, by simp [newNode, Sound, height, getSize], rfl⟩
  | node l r h nr nl y ihl ihr =>
    obtain ⟨rfl, rfl, rfl, hl, hr⟩ := id hn
    obtain ⟨h1, h2, hlb, hrb⟩ := hb
    unfold insertAt
    by_cases h0 : cmp y x = 0
    · exact ⟨_, if_pos h0, hn, by simp [shape, SearchTree.insert, h0]⟩
    · simp only [if_neg h0, getDirection]
      by_cases hlt : 0 < cmp y x
      · obtain ⟨l', hl', hsl', hshape⟩ := ihl hl hlb
        obtain ⟨hb', h3, h4⟩ := SearchTree.balanced_insert cmp x hlb
        rw [← hshape] at hb' h3 h4
        obtain ⟨n', hn', hsn', hshape'⟩ :=
          balance_sound (x := y) hsl' hr hb' hrb (by omega) (by omega) hrounds
        refine ⟨n', ?_, hsn', ?_⟩
        · simp [hlt, hl', hn']
        · simp [shape, SearchTree.insert, h0, hlt, hshape', hshape]
      · obtain ⟨r', hr', hsr', hshape⟩ := ihr hr hrb
        obtain ⟨hb', h3, h4⟩ := SearchTree.balanced_insert cmp x hrb
        rw [← hshape] at hb' h3 h4
        obtain ⟨n', hn', hsn', hshape'⟩ :=
          balance_sound (x := y) hl hsr' hlb hb' (by omega) (by omega) hrounds
        refine ⟨n', ?_, hsn', ?_⟩
        · simp [hlt, hr', hn']
        · simp [shape, SearchTree.insert, h0, hlt, hshape', hshape]

theorem extrema_right (n : SetNode α) : data? (extrema right n) = (shape n).last? := by
  induction n with
  | null => rfl
  | node l r h nr nl y _ ihr =>
    cases r with
    | null => rfl
    | node rl rr rh rnr rnl z => simpa [extrema, child, shape, SearchTree.last?] using ihr

/-- What `remove_at` returns: the tree without the element, and the node that held it. -/
structure Removed (cmp : α → α → Int) (x : α) (n n' removed : SetNode α) : Prop where
  sound : Sound n'
  shape : shape n' = SearchTree.erase cmp x (shape n)
  data : data? removed = some x ∧ x ∈ (CSet.shape n).toList ∨
    data? removed = none ∧ x ∉ (CSet.shape n).toList

/-- The greatest node of the left subtree replaces the root. -/
theorem removeNode_sound (h0 : cmp x x = 0) (hrounds : 2 ≤ rounds) (hl : Sound l) (hr : Sound r)
    (hlb : (shape l).Balanced) (hrb : (shape r).Balanced)
    (h1 : (shape l).levels ≤ (shape r).levels + 1) (h2 : (shape r).levels ≤ (shape l).levels + 1)
    (hls : SearchTree.Sorted cmp (shape l)) {removeLeft : α → Option (SetNode α × SetNode α)}
    (hrem : ∀ z, ∃ l' removed, removeLeft z = some (l', removed) ∧ Removed cmp z l l' removed)
    (h nr nl : Int) :
    ∃ n', removeNode rounds removeLeft (.node l r h nr nl x) = some n' ∧ Sound n' ∧
      shape n' = SearchTree.erase cmp x (.node (shape l) x (shape r)) := by
  cases l with
  | null => exact ⟨r, rfl, hr, by simp [shape, SearchTree.erase, h0, SearchTree.last?]⟩
  | node ll lr lh lnr lnl w =>
    obtain ⟨next, hnext⟩ : ∃ next, (shape (.node ll lr lh lnr lnl w)).last? = some next := by
      rw [← Option.ne_none_iff_exists', Ne, SearchTree.last?_eq_none]
      simp [shape]
    cases r with
    | null =>
      refine ⟨.node ll lr lh lnr lnl w, rfl, hl, ?_⟩
      simp only [shape] at hnext
      simp [shape, SearchTree.erase, h0, hnext]
    | node rl rr rh rnr rnl z =>
      obtain ⟨l', root, hrem, hrl⟩ := hrem next
      have hin := (SearchTree.mem_last? (y := next) hls hnext).2 (Or.inl rfl)
      obtain ⟨hb', h3, h4⟩ := SearchTree.balanced_erase cmp next hlb
      rw [← hrl.shape] at hb' h3 h4
      obtain ⟨n', hn', hsn', hshape'⟩ :=
        balance_sound (x := next) hrl.sound hr hb' hrb (by omega) (by omega) hrounds
      rcases hrl.data with ⟨hdata, -⟩ | ⟨-, hnot⟩
      · cases root with
        | null => simp [data?] at hdata
        | node rl' rr' h' nr' nl' v =>
          obtain rfl : v = next := Option.some.inj hdata
          refine ⟨n', ?_, hsn', ?_⟩
          · simp only [removeNode, child, extrema_right, hnext, hrem, assignChild_right,
              assignChild_left, hn', Option.bind_eq_bind, Option.bind_some]
          · rw [hshape', hrl.shape]
            simp only [shape] at hnext
            simp [shape, SearchTree.erase, h0, hnext]
      · exact absurd hin hnot

theorem removeAt_sound (hcmp : StrictOrder cmp) (hrounds : 2 ≤ rounds) (hn : Sound n)
    (hb : (shape n).Balanced) (hs : SearchTree.Sorted cmp (shape n)) :
    ∃ n' removed, removeAt cmp rounds n x = some (n', removed) ∧ Removed cmp x n n' removed := by
  induction n generalizing x with
  | null => exact ⟨_, _, rfl, trivial, rfl, Or.inr ⟨rfl, by simp [shape, SearchTree.toList]⟩⟩
  | node l r h nr nl y ihl ihr =>
    obtain ⟨rfl, rfl, rfl, hl, hr⟩ := id hn
    obtain ⟨h1, h2, hlb, hrb⟩ := hb
    obtain ⟨hls, hrs, hly, hyr⟩ := (SearchTree.sorted_node hcmp).1 hs
    unfold removeAt
    by_cases h0 : cmp y x = 0
    · obtain rfl := (hcmp.eq_zero y x).1 h0
      obtain ⟨n', hn', hsn', hshape⟩ := removeNode_sound h0 hrounds hl hr hlb hrb h1 h2 hls
        (fun z => ihl (x := z) hl hlb hls) (1 + max (height l) (height r)) (getSize r) (getSize l)
      refine ⟨n', _, by simp only [h0, if_true, hn']; rfl, hsn', hshape, Or.inl ⟨rfl, ?_⟩⟩
      simp [shape, SearchTree.toList]
    · have hyx : y ≠ x := fun h => h0 ((hcmp.eq_zero y x).2 h)
      simp only [if_neg h0, getDirection]
      by_cases hlt : 0 < cmp y x
      · obtain ⟨l', removed, hrem, hrl⟩ := ihl (x := x) hl hlb hls
        obtain ⟨hb', h3, h4⟩ := SearchTree.balanced_erase cmp x hlb
        rw [← hrl.shape] at hb' h3 h4
        obtain ⟨n', hn', hsn', hshape'⟩ :=
          balance_sound (x := y) hrl.sound hr hb' hrb (by omega) (by omega) hrounds
        have hright : x ∉ (shape r).toList := by
          intro hx
          exact hcmp.irrefl y (hcmp.trans _ _ _ (hyr x hx) ((hcmp.swap x y).2 hlt))
        refine ⟨n', removed, by simp [hlt, hrem, hn'], hsn', ?_, ?_⟩
        · simp [shape, SearchTree.erase, h0, hlt, hshape', hrl.shape]
        · simpa [shape, SearchTree.toList, hright, Ne.symm hyx] using hrl.data
      · obtain ⟨r', removed, hrem, hrr⟩ := ihr (x := x) hr hrb hrs
        obtain ⟨hb', h3, h4⟩ := SearchTree.balanced_erase cmp x hrb
        rw [← hrr.shape] at hb' h3 h4
        obtain ⟨n', hn', hsn', hshape'⟩ :=
          balance_sound (x := y) hl hrr.sound hlb hb' (by omega) (by omega) hrounds
        have hleft : x ∉ (shape l).toList := by
          intro hx
          exact hlt ((hcmp.swap x y).1 (hly x hx))
        refine ⟨n', removed, by simp [hlt, hrem, hn'], hsn', ?_, ?_⟩
        · simp [shape, SearchTree.erase, h0, hlt, hshape', hrr.shape]
        · simpa [shape, SearchTree.toList, hleft, Ne.symm hyx] using hrr.data

theorem data?_lookup (hcmp : StrictOrder cmp) (hs : SearchTree.Sorted cmp (shape n)) (x : α) :
    data? (lookup cmp x n) = some x ∧ x ∈ (shape n).toList ∨
      data? (lookup cmp x n) = none ∧ x ∉ (shape n).toList := by
  induction n with
  | null => exact Or.inr ⟨rfl, by simp [shape, SearchTree.toList]⟩
  | node l r h nr nl y ihl ihr =>
    obtain ⟨hls, hrs, hly, hyr⟩ := (SearchTree.sorted_node hcmp).1 hs
    unfold lookup
    by_cases h0 : cmp y x = 0
    · obtain rfl := (hcmp.eq_zero y x).1 h0
      simp [h0, data?, shape, SearchTree.toList]
    · have hyx : x ≠ y := fun h => h0 ((hcmp.eq_zero y x).2 h.symm)
      by_cases hlt : 0 < cmp y x
      · have hright : x ∉ (shape r).toList := by
          intro hx
          exact hcmp.irrefl y (hcmp.trans _ _ _ (hyr x hx) ((hcmp.swap x y).2 hlt))
        simpa [h0, getDirection, hlt, shape, SearchTree.toList, hyx, hright] using ihl hls
      · have hleft : x ∉ (shape l).toList := fun hx => hlt ((hcmp.swap x y).1 (hly x hx))
        simpa [h0, getDirection, hlt, shape, SearchTree.toList, hyx, hleft] using ihr hrs

/-- The loop adds up the elements to the left of the path. -/
theorem rankFrom_eq (hcmp : StrictOrder cmp) (hn : Sound n) (hs : SearchTree.Sorted cmp (shape n))
    (x : α) (k : Int) :
    x ∈ (shape n).toList ∧ rankFrom cmp x n (toInt k) =
        toInt (k + (shape n).toList.countP fun y => decide (cmp y x < 0)) ∨
      x ∉ (shape n).toList ∧ rankFrom cmp x n (toInt k) = CSET_ERROR := by
  induction n generalizing k with
  | null => exact Or.inr ⟨by simp [shape, SearchTree.toList], rfl⟩
  | node l r h nr nl y ihl ihr =>
    obtain ⟨rfl, rfl, rfl, hl, hr⟩ := hn
    obtain ⟨hls, hrs, hly, hyr⟩ := (SearchTree.sorted_node hcmp).1 hs
    have hall : ∀ z, (∀ a ∈ (shape l).toList, cmp a z < 0) →
        (shape l).toList.countP (fun a => decide (cmp a z < 0)) = (shape l).toList.length := by
      intro z h
      rw [List.countP_eq_length]
      simpa using h
    have hnone : ∀ z, (∀ a ∈ (shape r).toList, ¬cmp a z < 0) →
        (shape r).toList.countP (fun a => decide (cmp a z < 0)) = 0 := by
      intro z h
      rw [List.countP_eq_zero]
      simpa using h
    have hback : ∀ a ∈ (shape r).toList, ¬cmp a y < 0 := by
      intro a ha hlt
      exact hcmp.irrefl y (hcmp.trans _ _ _ (hyr a ha) hlt)
    unfold rankFrom
    simp only [shape, SearchTree.toList, List.countP_append, List.countP_cons, List.mem_append,
      List.mem_cons]
    by_cases h0 : cmp y x = 0
    · obtain rfl := (hcmp.eq_zero y x).1 h0
      refine Or.inl ⟨Or.inr (Or.inl rfl), ?_⟩
      rw [if_pos h0, toInt_toInt_add, hl.getSize_eq, toInt_add_toInt, hall y hly, hnone y hback]
      simp [hcmp.irrefl y]
    · have hyx : x ≠ y := fun h => h0 ((hcmp.eq_zero y x).2 h.symm)
      rw [if_neg h0]
      by_cases hlt : cmp y x < 0
      · have hleft : x ∉ (shape l).toList := by
          intro hx
          exact hcmp.irrefl x (hcmp.trans _ _ _ (hly x hx) hlt)
        have hstep : toInt (toInt k + (1 + getSize l)) =
            toInt (k + (1 + (shape l).toList.length)) := by
          rw [toInt_toInt_add, hl.getSize_eq, ← add_assoc, toInt_add_toInt, add_assoc]
        rw [if_pos hlt, hstep, hall x fun a ha => hcmp.trans _ _ _ (hly a ha) hlt]
        rcases ihr hr hrs (k + (1 + (shape l).toList.length)) with ⟨hx, h⟩ | ⟨hx, h⟩
        · refine Or.inl ⟨Or.inr (Or.inr hx), h.trans (congrArg toInt ?_)⟩
          simp [hlt]
          omega
        · exact Or.inr ⟨by tauto, h⟩
      · have hxy : cmp x y < 0 := (hcmp.swap x y).2 (by omega)
        have hright : ∀ a ∈ (shape r).toList, ¬cmp a x < 0 :=
          fun a ha h => hback a ha (hcmp.trans _ _ _ h hxy)
        have hxr : x ∉ (shape r).toList := fun hx => hback x hx hxy
        rw [if_neg hlt, hnone x hright]
        rcases ihl hl hls k with ⟨hx, h⟩ | ⟨hx, h⟩
        · refine Or.inl ⟨Or.inl hx, h.trans (congrArg toInt ?_)⟩
          simp [hlt]
        · exact Or.inr ⟨by tauto, h⟩

/-- What is passed to the cleanup function is the element of the node, or those of the tree. -/
theorem disposeNode_false (set : CSet α) (n : SetNode α) : disposeNode false set n =
    { set with cleaned := set.cleaned ++ if set.cleanup then (data? n).toList else [] } := by
  obtain ⟨root, cmp, cleanup, cleaned⟩ := set
  cases n with
  | null => simp [disposeNode, data?]
  | node l r h nr nl x => cases cleanup <;> simp [disposeNode, data?]

theorem disposeNode_true (set : CSet α) (n : SetNode α) : ∃ out,
    disposeNode true set n = { set with cleaned := set.cleaned ++ out } ∧
      out.Perm (if set.cleanup then (shape n).toList else []) := by
  induction n generalizing set with
  | null => exact ⟨[], by simp [disposeNode], by simp [shape, SearchTree.toList]⟩
  | node l r h nr nl x ihl ihr =>
    obtain ⟨outl, hl, hpl⟩ := ihl set
    obtain ⟨outr, hr, hpr⟩ := ihr { set with cleaned := set.cleaned ++ outl }
    simp only [disposeNode, if_true, hl, hr]
    cases hc : set.cleanup with
    | false =>
      refine ⟨outl ++ outr, by simp, ?_⟩
      simp only [hc, Bool.false_eq_true, if_false] at hpl hpr ⊢
      exact hpl.append hpr
    | true =>
      refine ⟨outl ++ outr ++ [x], by simp, ?_⟩
      simp only [hc, if_true] at hpl hpr ⊢
      rw [shape, SearchTree.toList, List.append_assoc]
      exact hpl.append ((hpr.append_right [x]).trans (List.perm_append_singleton x _))

end trees

section refinement
variable {cmp : α → α → Int} {set : CSet α} {n : SetNode α} {rounds : Nat}

/-- What holds of a set between two operations. -/
structure Ordered (cmp : α → α → Int) (set : CSet α) : Prop where
  cmp_eq : set.cmp = cmp
  sound : Sound set.root
  balanced : (shape set.root).Balanced
  sorted : SearchTree.Sorted cmp (shape set.root)

theorem Ordered.init (cmp : α → α → Int) (cleanup : Bool) : Ordered cmp (newSet cmp cleanup) :=
  ⟨rfl, trivial, trivial, List.Pairwise.nil⟩

theorem Ordered.insert (h : Ordered cmp set) (hcmp : StrictOrder cmp) (hrounds : 2 ≤ rounds)
    (x : α) : ∃ root, setInsert rounds set x = some { set with root := root } ∧
      Ordered cmp { set with root := root } ∧
      shape root = SearchTree.insert cmp x (shape set.root) := by
  obtain ⟨root, hroot, hsound, hshape⟩ := insertAt_sound cmp x hrounds h.sound h.balanced
  refine ⟨root, by simp [setInsert, h.cmp_eq, hroot], ?_, hshape⟩
  constructor
  case cmp_eq => exact h.cmp_eq
  case sound => exact hsound
  case balanced => exact hshape ▸ (SearchTree.balanced_insert _ _ h.balanced).1
  case sorted => exact hshape ▸ SearchTree.sorted_insert hcmp h.sorted

theorem Ordered.remove (h : Ordered cmp set) (hcmp : StrictOrder cmp) (hrounds : 2 ≤ rounds)
    (x : α) : ∃ root out, setRemove rounds set x = some { set with
        root := root, cleaned := set.cleaned ++ if set.cleanup then out else [] } ∧
      Ordered cmp { set with
        root := root, cleaned := set.cleaned ++ if set.cleanup then out else [] } ∧
      shape root = SearchTree.erase cmp x (shape set.root) ∧
      (out = [x] ∧ x ∈ (shape set.root).toList ∨ out = [] ∧ x ∉ (shape set.root).toList) := by
  obtain ⟨root, removed, hroot, hrem⟩ := removeAt_sound (x := x) hcmp hrounds h.sound h.balanced
    h.sorted
  refine ⟨root, (data? removed).toList, ?_, ?_, hrem.shape, ?_⟩
  · simp [setRemove, h.cmp_eq, hroot, disposeNode_false]
  · constructor
    case cmp_eq => exact h.cmp_eq
    case sound => exact hrem.sound
    case balanced => exact hrem.shape ▸ (SearchTree.balanced_erase _ _ h.balanced).1
    case sorted => exact hrem.shape ▸ SearchTree.sorted_erase hcmp h.sorted
  · rcases hrem.data with ⟨hd, hx⟩ | ⟨hd, hx⟩
    · exact Or.inl ⟨by rw [hd]; rfl, hx⟩
    · exact Or.inr ⟨by rw [hd]; rfl, hx⟩

theorem Ordered.clear (h : Ordered cmp set) : ∃ out,
    setClear set = { set with root := .null, cleaned := set.cleaned ++ out } ∧
      Ordered cmp (setClear set) ∧
      out.Perm (if set.cleanup then (shape set.root).toList else []) := by
  obtain ⟨out, hout, hperm⟩ := disposeNode_true set set.root
  refine ⟨out, by rw [setClear, hout], ?_, hperm⟩
  rw [setClear, hout]
  exact ⟨h.cmp_eq, trivial, trivial, List.Pairwise.nil⟩

theorem runSet_append {set set' : CSet α} {ops : List (CSetOp α)}
    (h : runSet rounds set ops = some set') (op : CSetOp α) :
    runSet rounds set (ops ++ [op]) = op.run rounds set' := by
  unfold runSet at h ⊢
  rw [List.foldlM_append, h]
  simp

/-- Every operation leaves the tree ordered, and the loop of `balance` ends. -/
theorem Ordered.run (h : Ordered cmp set) (hcmp : StrictOrder cmp) (hrounds : 2 ≤ rounds)
    (op : CSetOp α) : ∃ set', op.run rounds set = some set' ∧ Ordered cmp set' := by
  cases op with
  | insert x =>
    obtain ⟨root, hrun, hord, -⟩ := h.insert hcmp hrounds x
    exact ⟨_, hrun, hord⟩
  | remove x =>
    obtain ⟨root, out, hrun, hord, -⟩ := h.remove hcmp hrounds x
    exact ⟨_, hrun, hord⟩
  | clear =>
    obtain ⟨out, -, hord, -⟩ := h.clear
    exact ⟨_, rfl, hord⟩

theorem ordered_runSet (hcmp : StrictOrder cmp) (hrounds : 2 ≤ rounds) (cleanup : Bool)
    (ops : List (CSetOp α)) :
    ∃ set, runSet rounds (newSet cmp cleanup) ops = some set ∧ Ordered cmp set := by
  induction ops using List.reverseRecOn with
  | nil => exact ⟨_, rfl, .init cmp cleanup⟩
  | append_singleton ops op ih =>
    obtain ⟨set, hset, hord⟩ := ih
    obtain ⟨set', hset', hord'⟩ := hord.run hcmp hrounds op
    exact ⟨set', (runSet_append hset op).trans hset', hord'⟩

theorem realHeight_eq (n : SetNode α) : realHeight n = (shape n).levels - 1 := by
  induction n with
  | null => simp [realHeight, shape, SearchTree.levels]
  | node l r h nr nl x ihl ihr =>
    simp only [realHeight, shape, SearchTree.levels, ihl, ihr]
    omega

theorem avl (hn : Sound n) (hb : (shape n).Balanced) : Avl n := by
  induction n with
  | null => trivial
  | node l r h nr nl x ihl ihr =>
    have hh := hn.height_eq
    obtain ⟨-, -, -, hl, hr⟩ := hn
    obtain ⟨h1, h2, hlb, hrb⟩ := hb
    have hl' := realHeight_eq l
    have hr' := realHeight_eq r
    refine ⟨?_, by omega, by omega, ihl hl hlb, ihr hr hrb⟩
    rw [realHeight_eq]
    exact hh

theorem numNodes_eq (n : SetNode α) : numNodes n = (shape n).toList.length := by
  induction n with
  | null => rfl
  | node l r h nr nl x ihl ihr =>
    simp only [numNodes, shape, SearchTree.toList, List.length_append, List.length_cons, ihl, ihr]
    omega

/-- The loop of `balance` ends in every call, heights are what is stored, siblings differ by one
at most, and a tree of height `h` has at least `fib (h + 3) - 1` elements. -/
theorem runSet_avl (hcmp : StrictOrder cmp) (hrounds : 2 ≤ rounds) (cleanup : Bool)
    (ops : List (CSetOp α)) : ∃ set, runSet rounds (newSet cmp cleanup) ops = some set ∧
      Avl set.root ∧
      ∀ h : Nat, realHeight set.root = h → Nat.fib (h + 3) - 1 ≤ numNodes set.root := by
  obtain ⟨set, hset, hord⟩ := ordered_runSet hcmp hrounds cleanup ops
  refine ⟨set, hset, avl hord.sound hord.balanced, fun h hh => ?_⟩
  have hfib := SearchTree.fib_le hord.balanced
  rw [realHeight_eq] at hh
  have hlevels : (shape set.root).levels = h + 1 := by omega
  rw [hlevels] at hfib
  rw [numNodes_eq]
  exact Nat.sub_le_of_le_add hfib

theorem runSet_avl_insert : ∃ set, runSet 2 (newSet (fun a b : Int => a - b) true)
      [.insert 1, .insert 2, .insert 3, .remove 1] = some set ∧ Avl set.root ∧
    ∀ h : Nat, realHeight set.root = h → Nat.fib (h + 3) - 1 ≤ numNodes set.root :=
  runSet_avl strictOrder_sub (by decide) true _

section stores
variable {s : Finset α} {ops : List (CSetOp α)} {gone : Multiset α} {x : α}

theorem Ordered.nodup (h : Ordered cmp set) (hcmp : StrictOrder cmp) :
    (shape set.root).toList.Nodup := by
  apply List.Pairwise.imp _ h.sorted
  rintro a b hlt rfl
  exact hcmp.irrefl a hlt

/-- The elements of the tree are those of `s`. -/
def Stores (set : CSet α) (s : Finset α) : Prop := s.val = (shape set.root).toList

theorem Stores.mem (h : Stores set s) : x ∈ (shape set.root).toList ↔ x ∈ s := by
  rw [← Finset.mem_val, h, Multiset.mem_coe]

theorem stores_iff (h : Ordered cmp set) (hcmp : StrictOrder cmp) :
    Stores set s ↔ ∀ x, x ∈ (shape set.root).toList ↔ x ∈ s := by
  constructor
  · exact fun hs x => hs.mem
  · intro hs
    rw [Stores, Multiset.Nodup.ext s.nodup (Multiset.coe_nodup.2 (h.nodup hcmp))]
    exact fun x => (hs x).symm

variable [DecidableEq α]

theorem SetRun.card_lt (h : SetRun ops s gone) : s.card < 2 ^ 31 := by
  induction h with
  | init => simp
  | insert _ x hlen => exact hlen
  | remove _ x ih => exact lt_of_le_of_lt (Finset.card_erase_le) ih
  | clear => simp

/-- Each operation on the tree is the one on the mathematical set. -/
theorem SetRun.stores (h : SetRun ops s gone) (hcmp : StrictOrder cmp) (hrounds : 2 ≤ rounds)
    (cleanup : Bool) : ∃ set, runSet rounds (newSet cmp cleanup) ops = some set ∧
      Ordered cmp set ∧ Stores set s ∧ set.cleanup = cleanup ∧
      (set.cleaned : Multiset α) = if cleanup then gone else 0 := by
  induction h with
  | init => exact ⟨_, rfl, .init cmp cleanup, rfl, rfl, by simp [newSet]⟩
  | insert _ x hlen ih =>
    obtain ⟨set, hset, hord, hs, hcl, hgone⟩ := ih
    obtain ⟨root, hrun, hord', hshape⟩ := hord.insert hcmp hrounds x
    refine ⟨_, (runSet_append hset (.insert x)).trans hrun, hord', ?_, hcl, hgone⟩
    rw [stores_iff hord' hcmp, hshape]
    intro y
    rw [SearchTree.mem_insert hcmp, hs.mem, Finset.mem_insert]
  | @remove ops s gone _ x ih =>
    obtain ⟨set, hset, hord, hs, hcl, hgone⟩ := ih
    obtain ⟨root, out, hrun, hord', hshape, hout⟩ := hord.remove hcmp hrounds x
    refine ⟨_, (runSet_append hset (.remove x)).trans hrun, hord', ?_, hcl, ?_⟩
    · rw [stores_iff hord' hcmp, hshape]
      intro y
      rw [SearchTree.mem_erase hcmp hord.sorted, hs.mem, Finset.mem_erase, and_comm]
    · rw [hs.mem] at hout
      rw [hcl, ← Multiset.coe_add, hgone]
      cases cleanup with
      | false => rfl
      | true =>
        rcases hout with ⟨rfl, hx⟩ | ⟨rfl, hx⟩
        · simp [hx, add_comm gone]
        · simp [hx]
  | clear _ ih =>
    obtain ⟨set, hset, hord, hs, hcl, hgone⟩ := ih
    obtain ⟨out, hclear, hord', hperm⟩ := hord.clear
    refine ⟨_, (runSet_append hset .clear).trans rfl, hord', ?_, ?_, ?_⟩
    · rw [hclear]
      rfl
    · rw [hclear]
      exact hcl
    · rw [hclear, ← Multiset.coe_add, hgone, Multiset.coe_eq_coe.2 hperm, hcl, hs]
      cases cleanup with
      | false => rfl
      | true => rfl

/-- The set is the mathematical one: its elements are found, its size is the cardinality, the
rank of an element is the number of smaller ones, and what was removed or cleared was cleaned
up, each once. -/
theorem runSet_refines (h : SetRun ops s gone) (hcmp : StrictOrder cmp) (hrounds : 2 ≤ rounds)
    (cleanup : Bool) : ∃ set, runSet rounds (newSet cmp cleanup) ops = some set ∧
      (∀ x, setLookup set x = if x ∈ s then some x else none) ∧ setSize set = s.card ∧
      (∀ x, setRank set x =
        if x ∈ s then ((s.filter fun y => cmp y x < 0).card : Int) else CSET_ERROR) ∧
      (set.cleaned : Multiset α) = if cleanup then gone else 0 := by
  obtain ⟨set, hset, hord, hs, -, hgone⟩ := h.stores hcmp hrounds cleanup
  have hlen : (shape set.root).toList.length = s.card := by
    rw [← Multiset.coe_card, ← hs, Finset.card_val]
  refine ⟨set, hset, ?_, ?_, ?_, hgone⟩
  · intro x
    rw [setLookup, hord.cmp_eq]
    rcases data?_lookup hcmp hord.sorted x with ⟨hl, hx⟩ | ⟨hl, hx⟩
    · rw [hl, if_pos (hs.mem.1 hx)]
    · rw [hl, if_neg (mt hs.mem.2 hx)]
  · rw [setSize, hord.sound.getSize_eq, hlen, toInt_natCast h.card_lt]
  · intro x
    have hcount : (shape set.root).toList.countP (fun y => decide (cmp y x < 0)) =
        (s.filter fun y => cmp y x < 0).card := by
      rw [Finset.card_def, Finset.filter_val, hs, ← Multiset.countP_eq_card_filter,
        Multiset.coe_countP]
    have hlt : (s.filter fun y => cmp y x < 0).card < 2 ^ 31 :=
      lt_of_le_of_lt (Finset.card_filter_le _ _) h.card_lt
    have hzero : toInt 0 = 0 := toInt_eq_self (by decide) (by decide)
    have hrank := rankFrom_eq hcmp hord.sound hord.sorted x 0
    rw [hzero] at hrank
    rw [setRank, hord.cmp_eq]
    rcases hrank with ⟨hx, hr⟩ | ⟨hx, hr⟩
    · rw [hr, if_pos (hs.mem.1 hx), hcount, zero_add, toInt_natCast hlt]
    · rw [hr, if_neg (mt hs.mem.2 hx)]

theorem runSet_refines_remove : ∃ set : CSet Int,
    runSet 2 (newSet (fun a b : Int => a - b) true) [.insert 5, .insert 7, .remove 5] = some set ∧
      setLookup set 7 = some 7 ∧ setLookup set 5 = none ∧ setSize set = 1 ∧
      setRank set 7 = 0 ∧ (set.cleaned : Multiset Int) = {5} := by
  have hrun : SetRun [.insert 5, .insert 7, .remove 5] {7} ({5} : Multiset Int) :=
    .remove (.insert (.insert .init 5 (by decide)) 7 (by decide)) 5
  obtain ⟨set, h1, h2, h3, h4, h5⟩ := runSet_refines hrun strictOrder_sub (Nat.le_refl 2) true
  exact ⟨set, h1, h2 7, h2 5, h3, h4 7, h5⟩

end stores
end refinement

section failure
variable {cmp : α → α → Int} {set : CSet α} {n l r c fresh : SetNode α} {h nr nl : Int} {x y : α}
  {rounds : Nat}

/-- `insert_at`, where `fresh` is what `new_node` returns: `NULL` if the allocation fails. -/
def insertNode (cmp : α → α → Int) (rounds : Nat) (fresh : SetNode α) (data : α) :
    SetNode α → Option (SetNode α)
  | .null => some fresh
  | .node l r h nr nl x =>
    let node := SetNode.node l r h nr nl x
    let comparison := cmp x data
    if comparison = 0 then some node else do
    let dir := getDirection comparison
    let newChild ← match dir with
      | left => insertNode cmp rounds fresh data l
      | right => insertNode cmp rounds fresh data r
    match newChild with
    | .null => return .null
    | newChild => balance rounds (assignChild node newChild dir)

/-- `set_insert`, which stores what `insert_at` returns as the root. -/
def setInsertNode (rounds : Nat) (set : CSet α) (fresh : SetNode α) (data : α) :
    Option (CSet α) := do
  let root ← insertNode set.cmp rounds fresh data set.root
  return { set with root := root }

/-- The elements, from left to right. -/
def elements (set : CSet α) : List α := (shape set.root).toList

/-- The child that grows is stored in the node. -/
theorem insertNode_child (h0 : cmp y x ≠ 0) (hc : insertNode cmp rounds fresh x
      (child (.node l r h nr nl y) (getDirection (cmp y x))) = some c) (hne : c ≠ .null) :
    insertNode cmp rounds fresh x (.node l r h nr nl y) =
      balance rounds (assignChild (.node l r h nr nl y) c (getDirection (cmp y x))) := by
  unfold insertNode
  cases c with
  | null => exact absurd rfl hne
  | node cl cr ch cnr cnl z =>
    cases hdir : getDirection (cmp y x) with
    | left =>
      rw [hdir, child] at hc
      simp [h0, hdir, hc]
    | right =>
      rw [hdir, child] at hc
      simp [h0, hdir, hc]

/-- A failure below is a failure here. -/
theorem insertNode_child_null (h0 : cmp y x ≠ 0) (hc : insertNode cmp rounds fresh x
      (child (.node l r h nr nl y) (getDirection (cmp y x))) = some .null) :
    insertNode cmp rounds fresh x (.node l r h nr nl y) = some .null := by
  unfold insertNode
  cases hdir : getDirection (cmp y x) with
  | left =>
    rw [hdir, child] at hc
    simp [h0, hdir, hc]
  | right =>
    rw [hdir, child] at hc
    simp [h0, hdir, hc]

/-- Without an allocation, an element that is there is found and one that is not there costs the
whole tree. -/
theorem insertNode_null (hcmp : StrictOrder cmp) (hn : Sound n) (hb : (shape n).Balanced)
    (hs : SearchTree.Sorted cmp (shape n)) (rounds : Nat) (x : α) :
    x ∈ (shape n).toList ∧ insertNode cmp (rounds + 1) .null x n = some n ∨
      x ∉ (shape n).toList ∧ insertNode cmp (rounds + 1) .null x n = some .null := by
  induction n with
  | null => exact Or.inr ⟨by simp [shape, SearchTree.toList], rfl⟩
  | node l r h nr nl y ihl ihr =>
    obtain ⟨rfl, rfl, rfl, hl, hr⟩ := id hn
    obtain ⟨-, -, hlb, hrb⟩ := id hb
    obtain ⟨hls, hrs, hly, hyr⟩ := (SearchTree.sorted_node hcmp).1 hs
    by_cases h0 : cmp y x = 0
    · obtain rfl := (hcmp.eq_zero y x).1 h0
      exact Or.inl ⟨by simp [shape, SearchTree.toList], by simp [insertNode, h0]⟩
    · have hyx : x ≠ y := fun h => h0 ((hcmp.eq_zero y x).2 h.symm)
      by_cases hlt : 0 < cmp y x
      · have hdir : getDirection (cmp y x) = left := if_pos hlt
        have hright : x ∉ (shape r).toList := by
          intro hx
          exact hcmp.irrefl y (hcmp.trans _ _ _ (hyr x hx) ((hcmp.swap x y).2 hlt))
        simp only [shape, SearchTree.toList, List.mem_append, List.mem_cons, hyx, hright,
          or_false]
        rcases ihl hl hlb hls with ⟨hx, hrun⟩ | ⟨hx, hrun⟩
        · refine Or.inl ⟨hx, ?_⟩
          have hne : l ≠ .null := by
            rintro rfl
            simp [shape, SearchTree.toList] at hx
          rw [insertNode_child h0 (by rw [hdir]; exact hrun) hne, hdir, assignChild_left]
          exact balance_done hn hb rounds
        · exact Or.inr ⟨hx, insertNode_child_null h0 (by rw [hdir]; exact hrun)⟩
      · have hdir : getDirection (cmp y x) = right := if_neg hlt
        have hleft : x ∉ (shape l).toList := fun hx => hlt ((hcmp.swap x y).1 (hly x hx))
        simp only [shape, SearchTree.toList, List.mem_append, List.mem_cons, hyx, hleft, false_or]
        rcases ihr hr hrb hrs with ⟨hx, hrun⟩ | ⟨hx, hrun⟩
        · refine Or.inl ⟨hx, ?_⟩
          have hne : r ≠ .null := by
            rintro rfl
            simp [shape, SearchTree.toList] at hx
          rw [insertNode_child h0 (by rw [hdir]; exact hrun) hne, hdir, assignChild_right]
          exact balance_done hn hb rounds
        · exact Or.inr ⟨hx, insertNode_child_null h0 (by rw [hdir]; exact hrun)⟩

/-- A node that was allocated is inserted as before. -/
theorem insertNode_newNode (hcmp : StrictOrder cmp) (hrounds : 2 ≤ rounds) (hn : Sound n)
    (hb : (shape n).Balanced) (x : α) :
    insertNode cmp rounds (newNode x) x n = insertAt cmp rounds x n := by
  induction n with
  | null => rfl
  | node l r h nr nl y ihl ihr =>
    obtain ⟨-, -, -, hl, hr⟩ := hn
    obtain ⟨-, -, hlb, hrb⟩ := hb
    have hne : ∀ {c m : SetNode α}, shape c = SearchTree.insert cmp x (shape m) → c ≠ .null := by
      rintro c m hc rfl
      have hx := (SearchTree.mem_insert hcmp (t := shape m) (y := x)).2 (Or.inl rfl)
      rw [← hc] at hx
      simp [shape, SearchTree.toList] at hx
    by_cases h0 : cmp y x = 0
    · simp [insertNode, insertAt, h0]
    · cases hdir : getDirection (cmp y x) with
      | left =>
        obtain ⟨c, hc, -, hshape⟩ := insertAt_sound cmp x hrounds hl hlb
        rw [insertNode_child h0 (by rw [hdir]; exact (ihl hl hlb).trans hc) (hne hshape)]
        simp [insertAt, h0, hdir, hc]
      | right =>
        obtain ⟨c, hc, -, hshape⟩ := insertAt_sound cmp x hrounds hr hrb
        rw [insertNode_child h0 (by rw [hdir]; exact (ihr hr hrb).trans hc) (hne hshape)]
        simp [insertAt, h0, hdir, hc]

theorem Ordered.insertNull (hset : Ordered cmp set) (hcmp : StrictOrder cmp)
    (hrounds : 2 ≤ rounds) (x : α) :
    x ∈ elements set ∧ setInsertNode rounds set .null x = some set ∨
      x ∉ elements set ∧ setInsertNode rounds set .null x = some { set with root := .null } := by
  obtain ⟨k, rfl⟩ : ∃ k, rounds = k + 1 := ⟨rounds - 1, by omega⟩
  obtain rfl := hset.cmp_eq
  rcases insertNode_null hcmp hset.sound hset.balanced hset.sorted k x with ⟨hx, hrun⟩ | ⟨hx, hrun⟩
  · exact Or.inl ⟨hx, by rw [setInsertNode, hrun]; rfl⟩
  · exact Or.inr ⟨hx, by rw [setInsertNode, hrun]; rfl⟩

/-- If the node cannot be allocated, then the set stays as it was exactly if it is empty or holds
the element already. -/
theorem setInsert_failure_iff (hcmp : StrictOrder cmp) (hrounds : 2 ≤ rounds) (cleanup : Bool)
    (ops : List (CSetOp α)) (x : α) : ∃ set set',
      runSet rounds (newSet cmp cleanup) ops = some set ∧
      setInsertNode rounds set .null x = some set' ∧
      ((elements set' = elements set ∧ setSize set' = setSize set ∧
          ∀ y, setRank set' y = setRank set y) ↔
        elements set = [] ∨ x ∈ elements set) := by
  obtain ⟨set, hset, hord⟩ := ordered_runSet hcmp hrounds cleanup ops
  rcases hord.insertNull hcmp hrounds x with ⟨hx, hrun⟩ | ⟨hx, hrun⟩
  · refine ⟨set, set, hset, hrun, ?_⟩
    simp only [true_and, implies_true, hx, or_true]
  · refine ⟨set, { set with root := .null }, hset, hrun, ?_⟩
    constructor
    · intro h
      exact Or.inl h.1.symm
    · rintro (hnil | hmem)
      · have hempty : set.root = .null := by
          cases hroot : set.root with
          | null => rfl
          | node l r h nr nl y => simp [elements, hroot, shape, SearchTree.toList] at hnil
        simp [elements, setSize, setRank, hempty]
      · exact absurd hmem hx

theorem setInsert_failure_iff_stored : ∃ set set' : CSet Int,
    runSet 2 (newSet (fun a b : Int => a - b) false) [.insert 1, .insert 2] = some set ∧
      setInsertNode 2 set .null 2 = some set' ∧
      ((elements set' = elements set ∧ setSize set' = setSize set ∧
          ∀ y, setRank set' y = setRank set y) ↔
        elements set = [] ∨ 2 ∈ elements set) :=
  setInsert_failure_iff strictOrder_sub (Nat.le_refl 2) false [.insert 1, .insert 2] 2

/-- The elements that were there are lost. -/
theorem setInsert_failure_loses : ¬∀ (ops : List (CSetOp Int)) (x : Int) (set set' : CSet Int),
    runSet 2 (newSet (fun a b : Int => a - b) false) ops = some set →
    setInsertNode 2 set .null x = some set' →
    elements set' = elements set ∧ setSize set' = setSize set ∧
      ∀ y, setRank set' y = setRank set y := by
  intro h
  obtain ⟨h, -, -⟩ := h [.insert 1, .insert 2] 3 _ _ rfl rfl
  exact absurd h (by decide)

end failure

end CSet
end Lisp
