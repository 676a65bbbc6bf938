/-
# Ntoskrnl.Mm.Vad.Model -- the address descriptor tree

`addrsup.c`: the balanced tree of virtual address descriptors of a process.  A
node has its parent and its balance packed in one word, two children and the
first and last page of its range; the tree hangs off the right child of the
node inside the table.  A node is named by its address, and the memory is kept
field by field, so that an assignment to a field of a node changes one function
at one address.  Nodes are aligned, so the two halves of the packed word are kept
apart; the balance is a signed bit field of two bits.

The loops of the source have no bound of their own.  They take fuel here, and
answer `none` when it runs out.
-/
import Mathlib.Algebra.Group.Nat.Defs
import Ntoskrnl.Lib.LinkedTree

namespace Ntoskrnl.Mm.Vad

set_option autoImplicit false

open Lib.LinkedTree Function

/-! ## Nodes and tables -/

abbrev Addr := Nat

def null : Addr := 0

/-- What is stored in a signed bit field of two bits. -/
def balanceField (value : Int) : Int := (value + 2) % 4 - 2

/-- The fields of the nodes (`MMADDRESS_NODE`), by the address of the node. -/
structure Memory where
  links : Links Addr
  balance : Addr → Int
  startingVpn : Addr → Nat
  endingVpn : Addr → Nat

namespace Memory

def setBalance (m : Memory) (node : Addr) (value : Int) : Memory :=
  { m with balance := update m.balance node (balanceField value) }

def withLinks (m : Memory) (links : Links Addr) : Memory := { m with links }

end Memory

/-- The widths and limits that depend on the processor and on how it was started. -/
structure Platform where
  wordBits : Nat
  /-- The width of `NumberGenericTableElements`. -/
  countBits : Nat
  /-- `MM_HIGHEST_VAD_ADDRESS`. -/
  highestVadAddress : Nat
  aligned : (highestVadAddress + 1) % 0x10000 = 0
  beyondLowest : 0x10000 < highestVadAddress
  inWord : highestVadAddress + 0x10000 < 2 ^ wordBits

def x86 : Platform := ⟨32, 24, 0x7FFDFFFF, by decide, by decide, by decide⟩
def amd64 : Platform := ⟨64, 56, 0x7FFFFFDFFFF, by decide, by decide, by decide⟩

/-- A table (`MM_AVL_TABLE`) and the memory its nodes are in. -/
structure Space where
  memory : Memory
  /-- The address of the node inside the table. -/
  balancedRoot : Addr
  depthOfTree : Nat
  numberGenericTableElements : Nat

/-- `MiInitializeVadTableAvl`, in a memory where the node of the table is at `root`. -/
def initializeVadTableAvl (m : Memory) (root : Addr) : Space where
  memory := { m with
    links := ((m.links.setLeft root null).setRight root null).setParent root root
    balance := update m.balance root 0
    startingVpn := update m.startingVpn root 0
    endingVpn := update m.endingVpn root 0 }
  balancedRoot := root
  depthOfTree := 0
  numberGenericTableElements := 0

/-! ## Looking up -/

inductive TableSearchResult where
  | emptyTree
  | foundNode (node : Addr)
  | insertAsLeft (parent : Addr)
  | insertAsRight (parent : Addr)
deriving DecidableEq, Repr

/-- The loop of `MiFindNodeOrParent`. -/
def findLoop (m : Memory) (vpn : Nat) : Nat → Addr → Option TableSearchResult
  | 0, _ => none
  | fuel + 1, node =>
    if vpn < m.startingVpn node then
      if m.links.left node ≠ null then findLoop m vpn fuel (m.links.left node)
      else some (.insertAsLeft node)
    else if vpn ≤ m.endingVpn node then some (.foundNode node)
    else
      if m.links.right node ≠ null then findLoop m vpn fuel (m.links.right node)
      else some (.insertAsRight node)

/-- `MiFindNodeOrParent`. -/
def findNodeOrParent (fuel : Nat) (s : Space) (vpn : Nat) : Option TableSearchResult :=
  if s.numberGenericTableElements = 0 then some .emptyTree
  else findLoop s.memory vpn fuel (s.memory.links.right s.balancedRoot)

/-- `MiLocateAddressInTree`. -/
def locateAddressInTree (fuel : Nat) (s : Space) (vpn : Nat) : Option Addr :=
  match findNodeOrParent fuel s vpn with
  | none => none
  | some (.foundNode node) => some node
  | some _ => some null

/-- The loop of `MiCheckForConflictingNode`. -/
def conflictLoop (m : Memory) (startVpn endVpn : Nat) : Nat → Addr → Option Addr
  | 0, _ => none
  | fuel + 1, node =>
    if node = null then some null
    else if m.endingVpn node < startVpn then
      conflictLoop m startVpn endVpn fuel (m.links.right node)
    else if endVpn < m.startingVpn node then
      conflictLoop m startVpn endVpn fuel (m.links.left node)
    else some node

/-- `MiCheckForConflictingNode`. -/
def checkForConflictingNode (fuel : Nat) (s : Space) (startVpn endVpn : Nat) : Option Addr :=
  if s.numberGenericTableElements = 0 then some null
  else conflictLoop s.memory startVpn endVpn fuel (s.memory.links.right s.balancedRoot)

/-! ## Neighbours -/

/-- `while (Node->LeftChild != NULL) Node = Node->LeftChild`. -/
def leftmost (L : Links Addr) : Nat → Addr → Option Addr
  | 0, _ => none
  | fuel + 1, node => if L.left node ≠ null then leftmost L fuel (L.left node) else some node

/-- `while (Node->RightChild != NULL) Node = Node->RightChild`. -/
def rightmost (L : Links Addr) : Nat → Addr → Option Addr
  | 0, _ => none
  | fuel + 1, node => if L.right node ≠ null then rightmost L fuel (L.right node) else some node

/-- The way up of `MiGetNextNode`. -/
def nextAncestor (L : Links Addr) : Nat → Addr → Option Addr
  | 0, _ => none
  | fuel + 1, next =>
    let parent := L.parent next
    if parent = next then some null
    else if L.left parent = next then some parent
    else nextAncestor L fuel parent

/-- `MiGetNextNode`. -/
def getNextNode (fuel : Nat) (L : Links Addr) (node : Addr) : Option Addr :=
  if L.right node = null then nextAncestor L fuel node
  else leftmost L fuel (L.right node)

/-- The way up of `MiGetPreviousNode`. -/
def previousAncestor (L : Links Addr) : Nat → Addr → Option Addr
  | 0, _ => none
  | fuel + 1, previous =>
    let parent := L.parent previous
    if parent = previous then some null
    else if L.right parent = previous then
      if parent = L.parent parent then some null else some parent
    else previousAncestor L fuel parent

/-- `MiGetPreviousNode`. -/
def getPreviousNode (fuel : Nat) (L : Links Addr) (node : Addr) : Option Addr :=
  if L.left node = null then previousAncestor L fuel node
  else rightmost L fuel (L.left node)

/-! ## Rotations -/

/-- `MiPromoteNode`: the node rises above its parent. -/
def promoteNode (L : Links Addr) (c : Addr) : Links Addr :=
  let p := L.parent c
  let g := L.parent p
  let rotated :=
    if L.left p = c then
      let y := L.right c
      ((L.setLeft p y).adopt null y p).setRight c p
    else
      let y := L.left c
      ((L.setRight p y).adopt null y p).setLeft c p
  ((rotated.setParent p c).replaceChild g p c).setParent c g

def Memory.promote (m : Memory) (c : Addr) : Memory := m.withLinks (promoteNode m.links c)

/-- `MiRebalanceNode`, and whether the third case was met. -/
def rebalanceNode (m : Memory) (s : Addr) : Memory × Bool :=
  let a := m.balance s
  let r := if a = 1 then m.links.right s else m.links.left s
  if m.balance r = a then
    (((m.promote r).setBalance r 0).setBalance s 0, false)
  else if m.balance r = -a then
    let p := if a = 1 then m.links.left r else m.links.right r
    let turned := (((m.promote p).promote p).setBalance s 0).setBalance r 0
    let adjusted :=
      if turned.balance p = a then turned.setBalance s (-a)
      else if turned.balance p = -a then turned.setBalance r a
      else turned
    (adjusted.setBalance p 0, false)
  else
    ((m.promote r).setBalance r (-a), true)

/-! ## Inserting -/

/-- The loop of `MiInsertNode`: `r` has just grown, below `s`. -/
def insertLoop : Nat → Space → Addr → Addr → Option Space
  | 0, _, _, _ => none
  | fuel + 1, sp, r, s =>
    let m := sp.memory
    let a : Int := if m.links.left (m.links.parent r) = r then -1 else 1
    if m.balance s = 0 then
      insertLoop fuel { sp with memory := m.setBalance s a } s (m.links.parent s)
    else if m.balance s ≠ a then
      let m := m.setBalance s 0
      some { sp with
        memory := m
        depthOfTree :=
          if m.balance sp.balancedRoot = 0 then (sp.depthOfTree + 1) % 2 ^ 5
          else sp.depthOfTree }
    else some { sp with memory := (rebalanceNode m s).1 }

/-- `MiInsertNode`. -/
def insertNode (arch : Platform) (fuel : Nat) (sp : Space) (node : Addr) : Option Space :=
  match findNodeOrParent fuel sp (sp.memory.startingVpn node) with
  | none => none
  | some result =>
    let links := (sp.memory.links.setLeft node null).setRight node null
    let counted := { sp with
      numberGenericTableElements := (sp.numberGenericTableElements + 1) % 2 ^ arch.countBits }
    match result with
    | .emptyTree =>
      some { counted with
        memory := (sp.memory.withLinks ((links.setRight sp.balancedRoot node).setParent node
          sp.balancedRoot)).setBalance node 0
        depthOfTree := 1 }
    | .insertAsLeft parent =>
      insertLoop fuel { counted with
        memory := ((sp.memory.withLinks ((links.setLeft parent node).setParent node
          parent)).setBalance node 0).setBalance sp.balancedRoot (-1) } node parent
    | .insertAsRight parent | .foundNode parent =>
      insertLoop fuel { counted with
        memory := ((sp.memory.withLinks ((links.setRight parent node).setParent node
          parent)).setBalance node 0).setBalance sp.balancedRoot (-1) } node parent

/-! ## Removing -/

/-- The loop of `MiRemoveNode`: the subtree of `p` on side `a` has just become shorter. -/
def removeLoop : Nat → Space → Addr → Int → Option Space
  | 0, _, _, _ => none
  | fuel + 1, sp, p, a =>
    let m := sp.memory
    let ascend (m : Memory) (p : Addr) : Option Space :=
      removeLoop fuel { sp with memory := m } (m.links.parent p)
        (if m.links.right (m.links.parent p) = p then 1 else -1)
    if m.balance p = a then ascend (m.setBalance p 0) p
    else if m.balance p = 0 then
      let m := m.setBalance p (-a)
      some { sp with
        memory := m
        depthOfTree :=
          if m.balance sp.balancedRoot ≠ 0 then (sp.depthOfTree + (2 ^ 5 - 1)) % 2 ^ 5
          else sp.depthOfTree }
    else
      let turned := rebalanceNode m p
      if turned.2 then some { sp with memory := turned.1 }
      else ascend turned.1 (turned.1.links.parent p)

/-- The node that `MiRemoveNode` takes out of its place: the node itself, if it has at most
one child, else its neighbour on the longer side. -/
def easyDelete (fuel : Nat) (m : Memory) (node : Addr) : Option Addr :=
  if m.links.left node = null ∨ m.links.right node = null then some node
  else if 0 ≤ m.balance node then leftmost m.links fuel (m.links.right node)
  else rightmost m.links fuel (m.links.left node)

/-- The simple deletion of a node with at most one child. -/
def unlinkNode (L : Links Addr) (easy : Addr) : Links Addr :=
  let parent := L.parent easy
  let child := if L.left easy = null then L.right easy else L.left easy
  (L.replaceChild parent easy child).adopt null child parent

/-- The stand-in `easy` takes the place and the links of `node`. -/
def standIn (m : Memory) (node easy : Addr) : Memory :=
  let L := m.links
  let parent := L.parent node
  let copied := ((L.setParent easy parent).setLeft easy (L.left node)).setRight easy (L.right node)
  let placed :=
    if copied.left parent = node then copied.setLeft parent easy
    else copied.setRight parent easy
  { m with
    links := (placed.adopt null (placed.left easy) easy).adopt null (placed.right easy) easy
    balance := update m.balance easy (m.balance node) }

/-- `MiRemoveNode`. -/
def removeNode (arch : Platform) (fuel : Nat) (sp : Space) (node : Addr) : Option Space :=
  match easyDelete fuel sp.memory node with
  | none => none
  | some easy =>
    let L := sp.memory.links
    let parent := L.parent easy
    let a : Int := if L.left parent = easy then -1 else 1
    let m := (sp.memory.withLinks (unlinkNode L easy)).setBalance sp.balancedRoot 0
    match removeLoop fuel { sp with memory := m } (m.links.parent easy) a with
    | none => none
    | some sp =>
      some { sp with
        memory := if node ≠ easy then standIn sp.memory node easy else sp.memory
        numberGenericTableElements :=
          (sp.numberGenericTableElements + (2 ^ arch.countBits - 1)) % 2 ^ arch.countBits }

end Ntoskrnl.Mm.Vad
