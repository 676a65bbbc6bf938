/-
# Ntoskrnl.Rtl.AvlTable.Model -- generic tables on balanced trees

The routines of `avltable.c`.  The table has a node of its own, `BalancedRoot`, whose
right child is the root of the tree; an element of the table is a node followed by the
data of the user.  A node is named by its address, and the memory is kept field by
field.  The routines that turn the tree are those of the balanced trees of the library,
with a `CHAR` for the balance of a node; the counters of the table are `ULONG`s.

The comparison of two keys is a routine of the user, and so is the allocation of a
node: a call that may insert gets the address the allocation would return, `null` if
it fails.  Where the source returns a pointer to the data of the user, the model
returns the node.  Loops take fuel and answer `none` when it runs out.
-/
import Ntoskrnl.Base.Types
import Ntoskrnl.Lib.AvlEdit
import Ntoskrnl.Lib.TreeSearch

namespace Ntoskrnl.Rtl.AvlTable

set_option autoImplicit false

open Base Lib.LinkedTree Lib.Avl

variable {ε : Type}

/-! ## Tables -/

abbrev Addr := Nat

def null : Addr := 0

/-- What is stored in a `CHAR`. -/
def charField (value : Int) : Int := (value + 128) % 256 - 128

/-- A table (`RTL_AVL_TABLE`) and the memory of its nodes. -/
structure Table (ε : Type) where
  /-- The links and the balance of a node (`RTL_BALANCED_LINKS`). -/
  nodes : Skeleton Addr
  userData : Addr → ε
  /-- The address of the node inside the table. -/
  balancedRoot : Addr
  numberGenericTableElements : Nat
  depthOfTree : Nat
  restartKey : Addr
  deleteCount : Nat

/-- `RtlInitializeGenericTableAvl`, in a memory where the node of the table is at `root`. -/
def initializeGenericTableAvl (nodes : Skeleton Addr) (userData : Addr → ε) (root : Addr) :
    Table ε where
  nodes := ((nodes.withLinks ((blank null nodes.links root).setParent root root)).setBalance
    charField root 0)
  userData := userData
  balancedRoot := root
  numberGenericTableElements := 0
  depthOfTree := 0
  restartKey := null
  deleteCount := 0

/-- `RtlIsGenericTableEmptyAvl`. -/
def isGenericTableEmptyAvl (table : Table ε) : Bool := table.numberGenericTableElements == 0

/-! ## Looking up -/

/-- `TABLE_SEARCH_RESULT`, with the node or parent that belongs to it. -/
inductive TableSearchResult where
  | emptyTree
  | foundNode (node : Addr)
  | insertAsLeft (parent : Addr)
  | insertAsRight (parent : Addr)
deriving DecidableEq, Repr

def TableSearchResult.ofLanding : Landing Addr → TableSearchResult
  | .found node => .foundNode node
  | .asLeft parent => .insertAsLeft parent
  | .asRight parent => .insertAsRight parent

section Compare

variable (compareRoutine : ε → ε → Ordering)

variable (fuel : Nat) (table : Table ε) (buffer : ε)

/-- `FindNodeOrParent`. -/
def findNodeOrParent : Option TableSearchResult :=
  if isGenericTableEmptyAvl table then some .emptyTree
  else
    (descend null table.nodes.links (fun node => compareRoutine buffer (table.userData node)) fuel
      (table.nodes.links.right table.balancedRoot)).map .ofLanding

/-- `RtlLookupElementGenericTableFullAvl`: the element, and the result of the search. -/
def lookupElementGenericTableFullAvl : Option (Addr × TableSearchResult) :=
  match findNodeOrParent compareRoutine fuel table buffer with
  | none => none
  | some (.foundNode node) => some (node, .foundNode node)
  | some result => some (null, result)

/-- `RtlLookupElementGenericTableAvl`. -/
def lookupElementGenericTableAvl : Option Addr :=
  (lookupElementGenericTableFullAvl compareRoutine fuel table buffer).map Prod.fst

end Compare

/-! ## The tree -/

/-- `RealSuccessor`. -/
def realSuccessor (fuel : Nat) (links : Links Addr) (node : Addr) : Option Addr :=
  successor null links fuel node

/-- `RealPredecessor`. -/
def realPredecessor (fuel : Nat) (links : Links Addr) (node : Addr) : Option Addr :=
  predecessor null links fuel node

/-! ## Inserting -/

/-- A climb after an insertion has ended; if it came up to the table, the tree is deeper. -/
def Table.grown (table : Table ε) (outcome : Skeleton Addr × Bool) : Table ε :=
  { table with
    nodes := outcome.1
    depthOfTree := if outcome.2 then ulong (table.depthOfTree + 1) else table.depthOfTree }

/-- The new node is hung into the tree, where the search has ended. -/
def hangNode (fuel : Nat) (table : Table ε) (node : Addr) (result : TableSearchResult) :
    Option (Table ε) :=
  let links := table.nodes.links
  match result with
  | .emptyTree =>
    some { table with
      nodes := (table.nodes.withLinks (hangRight null links table.balancedRoot node)).setBalance
        charField node 0
      depthOfTree := 1 }
  | .insertAsLeft parent =>
    (growFrom null table.balancedRoot charField fuel table.nodes (hangLeft null links parent node)
      parent node).map table.grown
  | .insertAsRight parent | .foundNode parent =>
    (growFrom null table.balancedRoot charField fuel table.nodes
      (hangRight null links parent node) parent node).map table.grown

/-- The table, the element and `NewElement` after an insertion. -/
structure Insertion (ε : Type) where
  table : Table ε
  element : Addr
  newElement : Bool

/-- `RtlInsertElementGenericTableFullAvl`. -/
def insertElementGenericTableFullAvl (fuel : Nat) (table : Table ε) (buffer : ε)
    (allocated : Addr) (result : TableSearchResult) : Option (Insertion ε) :=
  match result with
  | .foundNode node => some ⟨table, node, false⟩
  | result =>
    if allocated = null then some ⟨table, null, false⟩
    else
      let counted := { table with
        numberGenericTableElements := ulong (table.numberGenericTableElements + 1) }
      (hangNode fuel counted allocated result).map fun table =>
        ⟨{ table with userData := Function.update table.userData allocated buffer }, allocated,
          true⟩

/-- `RtlInsertElementGenericTableAvl`. -/
def insertElementGenericTableAvl (compareRoutine : ε → ε → Ordering) (fuel : Nat)
    (table : Table ε) (buffer : ε) (allocated : Addr) : Option (Insertion ε) :=
  match findNodeOrParent compareRoutine fuel table buffer with
  | none => none
  | some result => insertElementGenericTableFullAvl fuel table buffer allocated result

/-! ## Deleting -/

/-- `DeleteNodeFromTree`. -/
def deleteNodeFromTree (fuel : Nat) (table : Table ε) (node : Addr) : Option (Table ε) :=
  (takeOut null table.balancedRoot charField fuel table.nodes node).map fun outcome =>
    { table with
      nodes := outcome.1
      depthOfTree :=
        if outcome.2 then ulongSub table.depthOfTree 1 else table.depthOfTree }

/-- `RtlDeleteElementGenericTableAvl`. -/
def deleteElementGenericTableAvl (compareRoutine : ε → ε → Ordering) (fuel : Nat)
    (table : Table ε) (buffer : ε) : Option (Table ε × Bool) :=
  match findNodeOrParent compareRoutine fuel table buffer with
  | none => none
  | some (.foundNode node) =>
    -- An enumeration that has come to this element resumes from the one before it.
    match if node = table.restartKey then realPredecessor fuel table.nodes.links node
      else some table.restartKey
    with
    | none => none
    | some restartKey =>
      let table := { table with restartKey, deleteCount := ulong (table.deleteCount + 1) }
      (deleteNodeFromTree fuel table node).map fun table =>
        ({ table with
            numberGenericTableElements :=
              ulongSub table.numberGenericTableElements 1 }, true)
  | some _ => some (table, false)

/-! ## Enumerating -/

/-- `RtlEnumerateGenericTableWithoutSplayingAvl`: the restart key and the element. -/
def enumerateGenericTableWithoutSplayingAvl (fuel : Nat) (table : Table ε) (restartKey : Addr) :
    Option (Addr × Addr) :=
  let links := table.nodes.links
  if isGenericTableEmptyAvl table then some (restartKey, null)
  else if restartKey = null then
    (leftmost null links fuel (links.right table.balancedRoot)).map fun node => (node, node)
  else
    (realSuccessor fuel links restartKey).map fun node =>
      (if node ≠ null then node else restartKey, node)

/-- `RtlEnumerateGenericTableAvl`. -/
def enumerateGenericTableAvl (fuel : Nat) (table : Table ε) (restart : Bool) :
    Option (Table ε × Addr) :=
  (enumerateGenericTableWithoutSplayingAvl fuel table
    (if restart then null else table.restartKey)).map fun (restartKey, node) =>
      ({ table with restartKey }, node)

/-- The answers of a match function. -/
inductive MatchStatus where
  | success
  | noMatch
  | noMoreMatches
deriving DecidableEq, Repr

/-- `MatchAll`. -/
def matchAll (_ : ε) : MatchStatus := .success

/-- The loop of `RtlEnumerateGenericTableLikeADirectory`: on to a node the match function does
not pass over. -/
def matchLoop (table : Table ε) (matchFunction : ε → MatchStatus) :
    Nat → Addr → Option (Addr × MatchStatus)
  | 0, _ => none
  | fuel + 1, node =>
    if node = null then some (null, .success)
    else
      match matchFunction (table.userData node) with
      | .noMatch =>
        match realSuccessor (fuel + 1) table.nodes.links node with
        | none => none
        | some next => matchLoop table matchFunction fuel next
      | status => some (node, status)

/-- The element and the two values the caller passes back. -/
structure DirectoryAnswer where
  element : Addr
  restartKey : Addr
  deleteCount : Nat
deriving DecidableEq, Repr

/-- Where an enumeration resumes that has no node to go on from, and whether that node is to be
skipped. -/
def resumeByKey (compareRoutine : ε → ε → Ordering) (fuel : Nat) (table : Table ε)
    (buffer : ε) (nextFlag : Bool) : Option (Addr × Bool) :=
  match findNodeOrParent compareRoutine fuel table buffer with
  | none => none
  | some (.foundNode node) => some (node, nextFlag)
  | some (.insertAsLeft parent) => some (parent, false)
  | some (.insertAsRight parent) =>
    (realSuccessor fuel table.nodes.links parent).map fun node => (node, false)
  | some .emptyTree => some (null, false)

/-- `RtlEnumerateGenericTableLikeADirectory`. -/
def enumerateGenericTableLikeADirectory (compareRoutine : ε → ε → Ordering) (fuel : Nat)
    (table : Table ε) (matchFunction : Option (ε → MatchStatus)) (nextFlag : Bool)
    (restartKey : Addr) (deleteCount : Nat) (buffer : ε) : Option DirectoryAnswer :=
  if isGenericTableEmptyAvl table then some ⟨null, null, deleteCount⟩
  else
    -- After a delete the node may be gone.
    let nodeOrParent := if deleteCount ≠ table.deleteCount then null else restartKey
    match if nodeOrParent = null then resumeByKey compareRoutine fuel table buffer nextFlag
      else some (nodeOrParent, nextFlag)
    with
    | none => none
    | some (node, skip) =>
      match if skip then realSuccessor fuel table.nodes.links node else some node with
      | none => none
      | some node =>
        (matchLoop table (matchFunction.getD matchAll) fuel node).map fun (node, status) =>
          if node ≠ null then
            ⟨if status = .success then node else null, node, table.deleteCount⟩
          else ⟨null, restartKey, deleteCount⟩

end Ntoskrnl.Rtl.AvlTable
