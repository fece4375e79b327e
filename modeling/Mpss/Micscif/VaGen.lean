import Mpss.Library.Chains
import Mpss.Library.Extents
import Mpss.Library.Runs

namespace Mpss.Micscif.VaGen
open Library.Extents Function Library.Chains

def invalidVaNodeIndex : Nat := 2 ^ 32 - 1

def nodesInSlab : Nat := 2 ^ 7

structure Node where
  next : Nat
  base : Nat
  range : Nat
deriving DecidableEq

structure VaNodeAllocator where
  slabDirectory : Nat → Nat → Node
  numSlabs : Nat
  numFreeSlabs : Nat
  freeList : Nat

/-- The largest request that `kmalloc` serves at the time; its own limit is at most 32 MB in every
kernel. -/
abbrev Memory := Fin (2 ^ 25 + 1)

variable (mem : Memory)

def kzalloc (size : Nat) : Bool := decide (size ≤ mem)

def vaNodeInit : VaNodeAllocator :=
  { slabDirectory := fun _ _ => ⟨0,0,0⟩
    numSlabs := 0
    numFreeSlabs := 0
    freeList := invalidVaNodeIndex }

def vaNodeIsValid (index : Nat) : Bool := invalidVaNodeIndex != index

variable (node : VaNodeAllocator)

/-- A larger directory with the same slabs; the failure is `-ENOMEM`. -/
def vaNodeRealloc : Option VaNodeAllocator :=
  let growSlabs := (2 * node.numSlabs + 1) % 2 ^ 32
  if kzalloc mem (8 * growSlabs) then
    some { node with numFreeSlabs := growSlabs - node.numSlabs }
  else none

/-- The nodes of a new slab: each linked to the next one, the last to the old free list. -/
def newSlab (start freeList : Nat) (i : Nat) : Node :=
  { next := if i < nodesInSlab - 1 then start + i + 1 else freeList,base := 0,range := 0 }

/-- The part of `va_node_grow` behind the test for a free place in the directory. -/
def addSlab : Option VaNodeAllocator :=
  if kzalloc mem (24 * nodesInSlab) then
    let start := node.numSlabs * nodesInSlab % 2 ^ 32
    some { slabDirectory := update node.slabDirectory node.numSlabs (newSlab start node.freeList)
           numSlabs := node.numSlabs + 1
           numFreeSlabs := node.numFreeSlabs - 1
           freeList := start }
  else none

def vaNodeGrow : Option VaNodeAllocator :=
  if node.numFreeSlabs = 0 then (vaNodeRealloc mem node).bind (addSlab mem) else addSlab mem node

def vaNodeGet (index : Nat) : Node :=
  node.slabDirectory (index / nodesInSlab) (index % nodesInSlab)

/-- A write through the pointer that `va_node_get` returns. -/
def vaNodeSet (index : Nat) (n : Node) : VaNodeAllocator :=
  { node with
    slabDirectory := update node.slabDirectory (index / nodesInSlab)
      (update (node.slabDirectory (index / nodesInSlab)) (index % nodesInSlab) n) }

def popFree : Nat × VaNodeAllocator :=
  (node.freeList,{ node with freeList := (vaNodeGet node node.freeList).next })

def vaNodeAlloc : Option (Nat × VaNodeAllocator) :=
  if vaNodeIsValid node.freeList then some (popFree node)
  else (vaNodeGrow mem node).map popFree

def vaNodeFree (index : Nat) : VaNodeAllocator :=
  { vaNodeSet node index { vaNodeGet node index with next := node.freeList } with freeList := index }

def pageSize : Nat := 4096

def invalidVaGenAddress : Nat := 0xff00000000000000

def invalidVaPageIndex : Nat := 0xff00000000000

def addU64 (a b : Nat) : Nat := (a + b) % 2 ^ 64

def subU64 (a b : Nat) : Nat := (a + (2 ^ 64 - b)) % 2 ^ 64

/-- Lists are known by the index of their first node; bases and ranges are in pages. -/
structure VaGenAddr where
  allocator : VaNodeAllocator
  holeList : Nat
  claimsList : Nat
  base : Nat

/-- No list is longer than this. -/
def nodeCount : Nat := node.numSlabs * nodesInSlab

def nextOf (i : Nat) : Nat := (vaNodeGet node i).next

def extentOf (i : Nat) : Extent := ⟨(vaNodeGet node i).base,(vaNodeGet node i).range⟩

def nodesFrom (root : Nat) : List Nat :=
  walk (nextOf node) invalidVaNodeIndex (nodeCount node) root

def extents (root : Nat) : List Extent := (nodesFrom node root).map (extentOf node)

def vaGenInitInternal (base range : Nat) : Option VaGenAddr :=
  (vaNodeAlloc mem vaNodeInit).map fun (holeList,node) =>
    { allocator := vaNodeSet node holeList ⟨invalidVaNodeIndex,0,range⟩
      holeList := holeList
      claimsList := invalidVaNodeIndex
      base := base }

/-- The first-fit loop: the hole found and the one before it. -/
def findHole (range : Nat) : Nat → Nat → Option Nat → Option (Nat × Option Nat)
  | 0,_,_ => none
  | n + 1,index,prev =>
    let find := vaNodeGet node index
    if find.range ≥ range then some (index,prev)
    else if !vaNodeIsValid find.next then none
    else findHole range n find.next (some index)

/-- Take a node out of the list that begins at `list`: the new first index, or nothing where the
source has a `BUG_ON`. -/
def unlink (list index : Nat) (prev : Option Nat) : Option (Nat × VaNodeAllocator) :=
  let next := (vaNodeGet node index).next
  if list = index then some (next,vaNodeFree node index)
  else prev.map fun p =>
    (list,vaNodeFree (vaNodeSet node p { vaNodeGet node p with next := next }) index)

variable (addr : VaGenAddr)

/-- Nothing is the end of the kernel at a `BUG_ON`, here and below. -/
def vaGenAllocInternal (range : Nat) : Option (Nat × VaGenAddr) :=
  if range = 0 ∨ ¬ vaNodeIsValid addr.holeList then some (invalidVaPageIndex,addr)
  else
    match findHole addr.allocator range (nodeCount addr.allocator) addr.holeList none with
    | none => some (invalidVaPageIndex,addr)
    | some (index,prev) =>
      let find := vaNodeGet addr.allocator index
      if find.range = range then
        (unlink addr.allocator addr.holeList index prev).map fun (list,node) =>
          (find.base,{ addr with allocator := node,holeList := list })
      else
        some (find.base,{ addr with
          allocator := vaNodeSet addr.allocator index
            { find with base := addU64 find.base range,range := subU64 find.range range } })

/-- Where the one pass over a sorted list ends. -/
inductive Place
  | overlap
  | before (find : Nat)
  | behind (find : Nat)
  | gap (find prev : Nat)

def findPlace (base endRange : Nat) : Nat → Nat → Nat → Place
  | 0,findPtr,prev => .gap findPtr prev
  | n + 1,findPtr,prev =>
    if !vaNodeIsValid findPtr then .gap findPtr prev
    else
      let find := vaNodeGet node findPtr
      if (if find.base < base then addU64 find.base find.range > base else endRange > find.base) then
        .overlap
      else if endRange = find.base then .before findPtr
      else if addU64 find.base find.range = base then .behind findPtr
      else if find.base > endRange then .gap findPtr prev
      else findPlace base endRange n find.next findPtr

/-- The results of `va_gen_insert_and_coalesce`: a `BUG_ON`, -1, or 0 with the new list. -/
inductive Inserted
  | bug
  | failed
  | done (node : VaNodeAllocator) (list : Nat)

/-- Extend the node before the range, and merge the next node if they now touch. -/
def coalesceBehind (list endRange range findPtr : Nat) : Inserted :=
  let find := vaNodeGet node findPtr
  let node := vaNodeSet node findPtr { find with range := addU64 find.range range }
  if vaNodeIsValid find.next then
    let nextNode := vaNodeGet node find.next
    if nextNode.base = endRange then
      let find' := vaNodeGet node findPtr
      let node := vaNodeSet node findPtr
        { find' with range := addU64 find'.range nextNode.range,next := nextNode.next }
      .done (vaNodeFree node find.next) list
    else .done node list
  else .done node list

def insertNode (list base range findPtr prev ptr : Nat) : Inserted :=
  if !vaNodeIsValid ptr then .done node list
  else
    let node := vaNodeSet node ptr ⟨findPtr,base,range⟩
    if findPtr = list then .done node ptr
    else if !vaNodeIsValid prev then .bug
    else .done (vaNodeSet node prev { vaNodeGet node prev with next := ptr }) list

def vaGenInsertAndCoalesce (list base range : Nat) : Inserted :=
  let endRange := addU64 base range
  match findPlace node base endRange (nodeCount node) list list with
  | .overlap => .failed
  | .before findPtr =>
    let find := vaNodeGet node findPtr
    .done (vaNodeSet node findPtr { find with base := base,range := addU64 find.range range }) list
  | .behind findPtr => coalesceBehind node list endRange range findPtr
  | .gap findPtr prev =>
    match vaNodeAlloc mem node with
    | none => .bug
    | some (ptr,node) => insertNode node list base range findPtr prev ptr

/-- The search of `va_gen_free_claim`; a range that is not inside one node is left alone. -/
def findClaim (base range : Nat) : Nat → Nat → Option Nat → Option (Nat × Option Nat)
  | 0,_,_ => none
  | n + 1,index,prev =>
    if !vaNodeIsValid index then none
    else
      let find := vaNodeGet node index
      if find.base ≤ base ∧ addU64 find.base find.range ≥ addU64 base range then some (index,prev)
      else if find.base > addU64 base range then none
      else if (if find.base < base then addU64 find.base find.range > base
          else addU64 base range > find.base) then none
      else findClaim base range n find.next (some index)

/-- Shrink the node of a claim from the front; an empty node is taken out. -/
def trimClaim (range index : Nat) (prev : Option Nat) : VaGenAddr :=
  let find := vaNodeGet addr.allocator index
  let node := vaNodeSet addr.allocator index
    { find with base := addU64 find.base range,range := subU64 find.range range }
  if subU64 find.range range = 0 then
    match prev with
    | some p => { addr with
        allocator := vaNodeFree (vaNodeSet node p { vaNodeGet node p with next := find.next }) index }
    | none => { addr with allocator := vaNodeFree node index,claimsList := find.next }
  else { addr with allocator := node }

/-- Split the node of a claim. The range of the new node is the old range less the new base. -/
def splitClaim (base range index newIndex : Nat) (node : VaNodeAllocator) : VaGenAddr :=
  let find := vaNodeGet node index
  let newBase := addU64 base range
  let node := vaNodeSet node newIndex ⟨find.next,newBase,subU64 find.range newBase⟩
  { addr with allocator := vaNodeSet node index ⟨newIndex,find.base,subU64 base find.base⟩ }

def vaGenFreeClaim (base range : Nat) : Option VaGenAddr :=
  if range = 0 then some addr
  else
    match findClaim addr.allocator base range (nodeCount addr.allocator) addr.claimsList none with
    | none => some addr
    | some (index,prev) =>
      let find := vaNodeGet addr.allocator index
      if find.base = base then some (trimClaim addr range index prev)
      else if addU64 find.base find.range = addU64 base range then
        some { addr with
          allocator := vaNodeSet addr.allocator index { find with range := subU64 find.range range } }
      else
        (vaNodeAlloc mem addr.allocator).map fun (newIndex,node) =>
          splitClaim addr base range index newIndex node

def vaGenFreeInternal (base range : Nat) : Option VaGenAddr :=
  match vaGenInsertAndCoalesce mem addr.allocator addr.holeList base range with
  | .done node list => some { addr with allocator := node,holeList := list }
  | _ => none

/-- The branches behind the test for a unit alignment of 1; the base is not aligned at all. -/
def freeAround (range unitAlign baseAddress alignedBase : Nat) : Option VaGenAddr :=
  let addr := if alignedBase > baseAddress then
      vaGenFreeInternal mem addr baseAddress (subU64 alignedBase baseAddress)
    else some addr
  let last := subU64 (addU64 baseAddress unitAlign) 1
  addr.bind fun addr =>
    if addU64 alignedBase range < last then
      vaGenFreeInternal mem addr (addU64 alignedBase range) (subU64 (subU64 last alignedBase) range)
    else some addr

def vaGenAllocAligned (range unitAlign : Nat) : Option (Nat × VaGenAddr) :=
  (vaGenAllocInternal addr (subU64 (addU64 range unitAlign) 1)).bind fun (baseAddress,addr) =>
    if range = 0 ∨ unitAlign = 0 then some (invalidVaPageIndex,addr)
    else if unitAlign = 1 ∨ baseAddress = invalidVaPageIndex then some (baseAddress,addr)
    else (freeAround mem addr range unitAlign baseAddress baseAddress).map fun addr =>
      (baseAddress,addr)

def numPages (numBytes : Nat) : Nat := addU64 (pageSize - 1) numBytes / pageSize

def vaGenAlloc (numBytes alignBytes : Nat) : Option (Nat × VaGenAddr) :=
  if alignBytes < pageSize then some (invalidVaGenAddress,addr)
  else if numBytes > 0xffffffff * pageSize then some (invalidVaGenAddress,addr)
  else
    (vaGenAllocAligned mem addr (numPages numBytes) (alignBytes / pageSize % 0xffffffff)).map
      fun (vaPageIndex,addr') =>
        if vaPageIndex = invalidVaPageIndex then (invalidVaGenAddress,addr')
        else (addU64 (vaPageIndex * pageSize % 2 ^ 64) addr.base,addr')

def vaGenClaim (address numBytes : Nat) : Option (Nat × VaGenAddr) :=
  if addU64 address numBytes > addr.base then some (invalidVaGenAddress,addr)
  else if address % pageSize ≠ 0 then some (invalidVaGenAddress,addr)
  else
    match vaGenInsertAndCoalesce mem addr.allocator addr.claimsList (address / pageSize)
        (numPages numBytes) with
    | .bug => none
    | .failed => some (invalidVaGenAddress,addr)
    | .done node list => some (address,{ addr with allocator := node,claimsList := list })

def vaGenFree (address numBytes : Nat) : Option VaGenAddr :=
  if address ≥ addr.base then
    vaGenFreeInternal mem addr ((address - addr.base) / pageSize) (numPages numBytes)
  else vaGenFreeClaim mem addr (address / pageSize) (numPages numBytes)

def vaGenInit (base range : Nat) : Option VaGenAddr := vaGenInitInternal mem base (range / pageSize)

/-- The registered address space with what its users hold, as addresses and sizes in bytes. -/
structure State where
  addr : VaGenAddr
  allocs : List (Nat × Nat)
  claims : List (Nat × Nat)

/-- Calls, with the memory there is. What is freed is an allocation or a claim. -/
inductive Act
  | alloc (mem : Memory) (numBytes : Nat)
  | free (mem : Memory) (address numBytes : Nat)
  | claim (mem : Memory) (address numBytes : Nat)
  | unclaim (mem : Memory) (address numBytes : Nat)

variable (s : State)

def allocated (numBytes : Nat) (r : Nat × VaGenAddr) : State :=
  { s with
    addr := r.2
    allocs := if r.1 = invalidVaGenAddress then s.allocs else (r.1,numBytes) :: s.allocs }

def claimed (numBytes : Nat) (r : Nat × VaGenAddr) : State :=
  { s with
    addr := r.2
    claims := if r.1 = invalidVaGenAddress then s.claims else (r.1,numBytes) :: s.claims }

/-- Whole pages below the base of the allocations. -/
def Claimable (address numBytes : Nat) : Prop :=
  0 < numBytes ∧ numBytes % pageSize = 0 ∧ address + numBytes ≤ addr.base
deriving Decidable

def step : Act → Option State
  | .alloc mem numBytes => (vaGenAlloc mem s.addr numBytes pageSize).map (allocated s numBytes)
  | .free mem address numBytes =>
    if (address,numBytes) ∈ s.allocs then
      (vaGenFree mem s.addr address numBytes).map fun addr =>
        { s with addr := addr,allocs := s.allocs.erase (address,numBytes) }
    else none
  | .claim mem address numBytes =>
    if Claimable s.addr address numBytes then
      (vaGenClaim mem s.addr address numBytes).map (claimed s numBytes)
    else none
  | .unclaim mem address numBytes =>
    if (address,numBytes) ∈ s.claims then
      (vaGenFree mem s.addr address numBytes).map fun addr =>
        { s with addr := addr,claims := s.claims.erase (address,numBytes) }
    else none

def pagesOf (base : Nat) (r : Nat × Nat) : Extent := ⟨(r.1 - base) / pageSize,numPages r.2⟩

def holes : List Extent := extents s.addr.allocator s.addr.holeList

def claimNodes : List Extent := extents s.addr.allocator s.addr.claimsList

def allocPages : List Extent := s.allocs.map (pagesOf s.addr.base)

def claimPages : List Extent := s.claims.map (pagesOf 0)

end Mpss.Micscif.VaGen
