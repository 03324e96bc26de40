import Osymandias.LinkedList

/-!
# The bin allocator

`allocator/bin.rs`. A free block starts with a header of two words: the list
pointer to the next free block and the block's size. The allocator is its
bounds, the head of the free list, and the memory it manages.
-/

namespace Osymandias

open Fuel

def BLOCK_LEN : Nat := 16

/-! ## Block headers -/

namespace BlockHeader

def size (m : Memory) (a : Nat) : Nat := word m (a + 8)

def setSize (m : Memory) (a n : Nat) : Memory := setWord m (a + 8) n

/-- Clears the size. The list pointer is left as it is: the source assigns the
null pointer to a local copy of the field's address. -/
def newFromPtr (m : Memory) (ptr : Nat) : Memory := setSize m ptr 0

def matchesExact (m : Memory) (a : Nat) (layout : Layout) : Bool :=
  size m a == layout.size && a % layout.align == 0

def matchesContains (m : Memory) (a : Nat) (layout : Layout) : Bool :=
  decide (size m a > layout.size) && a % layout.align == 0

def isAdjacent (m : Memory) (a b : Nat) : Bool := saturatingAdd a (size m a) == b

def equalSize (m : Memory) (a b : Nat) : Bool := size m a == size m b

def alignedOn (a align : Nat) : Except Fault Bool :=
  if align = 0 then .error (.panic "attempt to calculate the remainder with a divisor of zero")
  else .ok (a % align == 0)

end BlockHeader

structure Allocator extends Heap where
  start : Nat
  «end» : Nat

namespace Allocator

open BlockHeader

def nextPowerOfTwoBelow (n : Nat) : Except Fault Nat := do
  let p ← unwrap (checkedNextPowerOfTwo n)
  return p >>> 1

def innerLayout (layout : Layout) : Except Fault (Option Layout) := do
  let size := max layout.size BLOCK_LEN
  let size ← if ¬ size.isPowerOfTwo then unwrap (checkedNextPowerOfTwo size) else .ok size
  return Layout.fromSizeAlign size (max layout.align BLOCK_LEN)

/-! ## Dividing and merging -/

def nextPtr (ptr size : Nat) : Except Fault Nat := do
  let alignment ← nextPowerOfTwoBelow size
  let alignedPtr ← alignUp ptr alignment
  if ptr ≠ alignedPtr then
    return alignedPtr
  else if ¬ size.isPowerOfTwo then
    usizeAdd ptr (← nextPowerOfTwoBelow size)
  else
    return ptr

/-- The loop of `divide_maximally`: cut the block under the iterator, or step over it. -/
def divideLoop : Nat → Iter → Heap → Except Fault Heap
  | 0, _, _ => .error .outOfFuel
  | fuel + 1, iter, h =>
    match iter.peek with
    | none => .ok h
    | some ptr => do
      let next ← nextPtr ptr (size h.mem ptr)
      if ptr ≠ next then
        let m₁ := newFromPtr h.mem next
        let diff := saturatingSub next ptr
        let rest ← usizeSub (size m₁ ptr) diff
        let m₂ := setSize m₁ next rest
        let m₃ := setSize m₂ ptr diff
        divideLoop fuel iter ({ h with mem := m₃ }.push (.node ptr) next)
      else
        divideLoop fuel (iter.next h.mem).2 h

def divideMaximally (fuel : Nat) (h : Heap) : Except Fault Heap := divideLoop fuel h.iter h

def defragmentStep (prev : Option Nat) (cur : Nat) (h : Heap) : Except Fault (Option Nat × Heap) :=
  match prev with
  | none => .ok (some cur, h)
  | some prev =>
    if isAdjacent h.mem prev cur && equalSize h.mem prev cur then do
      let double ← usizeMul 2 (size h.mem prev)
      if ← alignedOn prev double then
        let h₁ := (h.pop (.node prev)).2
        -- the previous pointer moves on to the block that has just been unlinked
        return (some cur, { h₁ with mem := setSize h₁.mem prev (usizeShl1 (size h₁.mem prev)) })
      else
        return (some cur, h)
    else
      .ok (some cur, h)

def defragment (fuel : Nat) (h : Heap) : Except Fault Heap := do
  let (_, h') ← h.iter.fold defragmentStep fuel none h
  return h'

def new (fuel start «end» : Nat) (m : Memory) : Except Fault Allocator := do
  let start ← alignUp start BLOCK_LEN
  let «end» ← alignDown «end» BLOCK_LEN
  let m₁ := newFromPtr m start
  let m₂ := setSize m₁ start (← usizeSub «end» start)
  let (head, m₃) := LinkedList.new.push m₂ start
  let h ← divideMaximally fuel ⟨head, m₃⟩
  return { toHeap := h, start, «end» }

/-! ## Allocation -/

def findExactFreeBlock (fuel : Nat) (h : Heap) (layout : Layout) : Except Fault (Option Node) :=
  h.iterMut.find (fun node => matchesExact h.mem node.value layout) fuel h.mem

abbrev Scan := Option ListPtr × Option Nat

/-- The closure that the folds of `alloc_inner` and `dealloc_inner` share. They
go on to the end of the list after the first block that passes the test. -/
def scanStep (test : Memory → Nat → Bool) (accum : Scan) (cur : Nat) (h : Heap) :
    Except Fault (Scan × Heap) :=
  match accum with
  | (some prev, some found) => .ok ((some prev, some found), h)
  | (some prev, none) =>
    if test h.mem cur then .ok ((some prev, some cur), h) else .ok ((some (.node cur), none), h)
  | (none, _) => .error (.panic "internal error: entered unreachable code")

def containsStep (layout : Layout) : Scan → Nat → Heap → Except Fault (Scan × Heap) :=
  scanStep fun m cur => matchesContains m cur layout

def splitBlock (h : Heap) (list : ListPtr) (cbh : Nat) (layout : Layout) : Except Fault (Nat × Heap) := do
  let mbh := saturatingAdd cbh layout.size
  let m₁ := newFromPtr h.mem mbh
  let diff := saturatingSub mbh cbh
  let m₂ := setSize m₁ mbh (saturatingSub (size m₁ cbh) diff)
  let (popped, h₁) := { h with mem := m₂ }.pop list
  if (← unwrap popped) = cbh then
    if cbh ≠ mbh then return (cbh, h₁.push list mbh)
    else .error (.panic "assertion failed: cbh.addr() != mbh.addr()")
  else .error (.panic "assertion failed: list.pop().unwrap() as usize == cbh.addr()")

def allocInner (fuel : Nat) (h : Heap) (layout : Layout) :
    Except Fault (Except AllocErr Nat × Heap) := do
  match ← findExactFreeBlock fuel h layout with
  | some node =>
    let (p, h') := node.pop h
    return (.ok p, h')
  | none =>
    match ← h.iter.fold (containsStep layout) fuel (some .head, none) h with
    | ((some list, some cbh), h') => do
      let (p, h'') ← splitBlock h' list cbh layout
      return (.ok p, h'')
    | (_, h') => return (.error (.exhausted layout), h')

def alloc (fuel : Nat) (self : Allocator) (layout : Layout) :
    Except Fault (Except AllocErr Nat × Allocator) := do
  let inner ← unwrap (← innerLayout layout)
  match ← allocInner fuel self.toHeap inner with
  | (.ok addr, h) => do
    let h' ← divideMaximally fuel h
    return (.ok addr, { self with toHeap := h' })
  | (.error (.exhausted _), h) => return (.error (.exhausted layout), { self with toHeap := h })
  | (.error e, h) => return (.error e, { self with toHeap := h })

/-! ## Deallocation -/

def insertStep (freed : Nat) : Scan → Nat → Heap → Except Fault (Scan × Heap) :=
  scanStep fun _ cur => decide (freed < cur)

def deallocInner (fuel : Nat) (h : Heap) (ptr : Nat) (layout : Layout) : Except Fault Heap := do
  match ← h.iter.fold (insertStep ptr) fuel (some .head, none) h with
  | ((some prev, some _), h') =>
    let m₁ := setSize (newFromPtr h'.mem ptr) ptr layout.size
    if ptr % layout.align = 0 then return { h' with mem := m₁ }.push prev ptr
    else .error (.panic "assertion failed: block_header.addr() % layout.align() == 0")
  | _ => .error (.panic "invalid pointer provided")

def dealloc (fuel : Nat) (self : Allocator) (ptr : Nat) (layout : Layout) : Except Fault Allocator := do
  if ptr < self.start ∨ ptr ≥ self.end then
    .error (.panic "deallocated pointer is not owned by allocator")
  else
    let inner ← unwrap (← innerLayout layout)
    let h ← deallocInner fuel self.toHeap ptr inner
    let h' ← defragment fuel h
    return { self with toHeap := h' }

end Allocator

end Osymandias
