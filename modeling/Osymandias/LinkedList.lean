import Osymandias.Bytes
import Osymandias.Usize

/-!
# The intrusive linked list

`allocator/linked_list.rs`. A list is one pointer; the `next` pointer of a node
is the word stored at the node's own address. `Heap` is a list's head pointer
together with the memory its nodes live in, and a `ListPtr` is a
`*mut LinkedList` into it: the head itself, or the word of a node.
-/

namespace Osymandias

open Fuel

abbrev Memory := Nat → UInt8

def word (m : Memory) (a : Nat) : Nat := Bytes.read m a 8

def setWord (m : Memory) (a v : Nat) : Memory := Bytes.write m a 8 v

structure LinkedList where
  head : Nat
  deriving DecidableEq, Repr

namespace LinkedList

def new : LinkedList := ⟨0⟩

def isEmpty (self : LinkedList) : Bool := self.head == 0

def peek (self : LinkedList) : Option Nat :=
  match self.isEmpty with
  | true => none
  | false => some self.head

def push (self : LinkedList) (m : Memory) (item : Nat) : LinkedList × Memory :=
  (⟨item⟩, setWord m item self.head)

def pop (self : LinkedList) (m : Memory) : Option Nat × LinkedList :=
  match self.peek with
  | none => (none, self)
  | some value => (some value, ⟨word m value⟩)

end LinkedList

structure Heap where
  head : LinkedList
  mem : Memory

inductive ListPtr where
  | head
  | node (a : Nat)
  deriving DecidableEq, Repr

namespace Heap

def list (h : Heap) : ListPtr → LinkedList
  | .head => h.head
  | .node a => ⟨word h.mem a⟩

def setList (h : Heap) : ListPtr → LinkedList → Heap
  | .head, l => { h with head := l }
  | .node a, l => { h with mem := setWord h.mem a l.head }

def push (h : Heap) (p : ListPtr) (item : Nat) : Heap :=
  let (l, m) := (h.list p).push h.mem item
  { h with mem := m }.setList p l

def pop (h : Heap) (p : ListPtr) : Option Nat × Heap :=
  match (h.list p).pop h.mem with
  | (none, _) => (none, h)
  | (some value, l) => (some value, h.setList p l)

end Heap

/-! ## Iterators -/

structure Iter where
  current : Nat
  deriving DecidableEq, Repr

def Heap.iter (h : Heap) : Iter := ⟨h.head.head⟩

namespace Iter

def peek (self : Iter) : Option Nat := (LinkedList.mk self.current).peek

def next (self : Iter) (m : Memory) : Option Nat × Iter :=
  match (LinkedList.mk self.current).pop m with
  | (none, _) => (none, self)
  | (some value, list) => (some value, ⟨list.head⟩)

def fold {β : Type} (f : β → Nat → Heap → Except Fault (β × Heap)) :
    Nat → Iter → β → Heap → Except Fault (β × Heap)
  | 0, _, _, _ => .error .outOfFuel
  | fuel + 1, self, acc, h =>
    match self.next h.mem with
    | (none, _) => .ok (acc, h)
    | (some value, self') => do
      let (acc', h') ← f acc value h
      fold f fuel self' acc' h'

end Iter

structure Node where
  prev : ListPtr
  value : Nat
  deriving DecidableEq, Repr

def Node.pop (self : Node) (h : Heap) : Nat × Heap :=
  (self.value, h.setList self.prev ⟨word h.mem self.value⟩)

structure IterMut where
  prev : ListPtr
  current : Nat
  deriving DecidableEq, Repr

def Heap.iterMut (h : Heap) : IterMut := ⟨.head, h.head.head⟩

namespace IterMut

def next (self : IterMut) (m : Memory) : Option Node × IterMut :=
  match (LinkedList.mk self.current).pop m with
  | (none, _) => (none, self)
  | (some value, list) => (some ⟨self.prev, value⟩, ⟨.node self.current, list.head⟩)

def find (p : Node → Bool) : Nat → IterMut → Memory → Except Fault (Option Node)
  | 0, _, _ => .error .outOfFuel
  | fuel + 1, self, m =>
    match self.next m with
    | (none, _) => .ok none
    | (some node, self') => if p node then .ok (some node) else find p fuel self' m

end IterMut

/-! ## Words -/

theorem word_lt (m : Memory) (a : Nat) : word m a < 2 ^ 64 := Bytes.read_lt m 8 a

theorem setWord_of_outside (m : Memory) (a v : Nat) {x : Nat} (h : ¬ (a ≤ x ∧ x < a + 8)) :
    setWord m a v x = m x :=
  Bytes.write_of_not_mem m 8 a v fun hx => h (Bytes.mem_cells.mp hx)

@[simp] theorem word_setWord_self (m : Memory) (a : Nat) {v : Nat} (h : v < 2 ^ 64) :
    word (setWord m a v) a = v := by
  rw [word, setWord, Bytes.read_write_self m 8 a v (Bytes.nodup_cells 8 a)]
  exact Nat.mod_eq_of_lt h

theorem word_congr {m m' : Memory} {a : Nat} (h : ∀ x, a ≤ x → x < a + 8 → m x = m' x) :
    word m a = word m' a :=
  Bytes.read_congr 8 a fun x hx => h x (Bytes.mem_cells.mp hx).1 (Bytes.mem_cells.mp hx).2

theorem word_setWord_of_apart (m : Memory) {a b : Nat} (v : Nat) (h : a + 8 ≤ b ∨ b + 8 ≤ a) :
    word (setWord m a v) b = word m b :=
  word_congr fun x h₁ h₂ => setWord_of_outside m a v (by omega)

/-! ## The list a pointer reaches -/

def Linked (m : Memory) : Nat → List Nat → Prop
  | p, [] => p = 0
  | p, a :: as => p = a ∧ a ≠ 0 ∧ Linked m (word m a) as

def WordsApart (as : List Nat) : Prop := as.Pairwise fun a b => a + 8 ≤ b ∨ b + 8 ≤ a

def ptrAfter (p : ListPtr) : List Nat → ListPtr
  | [] => p
  | a :: as => ptrAfter (.node a) as

theorem linked_congr {m m' : Memory} : ∀ {as : List Nat} {p : Nat}, Linked m p as →
    (∀ a ∈ as, word m' a = word m a) → Linked m' p as
  | [], _, h, _ => h
  | a :: as, p, ⟨hp, ha, h⟩, hw => by
    refine ⟨hp, ha, ?_⟩
    rw [hw a (by simp)]
    exact linked_congr h fun b hb => hw b (by simp [hb])

theorem Linked.head_eq {m : Memory} {p : Nat} {as : List Nat} (h : Linked m p as) : p = as.headD 0 := by
  cases as with
  | nil => exact h
  | cons a as => exact h.1

theorem Linked.suffix {m : Memory} : ∀ {xs ys : List Nat} {p : Nat}, Linked m p (xs ++ ys) →
    Linked m (ys.headD 0) ys
  | [], _, _, h => h.head_eq ▸ h
  | _ :: _, _, _, ⟨_, _, h⟩ => h.suffix

theorem Linked.replace {m m' : Memory} : ∀ {xs ys zs : List Nat} {p : Nat}, Linked m p (xs ++ ys) →
    (∀ a ∈ xs, word m' a = word m a) → Linked m' (ys.headD 0) zs → Linked m' p (xs ++ zs)
  | [], ys, zs, p, h, _, hz => by rw [List.nil_append] at h ⊢; rw [h.head_eq]; exact hz
  | a :: xs, ys, zs, p, ⟨hp, ha, h⟩, hw, hz => by
    refine ⟨hp, ha, ?_⟩
    rw [hw a (by simp)]
    exact h.replace (fun b hb => hw b (by simp [hb])) hz

theorem Linked.snoc {m m' : Memory} {a r : Nat} : ∀ {xs ys zs : List Nat} {p : Nat},
    Linked m p (xs ++ a :: ys) → (∀ b ∈ xs, word m' b = word m b) → word m' a = r → Linked m' r zs →
    Linked m' p (xs ++ a :: zs) := by
  intro xs ys zs p h hw hr hz
  refine h.replace hw ⟨rfl, ?_, ?_⟩
  · exact h.suffix.2.1
  · rw [hr]; exact hz

theorem ptrAfter_snoc (a : Nat) : ∀ (as : List Nat) (p : ListPtr), ptrAfter p (as ++ [a]) = .node a
  | [], _ => rfl
  | _ :: as, _ => ptrAfter_snoc a as _

namespace Heap

def Holds (h : Heap) (as : List Nat) : Prop := Linked h.mem h.head.head as

theorem list_ptrAfter {h : Heap} : ∀ {xs ys : List Nat}, h.Holds (xs ++ ys) →
    (h.list (ptrAfter .head xs)).head = ys.headD 0 := by
  intro xs ys hh
  rcases List.eq_nil_or_concat xs with rfl | ⟨xs', a, rfl⟩
  · exact hh.head_eq
  · rw [List.concat_eq_append] at hh ⊢
    rw [ptrAfter_snoc]
    rw [List.append_assoc, List.singleton_append] at hh
    exact hh.suffix.2.2.head_eq

end Heap

/-! ## Storing behind a node -/

def ApartFrom (d : Nat) (as : List Nat) : Prop := ∀ a ∈ as, d + 8 ≤ a ∨ a + 8 ≤ d

/-- A list pointer stored in memory is stored apart from the nodes. -/
def ListPtr.Clear (as : List Nat) : ListPtr → Prop
  | .head => True
  | .node w => ApartFrom w as

section
variable {h : Heap} {p : ListPtr}

theorem ListPtr.Clear.mono {as bs : List Nat} (hp : p.Clear as) (hsub : ∀ b ∈ bs, b ∈ as) : p.Clear bs := by
  cases p with
  | head => exact trivial
  | node w => exact fun b hb => hp b (hsub b hb)

theorem ptrAfter_clear {xs ys : List Nat} (hp : p.Clear (xs ++ ys)) (hap : WordsApart (xs ++ ys)) :
    (ptrAfter p xs).Clear ys := by
  rcases List.eq_nil_or_concat xs with rfl | ⟨xs', c, rfl⟩
  · exact hp
  · rw [List.concat_eq_append] at hap ⊢
    rw [ptrAfter_snoc]
    exact (List.pairwise_append.mp hap).2.2 c (by simp)

theorem word_setList_of_clear {b : Nat} (hp : p.Clear [b]) (l : LinkedList) :
    word (h.setList p l).mem b = word h.mem b := by
  cases p with
  | head => rfl
  | node w => exact word_setWord_of_apart _ _ (hp b (by simp))

theorem list_setList (p : ListPtr) {r : Nat} (hr : r < 2 ^ 64) : ((h.setList p ⟨r⟩).list p).head = r := by
  cases p with
  | head => rfl
  | node w => exact word_setWord_self _ _ hr

/-- Splicing. Storing `r` behind the nodes `xs` makes the list go on with
whatever `r` reaches. -/
theorem Linked.splice {xs ys zs : List Nat} {r : Nat} (hh : Linked h.mem (h.list p).head (xs ++ ys))
    (hr : r < 2 ^ 64) (hap : WordsApart xs) (hp : p.Clear xs)
    (hz : Linked (h.setList (ptrAfter p xs) ⟨r⟩).mem r zs) :
    Linked (h.setList (ptrAfter p xs) ⟨r⟩).mem ((h.setList (ptrAfter p xs) ⟨r⟩).list p).head (xs ++ zs) := by
  rcases List.eq_nil_or_concat xs with rfl | ⟨xs', a, rfl⟩
  · rw [ptrAfter, list_setList p hr]
    exact hz
  · rw [List.concat_eq_append] at *
    rw [ptrAfter_snoc] at *
    rw [List.append_assoc, List.singleton_append] at *
    have hhead : ((h.setList (.node a) ⟨r⟩).list p).head = (h.list p).head := by
      cases p with
      | head => rfl
      | node w => exact word_setWord_of_apart _ _ (hp a (by simp)).symm
    rw [hhead]
    refine hh.snoc (fun b hb => ?_) (word_setWord_self _ _ hr) hz
    have := (List.pairwise_append.mp hap).2.2 b hb a (by simp)
    exact word_setWord_of_apart _ _ (by omega)

/-- Unlinking. Storing a node's `next` word into its predecessor takes the node out. -/
theorem Linked.unlink {xs ys : List Nat} {a : Nat} (hh : Linked h.mem (h.list p).head (xs ++ a :: ys))
    (hap : WordsApart (xs ++ a :: ys)) (hp : p.Clear (xs ++ a :: ys)) :
    Linked (h.setList (ptrAfter p xs) ⟨word h.mem a⟩).mem
      ((h.setList (ptrAfter p xs) ⟨word h.mem a⟩).list p).head (xs ++ ys) := by
  refine hh.splice (word_lt _ _) (List.pairwise_append.mp hap).1 (hp.mono fun b hb => by simp [hb]) ?_
  apply linked_congr hh.suffix.2.2
  intro b hb
  exact word_setList_of_clear ((ptrAfter_clear hp hap).mono (by simp [hb])) _

end

/-! ## What the iterators yield -/

section
variable {m : Memory} {a : Nat} {as : List Nat}

theorem LinkedList.peek_of_ne {p : Nat} (h : p ≠ 0) : (LinkedList.mk p).peek = some p := by
  simp only [LinkedList.peek, LinkedList.isEmpty, beq_eq_false_iff_ne.mpr h]

theorem LinkedList.pop_nil {p : Nat} (h : Linked m p []) : (LinkedList.mk p).pop m = (none, ⟨p⟩) := by
  cases h; rfl

theorem LinkedList.pop_cons {p : Nat} (h : Linked m p (a :: as)) :
    (LinkedList.mk p).pop m = (some a, ⟨word m a⟩) := by
  obtain ⟨rfl, hp, -⟩ := h
  rw [LinkedList.pop, LinkedList.peek_of_ne hp]

theorem Iter.next_nil {it : Iter} (h : Linked m it.current []) : it.next m = (none, it) := by
  simp only [Iter.next, LinkedList.pop_nil h]

theorem Iter.next_cons {it : Iter} (h : Linked m it.current (a :: as)) :
    it.next m = (some a, ⟨word m a⟩) := by
  simp only [Iter.next, LinkedList.pop_cons h]

theorem Iter.peek_nil {it : Iter} (h : Linked m it.current []) : it.peek = none := by
  have h0 : it.current = 0 := h
  rw [Iter.peek, h0]
  rfl

theorem Iter.peek_cons {it : Iter} (h : Linked m it.current (a :: as)) : it.peek = some a := by
  obtain ⟨rfl, hp, -⟩ := h
  exact LinkedList.peek_of_ne hp

/-- A fold that collects something of every node, and leaves the heap alone. -/
theorem Iter.fold_collect {β : Type} (f : Nat → Heap → β) (h : Heap) : ∀ (fuel : Nat) (as : List Nat) (acc : List β)
    (it : Iter), Linked h.mem it.current as →
    Returns fuel (as.length + 1) (it.fold (fun acc a h => .ok (acc ++ [f a h], h)) fuel acc h) fun r =>
      r = (acc ++ as.map fun a => f a h, h)
  | 0, _, _, _, _ => .inr ⟨rfl, Nat.succ_pos _⟩
  | fuel + 1, [], acc, it, hl => by
    rw [Iter.fold, Iter.next_nil hl]
    exact .ok (by simp)
  | fuel + 1, a :: as, acc, it, hl => by
    rw [Iter.fold, Iter.next_cons hl]
    have ih := fold_collect f h fuel as (acc ++ [f a h]) ⟨word h.mem a⟩ hl.2.2
    simp only [bind, Except.bind]
    apply ih.step.mono
    intro r hr
    rw [hr, List.append_assoc]
    rfl

theorem IterMut.next_nil {it : IterMut} (h : Linked m it.current []) : it.next m = (none, it) := by
  simp only [IterMut.next, LinkedList.pop_nil h]

theorem IterMut.next_cons {it : IterMut} (h : Linked m it.current (a :: as)) :
    it.next m = (some ⟨it.prev, a⟩, ⟨.node a, word m a⟩) := by
  simp only [IterMut.next, LinkedList.pop_cons h]
  rw [h.1]

end

end Osymandias
