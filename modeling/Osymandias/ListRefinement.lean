import Osymandias.Removal

/-!
# The intrusive list refines a pure one

A `LinkedList` keeps its links in its clients' memory, and its head wherever
its owner has put it: outside that memory, or in a word apart from the nodes.
Following the `next` words from the head gives a list of addresses. Every
operation acts on it as the operation on lists that it is named after, and
stores into no word but those it names.
-/

namespace Osymandias

open Fuel

def Heap.iterAt (h : Heap) (p : ListPtr) : Iter := ⟨(h.list p).head⟩

def Heap.iterMutAt (h : Heap) (p : ListPtr) : IterMut := ⟨p, (h.list p).head⟩

/-- `Iterator::nth`, on the iterator that `iter_mut` returned. -/
def IterMut.nth : Nat → IterMut → Memory → Option Node
  | 0, self, m => (self.next m).1
  | n + 1, self, m =>
    match self.next m with
    | (none, _) => none
    | (some _, self') => self'.nth n m

/-- `iter().collect()`, with the memory as the walk leaves it. -/
def Heap.collect (h : Heap) (p : ListPtr) (fuel : Nat) : Except Fault (List Nat × Heap) :=
  (h.iterAt p).fold (fun as a h => .ok (as ++ [a], h)) fuel [] h

/-- The list at `p` reaches the addresses `l`, word-disjoint and none of them null. -/
structure Heap.Lists (h : Heap) (p : ListPtr) (l : List Nat) : Prop where
  linked : Linked h.mem (h.list p).head l
  apart : WordsApart l
  clear : p.Clear l
  ptr : (h.list p).head < 2 ^ 64

/-- What `push` asks of its caller. -/
structure Fresh (p : ListPtr) (l : List Nat) (item : Nat) : Prop where
  nonnull : item ≠ 0
  ptr : item < 2 ^ 64
  apart : ApartFrom item l
  clear : p.Clear [item]

structure WritesOnly (ws : List ListPtr) (h h' : Heap) : Prop where
  head : .head ∉ ws → h'.head = h.head
  mem : ∀ x, (∀ a, .node a ∈ ws → ¬ (a ≤ x ∧ x < a + 8)) → h'.mem x = h.mem x

/-- The operations on the list at `p`, against those on `l`. -/
structure RefinesList (h : Heap) (p : ListPtr) (l : List Nat) : Prop where
  push : ∀ item, Fresh p l item →
    (h.push p item).Lists p (item :: l) ∧ WritesOnly [.node item, p] h (h.push p item)
  pop : (h.pop p).1 = l.head? ∧ (h.pop p).2.Lists p l.tail ∧ WritesOnly [p] h (h.pop p).2
  pop_nil : l = [] → h.pop p = (none, h)
  peek : (h.list p).peek = l.head?
  iter : Yields (h.collect p) (l, h)
  nth_none : ∀ i, l.length ≤ i → (h.iterMutAt p).nth i h.mem = none
  node_pop : ∀ i a, l[i]? = some a → ∃ node, (h.iterMutAt p).nth i h.mem = some node ∧ (node.pop h).1 = a ∧
    (node.pop h).2.Lists p (l.eraseIdx i) ∧ WritesOnly [ptrAfter p (l.take i)] h (node.pop h).2

/-! ## What is written -/

theorem WritesOnly.setList (h : Heap) (p : ListPtr) (l : LinkedList) : WritesOnly [p] h (h.setList p l) := by
  cases p with
  | head => exact ⟨fun hnot => absurd (by simp) hnot, fun _ _ => rfl⟩
  | node a =>
    refine ⟨fun _ => rfl, ?_⟩
    intro x hx
    exact setWord_of_outside _ _ _ (hx a (by simp))

theorem WritesOnly.trans {ws ws' : List ListPtr} {h h' h'' : Heap} (h₁ : WritesOnly ws h h')
    (h₂ : WritesOnly ws' h' h'') : WritesOnly (ws ++ ws') h h'' := by
  refine ⟨?_, ?_⟩
  · intro hnot
    rw [List.mem_append, not_or] at hnot
    rw [h₂.head hnot.2, h₁.head hnot.1]
  · intro x hx
    rw [h₂.mem x fun a ha => hx a (List.mem_append_right ws ha),
      h₁.mem x fun a ha => hx a (List.mem_append_left ws' ha)]

/-! ## The operations -/

section
variable {h : Heap} {p : ListPtr} {l : List Nat}

theorem Heap.push_eq (h : Heap) (p : ListPtr) (item : Nat) :
    h.push p item = (h.setList (.node item) (h.list p)).setList p ⟨item⟩ := rfl

theorem Heap.Lists.push (hl : h.Lists p l) {item : Nat} (hf : Fresh p l item) :
    (h.push p item).Lists p (item :: l) := by
  rw [Heap.push_eq]
  refine ⟨?_, ?_, ?_, ?_⟩
  · rw [list_setList p hf.ptr]
    refine ⟨rfl, hf.nonnull, ?_⟩
    have hword : word ((h.setList (.node item) (h.list p)).setList p ⟨item⟩).mem item = (h.list p).head := by
      rw [word_setList_of_clear hf.clear]
      exact word_setWord_self _ _ hl.ptr
    rw [hword]
    apply linked_congr hl.linked
    intro b hb
    rw [word_setList_of_clear (hl.clear.mono (by simp [hb]))]
    exact word_setWord_of_apart _ _ (hf.apart b hb)
  · exact List.pairwise_cons.mpr ⟨hf.apart, hl.apart⟩
  · cases p with
    | head => exact trivial
    | node w =>
      intro b hb
      rcases List.mem_cons.mp hb with rfl | hb
      · exact hf.clear b (by simp)
      · exact hl.clear b hb
  · rw [list_setList p hf.ptr]
    exact hf.ptr

theorem list_setList_lt {q : ListPtr} {r : Nat} (hr : r < 2 ^ 64) (hp : (h.list p).head < 2 ^ 64) :
    ((h.setList q ⟨r⟩).list p).head < 2 ^ 64 := by
  cases p with
  | head =>
    cases q with
    | head => exact hr
    | node a => exact hp
  | node w => exact word_lt _ _

theorem Heap.Lists.unlink {xs ys : List Nat} {a : Nat} (hl : h.Lists p (xs ++ a :: ys)) :
    (h.setList (ptrAfter p xs) ⟨word h.mem a⟩).Lists p (xs ++ ys) := by
  refine ⟨hl.linked.unlink hl.apart hl.clear, hl.apart.erase, ?_, list_setList_lt (word_lt _ _) hl.ptr⟩
  apply hl.clear.mono
  intro b hb
  rcases List.mem_append.mp hb with hb | hb
  · exact List.mem_append_left _ hb
  · exact List.mem_append_right _ (List.mem_cons_of_mem a hb)

theorem Heap.Lists.pop_nil (hl : h.Lists p []) : h.pop p = (none, h) := by
  unfold Heap.pop
  rw [LinkedList.pop_nil hl.linked]

theorem Heap.Lists.pop_cons {a : Nat} (hl : h.Lists p (a :: l)) :
    h.pop p = (some a, h.setList p ⟨word h.mem a⟩) := by
  unfold Heap.pop
  rw [LinkedList.pop_cons hl.linked]

theorem Heap.Lists.pop_tail {a : Nat} (hl : h.Lists p (a :: l)) : (h.setList p ⟨word h.mem a⟩).Lists p l := by
  have hun : (h.setList (ptrAfter p []) ⟨word h.mem a⟩).Lists p ([] ++ l) := hl.unlink
  exact hun

theorem Heap.Lists.peek (hl : h.Lists p l) : (h.list p).peek = l.head? := by
  cases l with
  | nil =>
    show (h.iterAt p).peek = none
    exact Iter.peek_nil hl.linked
  | cons a l =>
    show (h.iterAt p).peek = some a
    exact Iter.peek_cons hl.linked

theorem Heap.Lists.collect (hl : h.Lists p l) : Yields (h.collect p) (l, h) := by
  apply yields_of_returns
  intro fuel
  apply (Iter.fold_collect (fun a _ => a) h fuel l [] (h.iterAt p) hl.linked).mono
  intro r hr
  simpa using hr

end

/-! ## Stopping at a position -/

theorem IterMut.nth_length {m : Memory} {a : Nat} {ys : List Nat} : ∀ {xs : List Nat} (it : IterMut),
    Linked m it.current (xs ++ a :: ys) → it.nth xs.length m = some ⟨ptrAfter it.prev xs, a⟩
  | [], it, hl => by
    rw [List.length_nil, IterMut.nth, IterMut.next_cons hl]
    rfl
  | x :: xs, it, hl => by
    rw [List.length_cons, IterMut.nth, IterMut.next_cons hl]
    exact nth_length ⟨.node x, word m x⟩ hl.2.2

theorem IterMut.nth_none {m : Memory} : ∀ {l : List Nat} (it : IterMut) {i : Nat}, Linked m it.current l →
    l.length ≤ i → it.nth i m = none
  | [], it, 0, hl, _ => by rw [IterMut.nth, IterMut.next_nil hl]
  | [], it, i + 1, hl, _ => by rw [IterMut.nth, IterMut.next_nil hl]
  | a :: l, it, i + 1, hl, hi => by
    rw [IterMut.nth, IterMut.next_cons hl]
    exact nth_none ⟨.node a, word m a⟩ hl.2.2 (Nat.le_of_succ_le_succ hi)

theorem take_append_of_getElem? {l : List Nat} {i a : Nat} (ha : l[i]? = some a) :
    l = l.take i ++ a :: l.drop (i + 1) ∧ (l.take i).length = i := by
  obtain ⟨hi, rfl⟩ := List.getElem?_eq_some_iff.mp ha
  refine ⟨?_, List.length_take_of_le hi.le⟩
  rw [List.getElem_cons_drop, List.take_append_drop]

section
variable {h : Heap} {p : ListPtr} {l : List Nat}

theorem Heap.Lists.node_pop (hl : h.Lists p l) {i a : Nat} (ha : l[i]? = some a) :
    ∃ node, (h.iterMutAt p).nth i h.mem = some node ∧ (node.pop h).1 = a ∧
      (node.pop h).2.Lists p (l.eraseIdx i) ∧ WritesOnly [ptrAfter p (l.take i)] h (node.pop h).2 := by
  obtain ⟨hsplit, hlen⟩ := take_append_of_getElem? ha
  have hlink := hl.linked
  rw [hsplit] at hlink
  have hnth := IterMut.nth_length (h.iterMutAt p) hlink
  rw [hlen] at hnth
  refine ⟨_, hnth, rfl, ?_, WritesOnly.setList h _ _⟩
  rw [List.eraseIdx_eq_take_drop_succ]
  rw [hsplit] at hl
  exact hl.unlink

/-- **Refinement.** Under the list that its `next` words spell, a `LinkedList` is a list. -/
theorem lists_refine (hl : h.Lists p l) : RefinesList h p l where
  push item hf := by
    refine ⟨hl.push hf, ?_⟩
    have hitem := WritesOnly.setList h (.node item) (h.list p)
    exact hitem.trans (WritesOnly.setList _ p ⟨item⟩)
  pop := by
    cases l with
    | nil =>
      rw [hl.pop_nil]
      exact ⟨rfl, hl, fun _ => rfl, fun _ _ => rfl⟩
    | cons a l =>
      rw [hl.pop_cons]
      exact ⟨rfl, hl.pop_tail, WritesOnly.setList h p _⟩
  pop_nil hnil := by
    subst hnil
    exact hl.pop_nil
  peek := hl.peek
  iter := hl.collect
  nth_none i hi := IterMut.nth_none (h.iterMutAt p) hl.linked hi
  node_pop i a ha := hl.node_pop ha

end

theorem threeNodes_refine : RefinesList threeNodes .head [16, 32, 48] ∧ Fresh .head [16, 32, 48] 64 := by
  refine ⟨lists_refine ⟨threeNodes_holds, threeNodes_apart, trivial, by decide⟩, by decide, by decide, ?_, trivial⟩
  unfold ApartFrom
  decide

/-! ## Runs -/

inductive ListOp where
  | push (item : Nat)
  | pop
  | peek
  | iter
  | popAt (i : Nat)
  deriving DecidableEq, Repr

inductive ListOut where
  | unit
  | ptr (value : Option Nat)
  | ptrs (values : List Nat)
  deriving DecidableEq, Repr

/-- `popAt i` pops the node at which `iter_mut` was stopped, if there is one. -/
def Heap.listOp (p : ListPtr) (fuel : Nat) (h : Heap) : ListOp → Except Fault (ListOut × Heap)
  | .push item => return (.unit, h.push p item)
  | .pop =>
    let (value, h') := h.pop p
    return (.ptr value, h')
  | .peek => return (.ptr (h.list p).peek, h)
  | .iter => do
    let (values, h') ← h.collect p fuel
    return (.ptrs values, h')
  | .popAt i =>
    match (h.iterMutAt p).nth i h.mem with
    | none => return (.ptr none, h)
    | some node =>
      let (value, h') := node.pop h
      return (.ptr (some value), h')

def Heap.listRun (p : ListPtr) (fuel : Nat) : Heap → List ListOp → Except Fault (List ListOut × Heap)
  | h, [] => .ok ([], h)
  | h, op :: ops => do
    let (out, h') ← h.listOp p fuel op
    let (outs, h'') ← h'.listRun p fuel ops
    return (out :: outs, h'')

/-- The same operations on a list. -/
def ListOp.spec (l : List Nat) : ListOp → ListOut × List Nat
  | .push item => (.unit, item :: l)
  | .pop => (.ptr l.head?, l.tail)
  | .peek => (.ptr l.head?, l)
  | .iter => (.ptrs l, l)
  | .popAt i => (.ptr l[i]?, l.eraseIdx i)

def ListOp.specRun : List Nat → List ListOp → List ListOut × List Nat
  | l, [] => ([], l)
  | l, op :: ops => ((op.spec l).1 :: (specRun (op.spec l).2 ops).1, (specRun (op.spec l).2 ops).2)

def ListOp.Allowed (p : ListPtr) (l : List Nat) : ListOp → Prop
  | .push item => Fresh p l item
  | _ => True

def ListOp.AllowedRun (p : ListPtr) : List Nat → List ListOp → Prop
  | _, [] => True
  | l, op :: ops => op.Allowed p l ∧ AllowedRun p (op.spec l).2 ops

section
variable {h : Heap} {p : ListPtr} {l : List Nat}

theorem Heap.Lists.step (hl : h.Lists p l) {op : ListOp} (hop : op.Allowed p l) :
    ∃ h', Yields (fun fuel => h.listOp p fuel op) ((op.spec l).1, h') ∧ h'.Lists p (op.spec l).2 := by
  cases op with
  | push item => exact ⟨_, ⟨0, fun _ _ => rfl⟩, hl.push hop⟩
  | pop =>
    cases l with
    | nil =>
      refine ⟨h, ⟨0, fun fuel _ => ?_⟩, hl⟩
      simp only [Heap.listOp, hl.pop_nil]
      rfl
    | cons a l =>
      refine ⟨_, ⟨0, fun fuel _ => ?_⟩, hl.pop_tail⟩
      simp only [Heap.listOp, hl.pop_cons]
      rfl
  | peek =>
    refine ⟨h, ⟨0, fun fuel _ => ?_⟩, hl⟩
    simp only [Heap.listOp, hl.peek]
    rfl
  | iter =>
    obtain ⟨n, hn⟩ := hl.collect
    refine ⟨h, ⟨n, fun fuel hf => ?_⟩, hl⟩
    simp only [Heap.listOp, hn fuel hf]
    rfl
  | popAt i =>
    cases ha : l[i]? with
    | none =>
      have hi := List.getElem?_eq_none_iff.mp ha
      refine ⟨h, ⟨0, fun fuel _ => ?_⟩, ?_⟩
      · simp only [Heap.listOp, IterMut.nth_none (h.iterMutAt p) hl.linked hi, ListOp.spec, ha]
        rfl
      · simp only [ListOp.spec, List.eraseIdx_of_length_le hi]
        exact hl
    | some a =>
      obtain ⟨node, hnth, hval, hl', -⟩ := hl.node_pop ha
      refine ⟨_, ⟨0, fun fuel _ => ?_⟩, hl'⟩
      simp only [Heap.listOp, hnth, ListOp.spec, ha, ← hval]
      rfl

/-- Runs. However the operations are mixed, a list in memory answers as the pure one. -/
theorem Heap.Lists.run : ∀ {ops : List ListOp} {l : List Nat} {h : Heap}, h.Lists p l → ListOp.AllowedRun p l ops →
    ∃ h', Yields (fun fuel => h.listRun p fuel ops) ((ListOp.specRun l ops).1, h') ∧
      h'.Lists p (ListOp.specRun l ops).2
  | [], _, h, hl, _ => ⟨h, ⟨0, fun _ _ => rfl⟩, hl⟩
  | op :: ops, l, h, hl, hops => by
    obtain ⟨h₁, ⟨n, hn⟩, hl₁⟩ := hl.step hops.1
    obtain ⟨h₂, ⟨k, hk⟩, hl₂⟩ := hl₁.run hops.2
    refine ⟨h₂, ⟨max n k, fun fuel hf => ?_⟩, hl₂⟩
    have hstep := hn fuel ((Nat.le_max_left n k).trans hf)
    have hrest := hk fuel ((Nat.le_max_right n k).trans hf)
    simp only at hstep hrest
    simp only [Heap.listRun, hstep, bind, Except.bind, hrest]
    rfl

end

end Osymandias
