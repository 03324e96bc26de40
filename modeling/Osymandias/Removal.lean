import Osymandias.LinkedList

/-!
# Removal while iterating

The loop `for node in list.iter_mut() { if pred(node.value()) { node.pop(); } }`.
`IterMut::next` makes the node it returns the predecessor of the next one,
whether or not the loop goes on to pop it. After a pop the predecessor is no
longer in the list, and the next pop stores into a word nobody reads.
-/

namespace Osymandias

open Fuel

/-- The loop, with the values it has seen. -/
def IterMut.popWhere (pred : Nat → Bool) : Nat → IterMut → List Nat → Heap → Except Fault (List Nat × Heap)
  | 0, _, _, _ => .error .outOfFuel
  | fuel + 1, self, visited, h =>
    match self.next h.mem with
    | (none, _) => .ok (visited, h)
    | (some node, self') =>
      let h' := if pred node.value then (node.pop h).2 else h
      popWhere pred fuel self' (visited ++ [node.value]) h'

def Heap.popWhere (h : Heap) (pred : Nat → Bool) (fuel : Nat) : Except Fault (List Nat × Heap) :=
  h.iterMut.popWhere pred fuel [] h

def Heap.elements (h : Heap) (fuel : Nat) : Except Fault (List Nat) := do
  let (as, _) ← h.iter.fold (fun as a h => .ok (as ++ [a], h)) fuel [] h
  return as

/-! ## The elements -/

theorem Heap.Holds.elements {h : Heap} {as : List Nat} (hh : h.Holds as) : Yields h.elements as := by
  refine ⟨as.length + 1, fun fuel hf => ?_⟩
  obtain ⟨r, hr, rfl⟩ := (Iter.fold_collect (fun a _ => a) h fuel as [] h.iter hh).total hf
  unfold Heap.elements
  rw [hr]
  simp [bind, Except.bind, pure, Except.pure]

/-! ## Where the cursor stands -/

/-- The iterator has passed `kept` and stands before `rest`. Its predecessor is
the last node kept, or else a node that is no longer in the list. -/
structure Before (h : Heap) (it : IterMut) (linked : Bool) (kept rest : List Nat) : Prop where
  holds : h.Holds (kept ++ rest)
  apart : WordsApart (kept ++ rest)
  current : Linked h.mem it.current rest
  prev : if linked then it.prev = ptrAfter .head kept else ∃ d, it.prev = .node d ∧ ApartFrom d (kept ++ rest)

section
variable {h : Heap} {it : IterMut} {linked : Bool} {kept rest : List Nat} {a : Nat}

theorem setList_node_holds {d r : Nat} {as : List Nat} (hh : h.Holds as) (hd : ApartFrom d as) :
    (h.setList (.node d) ⟨r⟩).Holds as :=
  linked_congr hh fun b hb => word_setWord_of_apart _ _ (hd b hb)

theorem ApartFrom.of_wordsApart (hap : WordsApart (kept ++ a :: rest)) : ApartFrom a (kept ++ rest) := by
  intro b hb
  obtain ⟨-, hrest, hcross⟩ := List.pairwise_append.mp hap
  rcases List.mem_append.mp hb with hb | hb
  · exact (hcross b hb a List.mem_cons_self).symm
  · exact (List.pairwise_cons.mp hrest).1 b hb

theorem WordsApart.erase (hap : WordsApart (kept ++ a :: rest)) : WordsApart (kept ++ rest) := by
  refine hap.sublist ?_
  apply List.Sublist.append_left
  exact List.sublist_cons_self a rest

theorem Before.keep (hb : Before h it linked kept (a :: rest)) :
    Before h ⟨.node a, word h.mem a⟩ true (kept ++ [a]) rest := by
  refine ⟨?_, ?_, hb.current.2.2, ?_⟩
  · rw [List.append_assoc]
    exact hb.holds
  · rw [List.append_assoc]
    exact hb.apart
  · rw [if_pos rfl, ptrAfter_snoc]

theorem Before.pop_linked (hb : Before h it true kept (a :: rest)) :
    Before (h.setList it.prev ⟨word h.mem a⟩) ⟨.node a, word h.mem a⟩ false kept rest := by
  have hp : it.prev = ptrAfter .head kept := hb.prev
  rw [hp]
  have hclear : (ptrAfter .head kept).Clear (a :: rest) := ptrAfter_clear trivial hb.apart
  refine ⟨Linked.unlink hb.holds hb.apart trivial, hb.apart.erase, ?_, ?_⟩
  · apply linked_congr hb.current.2.2
    intro b hb'
    exact word_setList_of_clear (hclear.mono (by simp [hb'])) _
  · exact ⟨a, rfl, ApartFrom.of_wordsApart hb.apart⟩

theorem Before.pop_unlinked (hb : Before h it false kept (a :: rest)) :
    Before (h.setList it.prev ⟨word h.mem a⟩) ⟨.node a, word h.mem a⟩ true (kept ++ [a]) rest := by
  obtain ⟨d, hp, hd⟩ := hb.prev
  have hk := hb.keep
  rw [hp]
  have hd' : ApartFrom d (kept ++ [a] ++ rest) := by
    rw [List.append_assoc]
    exact hd
  refine ⟨setList_node_holds hk.holds hd', hk.apart, ?_, hk.prev⟩
  exact linked_congr hk.current fun b hb' => word_setWord_of_apart _ _ (hd b (by simp [hb']))

end

/-! ## The loop -/

/-- What is left of the list; the flag says whether the predecessor is in it. -/
def survivors (pred : Nat → Bool) : Bool → List Nat → List Nat
  | _, [] => []
  | true, a :: as => if pred a then survivors pred false as else a :: survivors pred true as
  | false, a :: as => a :: survivors pred true as

section
variable {pred : Nat → Bool} {visited : List Nat} {h h' : Heap} {it it' : IterMut} {a : Nat} {rest : List Nat}

theorem IterMut.popWhere_step (hl : Linked h.mem it.current (a :: rest)) (fuel : Nat) :
    it.popWhere pred (fuel + 1) visited h =
      IterMut.popWhere pred fuel ⟨.node a, word h.mem a⟩ (visited ++ [a])
        (if pred a then h.setList it.prev ⟨word h.mem a⟩ else h) := by
  rw [IterMut.popWhere, IterMut.next_cons hl]
  rfl

end

theorem popWhere_spec (pred : Nat → Bool) : ∀ (rest kept visited : List Nat) (linked : Bool) (it : IterMut)
    (h : Heap), Before h it linked kept rest → ∃ h', h'.Holds (kept ++ survivors pred linked rest) ∧
      ∀ fuel, rest.length < fuel → it.popWhere pred fuel visited h = .ok (visited ++ rest, h')
  | [], kept, visited, linked, it, h, hb => by
    refine ⟨h, ?_, fun fuel hf => ?_⟩
    · cases linked <;> exact hb.holds
    · obtain ⟨n, rfl⟩ := Nat.exists_eq_succ_of_ne_zero (Nat.ne_of_gt hf)
      rw [IterMut.popWhere, IterMut.next_nil hb.current, List.append_nil]
  | a :: rest, kept, visited, linked, it, h, hb => by
    -- the cursor after this node, and what the node leaves behind
    obtain ⟨kept', linked', hb', hs⟩ : ∃ kept' linked',
        Before (if pred a then h.setList it.prev ⟨word h.mem a⟩ else h) ⟨.node a, word h.mem a⟩ linked' kept' rest ∧
        kept ++ survivors pred linked (a :: rest) = kept' ++ survivors pred linked' rest := by
      by_cases hp : pred a = true
      · rw [if_pos hp]
        cases linked with
        | true => exact ⟨kept, false, hb.pop_linked, by simp [survivors, hp]⟩
        | false => exact ⟨kept ++ [a], true, hb.pop_unlinked, by simp [survivors]⟩
      · rw [if_neg hp]
        refine ⟨kept ++ [a], true, hb.keep, ?_⟩
        cases linked <;> simp [survivors, hp]
    obtain ⟨h', hh, hrun⟩ := popWhere_spec pred rest kept' (visited ++ [a]) linked' _ _ hb'
    refine ⟨h', hs ▸ hh, fun fuel hf => ?_⟩
    obtain ⟨n, rfl⟩ := Nat.exists_eq_succ_of_ne_zero (Nat.ne_of_gt (Nat.zero_lt_of_lt hf))
    rw [IterMut.popWhere_step hb.current, hrun n (by simpa using hf), List.append_assoc]
    rfl

/-- The loop. It visits every element once and in order, and leaves the survivors. -/
theorem Heap.Holds.popWhere {h : Heap} {as : List Nat} (pred : Nat → Bool) (hh : h.Holds as) (hap : WordsApart as) :
    ∃ h', Yields (h.popWhere pred) (as, h') ∧ h'.Holds (survivors pred true as) := by
  have hb : Before h h.iterMut true [] as := ⟨hh, hap, hh, rfl⟩
  obtain ⟨h', hs, hrun⟩ := popWhere_spec pred as [] [] true h.iterMut h hb
  exact ⟨h', ⟨as.length + 1, fun fuel hf => hrun fuel hf⟩, hs⟩

/-! ## When the survivors are the right ones -/

def NoAdjacent (pred : Nat → Bool) (as : List Nat) : Prop := as.IsChain fun a b => ¬ (pred a = true ∧ pred b = true)

section
variable {pred : Nat → Bool}

theorem cons_ne_filter {a : Nat} {as bs : List Nat} (ha : pred a = true) :
    a :: as ≠ bs.filter fun b => !pred b := by
  intro he
  have hm : a ∈ bs.filter fun b => !pred b := he ▸ List.mem_cons_self
  simp [ha] at hm

theorem noAdjacent_cons (a : Nat) (as : List Nat) :
    NoAdjacent pred (a :: as) ↔ (pred a = true → ∀ b ∈ as.head?, pred b = false) ∧ NoAdjacent pred as := by
  unfold NoAdjacent
  cases as with
  | nil => simp
  | cons b as => simp

theorem survivors_eq_filter : ∀ (linked : Bool) (as : List Nat),
    survivors pred linked as = (as.filter fun a => !pred a) ↔
      (linked = false → ∀ a ∈ as.head?, pred a = false) ∧ NoAdjacent pred as
  | linked, [] => by cases linked <;> simp [survivors, NoAdjacent]
  | true, a :: as => by
    rw [noAdjacent_cons]
    by_cases ha : pred a = true
    · have ih := survivors_eq_filter false as
      simp only [survivors, ha, if_true, List.filter_cons, Bool.not_true]
      simpa using ih
    · simp only [survivors, ha, List.filter_cons]
      simp [survivors_eq_filter true as]
  | false, a :: as => by
    rw [noAdjacent_cons]
    by_cases ha : pred a = true
    · have hne : a :: survivors pred true as ≠ (a :: as).filter fun b => !pred b := cons_ne_filter ha
      constructor
      · intro he
        exact absurd he hne
      · rintro ⟨hh, -⟩
        have := hh rfl a rfl
        rw [ha] at this
        cases this
    · simp only [survivors, List.filter_cons]
      simp [ha, survivors_eq_filter true as]

end

/-- The loop visits `as` in order and leaves the elements that do not satisfy `pred`. -/
def RemovesExactly (pred : Nat → Bool) (h : Heap) (as : List Nat) : Prop :=
  ∃ h', Yields (h.popWhere pred) (as, h') ∧ Yields h'.elements (as.filter fun a => !pred a)

theorem removesExactly_iff_survivors (pred : Nat → Bool) {h : Heap} {as : List Nat} (hh : h.Holds as)
    (hap : WordsApart as) : RemovesExactly pred h as ↔ survivors pred true as = as.filter fun a => !pred a := by
  obtain ⟨h', hrun, hs⟩ := hh.popWhere pred hap
  constructor
  · rintro ⟨h'', hrun', he⟩
    cases hrun.unique hrun'
    exact hs.elements.unique he
  · intro he
    refine ⟨h', hrun, ?_⟩
    rw [← he]
    exact hs.elements

/-- **Removal, exactly.** The loop removes what it pops if and only if no two
neighbours of the list both satisfy the predicate. -/
theorem removesExactly_iff_noAdjacent (pred : Nat → Bool) {h : Heap} {as : List Nat} (hh : h.Holds as)
    (hap : WordsApart as) : RemovesExactly pred h as ↔ NoAdjacent pred as := by
  rw [removesExactly_iff_survivors pred hh hap, survivors_eq_filter]
  simp

def threeNodes : Heap := (((⟨LinkedList.new, fun _ => 0⟩ : Heap).push .head 48).push .head 32).push .head 16

theorem threeNodes_holds : threeNodes.Holds [16, 32, 48] := by
  refine ⟨rfl, by decide, ?_, by decide, ?_, by decide, ?_⟩
  · decide
  · decide
  · show word threeNodes.mem 48 = 0
    decide

theorem threeNodes_apart : WordsApart [16, 32, 48] := by
  unfold WordsApart
  decide

/-- Popping 16 and then 32 leaves 32 in the list. -/
theorem removal_fails : ¬ ∀ (pred : Nat → Bool) (h : Heap) (as : List Nat), h.Holds as → WordsApart as →
    RemovesExactly pred h as := by
  intro hall
  have hr := hall (fun a => a < 48) _ _ threeNodes_holds threeNodes_apart
  have hs := (removesExactly_iff_survivors _ threeNodes_holds threeNodes_apart).mp hr
  exact absurd hs (by decide)

theorem removal_of_middle : RemovesExactly (fun a => a == 32) threeNodes [16, 32, 48] := by
  refine (removesExactly_iff_noAdjacent _ threeNodes_holds threeNodes_apart).mpr ?_
  unfold NoAdjacent
  simp

end Osymandias
