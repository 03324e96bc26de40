import Osymandias.FreeList

/-!
# The headers in memory represent the abstract free list

`Represents h bs`: following the list from `h.head` visits the blocks `bs`, and
each header holds its block's size. Every operation of the allocator takes a
heap that represents a list to one that represents the abstract operation's
result, and writes inside the blocks of that list only.
-/

namespace Osymandias

open Fuel Tiling BlockHeader

def addrs (bs : List Block) : List Nat := bs.map Block.addr

def Represents (h : Heap) (bs : List Block) : Prop :=
  h.Holds (addrs bs) ∧ ∀ b ∈ bs, size h.mem b.addr = b.size

def Spaced (bs : List Block) : Prop := bs.Pairwise fun b c => b.addr + 16 ≤ c.addr ∨ c.addr + 16 ≤ b.addr

def Untouched (bs : List Block) (m m' : Memory) : Prop := ∀ x, (∀ b ∈ bs, ¬ b.Has x) → m' x = m x

def Relinked (bs : List Block) (m m' : Memory) : Prop :=
  ∀ x, (∀ b ∈ bs, ¬ (b.addr ≤ x ∧ x < b.addr + 8)) → m' x = m x

theorem addrs_append (xs ys : List Block) : addrs (xs ++ ys) = addrs xs ++ addrs ys := List.map_append ..

@[simp] theorem addrs_cons (b : Block) (bs : List Block) : addrs (b :: bs) = b.addr :: addrs bs := rfl

@[simp] theorem addrs_nil : addrs [] = [] := rfl

theorem mem_addrs {a : Nat} {bs : List Block} : a ∈ addrs bs ↔ ∃ b ∈ bs, b.addr = a := List.mem_map

/-! ## Frames -/

section
variable {bs cs : List Block} {m m₁ m₂ : Memory}

theorem Untouched.refl (bs : List Block) (m : Memory) : Untouched bs m m := fun _ _ => rfl

theorem Untouched.trans (h₁ : Untouched bs m m₁) (h₂ : Untouched bs m₁ m₂) : Untouched bs m m₂ :=
  fun x hx => (h₂ x hx).trans (h₁ x hx)

theorem Untouched.widen (h : Untouched bs m m₁) (hc : ∀ b ∈ bs, ∀ x, b.Has x → ∃ c ∈ cs, c.Has x) :
    Untouched cs m m₁ := by
  refine fun x hx => h x fun b hb hbx => ?_
  obtain ⟨c, hcs, hcx⟩ := hc b hb x hbx
  exact hx c hcs hcx

theorem Untouched.mono (h : Untouched bs m m₁) (hs : ∀ b ∈ bs, b ∈ cs) : Untouched cs m m₁ :=
  h.widen fun b hb _ hx => ⟨b, hs b hb, hx⟩

theorem Untouched.parts {b : Block} (zs : List Block) (h : Untouched (zs ++ bs) m m₁)
    (hz : ∀ d ∈ zs, b.addr ≤ d.addr ∧ d.addr + d.size ≤ b.addr + b.size) : Untouched (b :: bs) m m₁ := by
  apply h.widen
  intro d hd x hx
  rcases List.mem_append.mp hd with hd | hd
  · exact ⟨b, by simp, hx.of_part (hz d hd).1 (hz d hd).2⟩
  · exact ⟨d, by simp [hd], hx⟩

theorem Relinked.untouched (h : Relinked bs m m₁) (h16 : ∀ b ∈ bs, 16 ≤ b.size) : Untouched bs m m₁ :=
  fun x hx => h x fun b hb hw => hx b hb ⟨hw.1, by have := h16 b hb; omega⟩

theorem untouched_setWord {b : Block} (hb : b ∈ bs) {a : Nat} (v : Nat) (h₁ : b.addr ≤ a)
    (h₂ : a + 8 ≤ b.addr + b.size) : Untouched bs m (setWord m a v) :=
  fun x hx => setWord_of_outside m a v fun hc => hx b hb (by constructor <;> omega)

end

section
variable {bs xs ys : List Block} {b : Block}

theorem spaced_append : Spaced (xs ++ ys) ↔
    Spaced xs ∧ Spaced ys ∧ ∀ b ∈ xs, ∀ c ∈ ys, b.addr + 16 ≤ c.addr ∨ c.addr + 16 ≤ b.addr :=
  List.pairwise_append

theorem spaced_cons : Spaced (b :: bs) ↔
    (∀ c ∈ bs, b.addr + 16 ≤ c.addr ∨ c.addr + 16 ≤ b.addr) ∧ Spaced bs := List.pairwise_cons

theorem Spaced.wordsApart (h : Spaced bs) : WordsApart (addrs bs) :=
  List.pairwise_map.mpr (h.imp fun hbc => by omega)

theorem apart_headers {c : Block} {n : Nat} (h : b.Apart c) (hb : 16 ≤ b.size) (hlo : c.addr ≤ n)
    (hhi : n + 16 ≤ c.addr + c.size) : b.addr + 16 ≤ n ∨ n + 16 ≤ b.addr := by
  by_contra hne
  refine h (max b.addr n) ⟨⟨?_, ?_⟩, ?_, ?_⟩ <;> omega

theorem spaced_of_separate (h : Separate bs) (h16 : ∀ b ∈ bs, 16 ≤ b.size) : Spaced bs := by
  refine h.imp_of_mem fun {b c} hb hc hbc => ?_
  have hc16 := h16 c hc
  exact apart_headers hbc (h16 b hb) le_rfl (by omega)

theorem Spaced.cases : ∀ {bs : List Block}, Spaced bs → ∀ {b c : Block}, b ∈ bs → c ∈ bs →
    b = c ∨ b.addr + 16 ≤ c.addr ∨ c.addr + 16 ≤ b.addr
  | d :: bs, h, b, c, hb, hc => by
    obtain ⟨hd, hbs⟩ := spaced_cons.mp h
    rcases List.mem_cons.mp hb with rfl | hb'
    · rcases List.mem_cons.mp hc with rfl | hc'
      · exact .inl rfl
      · exact .inr (hd c hc')
    · rcases List.mem_cons.mp hc with rfl | hc'
      · exact .inr (hd b hb').symm
      · exact hbs.cases hb' hc'

theorem Grain.sixteen_le (h : Grain b) : 16 ≤ b.size := Nat.le_of_dvd h.size_pos h.size_dvd

theorem spaced_of_grain (h : Separate bs) (hg : ∀ b ∈ bs, Grain b) : Spaced bs :=
  spaced_of_separate h fun b hb => (hg b hb).sixteen_le

end

/-! ## Headers -/

theorem size_setSize_self (m : Memory) (a : Nat) {n : Nat} (h : n < 2 ^ 64) :
    size (setSize m a n) a = n := word_setWord_self m (a + 8) h

theorem size_setSize_of_apart (m : Memory) {a b : Nat} (n : Nat) (h : a + 8 ≤ b ∨ b + 8 ≤ a) :
    size (setSize m a n) b = size m b := word_setWord_of_apart m n (by omega)

theorem word_setSize (m : Memory) {a b : Nat} (n : Nat) (h : a + 16 ≤ b ∨ b ≤ a) :
    word (setSize m a n) b = word m b := word_setWord_of_apart m n (by omega)

theorem size_setWord (m : Memory) {a b : Nat} (v : Nat) (h : a ≤ b ∨ b + 16 ≤ a) :
    size (setWord m a v) b = size m b := word_setWord_of_apart m v (by omega)

section
variable {h h' : Heap} {xs ys bs : List Block} {b f : Block}

theorem Represents.congr (hr : Represents h bs) (hhead : h'.head = h.head)
    (hw : ∀ b ∈ bs, word h'.mem b.addr = word h.mem b.addr)
    (hs : ∀ b ∈ bs, size h'.mem b.addr = size h.mem b.addr) : Represents h' bs := by
  refine ⟨?_, fun b hb => (hs b hb).trans (hr.2 b hb)⟩
  unfold Heap.Holds
  rw [hhead]
  apply linked_congr hr.1
  intro a ha
  obtain ⟨b, hb, rfl⟩ := mem_addrs.mp ha
  exact hw b hb

theorem Represents.of_agree (hr : Represents h bs) (hhead : h'.head = h.head) (h16 : ∀ b ∈ bs, 16 ≤ b.size)
    (hm : ∀ b ∈ bs, ∀ x, b.Has x → h'.mem x = h.mem x) : Represents h' bs := by
  refine hr.congr hhead (fun b hb => ?_) fun b hb => ?_
  · exact word_congr fun x h₁ h₂ => hm b hb x ⟨h₁, by have := h16 b hb; omega⟩
  · exact word_congr fun x h₁ h₂ => hm b hb x ⟨by omega, by have := h16 b hb; omega⟩

theorem Represents.setSize_away (hr : Represents h bs) {c n : Nat}
    (hc : ∀ d ∈ bs, d.addr + 16 ≤ c ∨ c + 16 ≤ d.addr) : Represents ⟨h.head, setSize h.mem c n⟩ bs := by
  refine hr.congr rfl (fun d hd => ?_) fun d hd => ?_
  · exact word_setSize _ _ (by have := hc d hd; omega)
  · exact size_setSize_of_apart _ _ (by have := hc d hd; omega)

theorem Represents.resize (hr : Represents h (xs ++ b :: ys)) (hsp : Spaced (xs ++ b :: ys)) {n : Nat}
    (hn : n < 2 ^ 64) : Represents { h with mem := setSize h.mem b.addr n } (xs ++ ⟨b.addr, n⟩ :: ys) := by
  obtain ⟨-, hsy, hxy⟩ := spaced_append.mp hsp
  have hby := (spaced_cons.mp hsy).1
  have hw : ∀ c ∈ xs ++ b :: ys, word (setSize h.mem b.addr n) c.addr = word h.mem c.addr := by
    intro c hc
    apply word_setSize
    rcases List.mem_append.mp hc with hc | hc
    · have := hxy c hc b (by simp); omega
    · rcases List.mem_cons.mp hc with rfl | hc
      · omega
      · have := hby c hc; omega
  refine ⟨?_, fun c hc => ?_⟩
  · have : addrs (xs ++ ⟨b.addr, n⟩ :: ys) = addrs (xs ++ b :: ys) := by simp [addrs]
    rw [this]
    apply linked_congr hr.1
    intro a ha
    obtain ⟨c, hc, rfl⟩ := mem_addrs.mp ha
    exact hw c hc
  · rcases List.mem_append.mp hc with hc | hc
    · rw [size_setSize_of_apart _ _ (by have := hxy c hc b (by simp); omega)]
      exact hr.2 c (by simp [hc])
    · rcases List.mem_cons.mp hc with rfl | hc
      · exact size_setSize_self _ _ hn
      · rw [size_setSize_of_apart _ _ (by have := hby c hc; omega)]
        exact hr.2 c (by simp [hc])

/-! ## Pushing and popping behind a prefix -/

theorem setList_mem_frame (h : Heap) (xs : List Block) (l : LinkedList) :
    Relinked xs h.mem (h.setList (ptrAfter .head (addrs xs)) l).mem := by
  intro x hx
  rcases List.eq_nil_or_concat xs with rfl | ⟨xs', b, rfl⟩
  · rfl
  · rw [List.concat_eq_append] at hx ⊢
    rw [addrs_append, addrs_cons, addrs_nil, ptrAfter_snoc]
    exact setWord_of_outside _ _ _ (hx b (by simp))

theorem Relinked.size_eq {m m' : Memory} (hm : Relinked xs m m') (hsp : Spaced bs) (hxs : ∀ c ∈ xs, c ∈ bs)
    (hb : b ∈ bs) : size m' b.addr = size m b.addr :=
  word_congr fun x h₁ h₂ => hm x fun c hc => by
    rcases hsp.cases hb (hxs c hc) with rfl | h | h <;> omega

theorem Relinked.word_eq {m m' : Memory} (hm : Relinked bs m m')
    (hb : ∀ c ∈ bs, c.addr + 8 ≤ b.addr ∨ b.addr + 8 ≤ c.addr) : word m' b.addr = word m b.addr :=
  word_congr fun x h₁ h₂ => hm x fun c hc => by have := hb c hc; omega

/-- Push. The new block stands behind the prefix. -/
theorem Represents.push (hr : Represents h (xs ++ ys)) (hsp : Spaced (xs ++ f :: ys))
    (hsize : size h.mem f.addr = f.size) (hf : f.addr ≠ 0) (hlt : ∀ b ∈ f :: ys, b.addr < 2 ^ 64) :
    Represents (h.push (ptrAfter .head (addrs xs)) f.addr) (xs ++ f :: ys) ∧
      Relinked (f :: xs) h.mem (h.push (ptrAfter .head (addrs xs)) f.addr).mem := by
  obtain ⟨hsx, hsy, hxy⟩ := spaced_append.mp hsp
  have hfy := (spaced_cons.mp hsy).1
  have hxf : ∀ c ∈ xs, c.addr + 16 ≤ f.addr ∨ f.addr + 16 ≤ c.addr := fun c hc => hxy c hc f (by simp)
  have hnext := Heap.list_ptrAfter (addrs_append xs ys ▸ hr.1)
  -- the pushed node's word is written first, in a heap that still holds the old list
  have hpush : h.push (ptrAfter .head (addrs xs)) f.addr =
      Heap.setList ⟨h.head, setWord h.mem f.addr ((addrs ys).headD 0)⟩ (ptrAfter .head (addrs xs)) ⟨f.addr⟩ := by
    rw [← hnext]; rfl
  have hold : Heap.Holds ⟨h.head, setWord h.mem f.addr ((addrs ys).headD 0)⟩ (addrs xs ++ addrs ys) := by
    rw [← addrs_append]
    apply linked_congr hr.1
    intro a ha
    obtain ⟨c, hc, rfl⟩ := mem_addrs.mp ha
    apply word_setWord_of_apart
    rcases List.mem_append.mp hc with hc | hc
    · have := hxf c hc; omega
    · have := hfy c hc; omega
  have hframe : Relinked (f :: xs) h.mem (h.push (ptrAfter .head (addrs xs)) f.addr).mem := by
    intro x hx
    rw [hpush, setList_mem_frame _ xs _ x fun c hc => hx c (by simp [hc])]
    exact setWord_of_outside _ _ _ (hx f (by simp))
  refine ⟨⟨?_, fun c hc => ?_⟩, hframe⟩
  · rw [hpush, addrs_append, addrs_cons]
    refine Linked.splice hold (hlt f (by simp)) hsx.wordsApart trivial ⟨rfl, hf, ?_⟩
    have hhead : (addrs ys).headD 0 < 2 ^ 64 := by
      cases ys with
      | nil => exact Nat.two_pow_pos 64
      | cons c ys => exact hlt c (by simp)
    rw [(setList_mem_frame _ xs _).word_eq fun c hc => by have := hxf c hc; omega,
      word_setWord_self _ _ hhead]
    apply linked_congr hold.suffix
    intro a ha
    obtain ⟨c, hc, rfl⟩ := mem_addrs.mp ha
    apply (setList_mem_frame _ xs _).word_eq
    intro d hd
    have := hxy d hd c (by simp [hc])
    omega
  · rw [hframe.size_eq hsp (by simp +contextual) hc]
    rcases List.mem_append.mp hc with hc' | hc'
    · exact hr.2 c (by simp [hc'])
    · rcases List.mem_cons.mp hc' with rfl | hc'
      · exact hsize
      · exact hr.2 c (by simp [hc'])

/-- Pop. The block behind the prefix leaves the list. -/
theorem Represents.pop (hr : Represents h (xs ++ b :: ys)) (hsp : Spaced (xs ++ b :: ys)) :
    ∃ h', h.pop (ptrAfter .head (addrs xs)) = (some b.addr, h') ∧
      h' = h.setList (ptrAfter .head (addrs xs)) ⟨word h.mem b.addr⟩ ∧
      Represents h' (xs ++ ys) ∧ Relinked xs h.mem h'.mem := by
  have hold : h.Holds (addrs xs ++ b.addr :: addrs ys) := addrs_append xs (b :: ys) ▸ hr.1
  have hapart : WordsApart (addrs xs ++ b.addr :: addrs ys) := addrs_append xs (b :: ys) ▸ hsp.wordsApart
  have hlink : Linked h.mem (h.list (ptrAfter .head (addrs xs))).head (b.addr :: addrs ys) := by
    rw [Heap.list_ptrAfter hold]
    exact hold.suffix
  have hframe := setList_mem_frame h xs ⟨word h.mem b.addr⟩
  refine ⟨_, ?_, rfl, ⟨?_, fun c hc => ?_⟩, hframe⟩
  · unfold Heap.pop
    rw [LinkedList.pop_cons hlink]
  · rw [addrs_append]
    exact Linked.unlink hold hapart trivial
  · have hc' : c ∈ xs ++ b :: ys := by
      rcases List.mem_append.mp hc with hc | hc <;> simp [hc]
    rw [hframe.size_eq hsp (by simp +contextual) hc']
    exact hr.2 c hc'

end

/-! ## Dividing -/

def weight (bs : List Block) : Nat := (bs.map fun b => b.size / 8 - 1).sum

@[simp] theorem weight_cons (b : Block) (bs : List Block) : weight (b :: bs) = (b.size / 8 - 1) + weight bs := by
  simp [weight]

theorem weight_cut {b : Block} {c : Nat} (ys : List Block) (hb : Grain b) (hl : Grain ⟨b.addr, c - b.addr⟩)
    (hr : Grain ⟨c, b.addr + b.size - c⟩) :
    weight (⟨b.addr, c - b.addr⟩ :: ⟨c, b.addr + b.size - c⟩ :: ys) + 1 ≤ weight (b :: ys) := by
  have := hb.size_dvd
  have := hl.size_dvd
  have := hr.size_dvd
  have := hl.sixteen_le
  have := hr.sixteen_le
  simp only [weight_cons] at *
  omega

theorem Represents.linked {h : Heap} {xs ys : List Block} (hr : Represents h (xs ++ ys)) :
    Linked h.mem ((addrs ys).headD 0) (addrs ys) :=
  Linked.suffix (addrs_append xs ys ▸ hr.1)

section
variable {h : Heap} {xs ys : List Block} {b : Block} {c : Nat}

theorem header_away (ho : Separate (xs ++ b :: ys)) (hg : ∀ d ∈ xs ++ b :: ys, Grain d)
    (hlo : b.addr + 16 ≤ c) (hhi : c + 16 ≤ b.addr + b.size) :
    ∀ d ∈ xs ++ b :: ys, d.addr + 16 ≤ c ∨ c + 16 ≤ d.addr := by
  have hmid := ho.apart_middle
  intro d hd
  by_cases hdb : d = b
  · subst hdb
    exact .inl hlo
  · have hd' : d ∈ xs ++ ys := by simpa [hdb] using hd
    exact apart_headers (hmid d hd') (hg d hd).sixteen_le (by omega) hhi

/-- One cut. What the body of `divide_maximally` writes when it cuts `b` at `c`. -/
theorem divide_step (hr : Represents h (xs ++ b :: ys)) (ho : Separate (xs ++ b :: ys))
    (hg : ∀ d ∈ xs ++ b :: ys, Grain d) (hlo : b.addr + 16 ≤ c) (hhi : c + 16 ≤ b.addr + b.size) :
    let m₁ := newFromPtr h.mem c
    let m₃ := setSize (setSize m₁ c (b.size - (c - b.addr))) b.addr (c - b.addr)
    let h' := Heap.push ⟨h.head, m₃⟩ (.node b.addr) c
    size m₁ b.addr = b.size ∧
    Represents h' (xs ++ ⟨b.addr, c - b.addr⟩ :: ⟨c, b.addr + b.size - c⟩ :: ys) ∧
    Untouched [b] h.mem h'.mem := by
  intro m₁ m₃ h'
  have hb := hg b (by simp)
  have hend := hb.end_lt
  have hsp := spaced_of_grain ho hg
  have haway := header_away ho hg hlo hhi
  have hsplit : Spaced (xs ++ [⟨b.addr, c - b.addr⟩] ++ ⟨c, b.addr + b.size - c⟩ :: ys) := by
    have h16 := forall_mem_replace [⟨b.addr, c - b.addr⟩, ⟨c, b.addr + b.size - c⟩]
      (fun d hd => (hg d hd).sixteen_le) (by simp; omega)
    simpa using spaced_of_separate (ho.cut (show b.addr ≤ c by omega) (by omega)) h16
  have hr₃ : Represents ⟨h.head, m₃⟩ (xs ++ [⟨b.addr, c - b.addr⟩] ++ ys) := by
    have := ((hr.setSize_away (n := 0) haway).setSize_away (n := b.size - (c - b.addr)) haway).resize hsp
      (n := c - b.addr) (by omega)
    rw [List.append_assoc]
    exact this
  have hptr : ListPtr.node b.addr = ptrAfter .head (addrs (xs ++ [⟨b.addr, c - b.addr⟩])) := by
    rw [addrs_append, addrs_cons, addrs_nil, ptrAfter_snoc]
  have hsize : size m₃ c = b.addr + b.size - c := by
    rw [size_setSize_of_apart _ _ (by omega), size_setSize_self _ _ (by omega)]
    omega
  refine ⟨?_, ?_, ?_⟩
  · exact (size_setSize_of_apart _ _ (by omega)).trans (hr.2 b (by simp))
  · have := (hr₃.push hsplit hsize (by simp only; omega) ?_).1
    · rw [← hptr] at this
      simpa using this
    · intro d hd
      rcases List.mem_cons.mp hd with rfl | hd
      · simp only; omega
      · have := (hg d (by simp [hd])).end_lt; omega
  · have hmem : b ∈ [b] := by simp
    have h₁ : Untouched [b] h.mem m₁ := untouched_setWord hmem _ (by omega) (by omega)
    have h₃ : Untouched [b] m₁ m₃ :=
      (untouched_setWord hmem _ (by omega) (by omega)).trans (untouched_setWord hmem _ (by omega) (by omega))
    exact (h₁.trans h₃).trans
      ((untouched_setWord hmem _ (by omega) (by omega)).trans (untouched_setWord hmem _ (by omega) (by omega)))

end

/-- `divide_maximally` divides. The blocks `xs` are behind the iterator and
`ys` before it. The induction is on the fuel: a cut keeps the iterator where it
is and replaces the first block by its two parts, which weigh less. -/
theorem divideLoop_spec : ∀ (fuel : Nat) (xs ys : List Block) (it : Iter) (h : Heap),
    Represents h (xs ++ ys) → Separate (xs ++ ys) → (∀ b ∈ xs ++ ys, Grain b) →
    Linked h.mem it.current (addrs ys) →
    Returns fuel (weight ys + 1) (Allocator.divideLoop fuel it h) fun h' =>
      Represents h' (xs ++ divideAll ys) ∧ Untouched ys h.mem h'.mem
  | 0, _, ys, _, _, _, _, _, _ => .inr ⟨rfl, Nat.succ_pos _⟩
  | fuel + 1, xs, [], it, h, hr, _, _, hl => by
    rw [Allocator.divideLoop, Iter.peek_nil hl]
    exact .ok ⟨hr, Untouched.refl _ _⟩
  | fuel + 1, xs, b :: ys, it, h, hr, ho, hg, hl => by
    have hb := hg b (by simp)
    have h16 := hb.sixteen_le
    have hcur : it = ⟨b.addr⟩ := by cases it; exact congrArg Iter.mk hl.1
    rw [Allocator.divideLoop, Iter.peek_cons hl]
    simp only [hr.2 b (by simp), hb.cut_eq]
    rcases hb.cut_cases with ⟨hcut, hfit⟩ | ⟨⟨hlo, hhi⟩, hgl, hgr⟩
    · -- the block fits: step over it
      have ih := divideLoop_spec fuel (xs ++ [b]) ys ⟨word h.mem b.addr⟩ h (by simpa using hr)
        (by simpa using ho) (by simpa using hg) hl.2.2
      simp only [hcut, bind, Except.bind, ne_eq, not_true, if_false, Iter.next_cons hl]
      refine (ih.step.weaken ?_).mono fun h' hh' => ?_
      · rw [weight_cons]; omega
      · obtain ⟨hr', hu⟩ := hh'
        refine ⟨?_, hu.mono (by simp +contextual)⟩
        rw [divideAll_cons, hfit.divide_eq]
        simpa using hr'
    · -- cut it, and look at its first part again
      have hl16 := hgl.sixteen_le
      have hr16 := hgr.sixteen_le
      simp only at hl16 hr16
      obtain ⟨hsize, hr', hu⟩ := divide_step (c := cut b) hr ho hg (by omega) (by omega)
      have ho' := ho.cut (show b.addr ≤ cut b by omega) (by omega)
      have hg' := forall_mem_replace [⟨b.addr, cut b - b.addr⟩, ⟨cut b, b.addr + b.size - cut b⟩] hg
        (by simpa using ⟨hgl, hgr⟩)
      have ih := divideLoop_spec fuel xs (⟨b.addr, cut b - b.addr⟩ :: ⟨cut b, b.addr + b.size - cut b⟩ :: ys)
        it _ hr' ho' hg' (by rw [hcur]; exact hr'.linked)
      have hne : b.addr ≠ cut b := by omega
      have hsub : usizeSub (size (newFromPtr h.mem (cut b)) b.addr) (saturatingSub (cut b) b.addr) =
          .ok (b.size - (cut b - b.addr)) := by
        rw [hsize, usizeSub, saturatingSub, if_pos (by omega)]
      simp only [bind, Except.bind, ne_eq, hne, not_false_eq_true, if_true, hsub]
      apply (ih.step.weaken (Nat.succ_le_succ (weight_cut ys hb hgl hgr))).mono
      intro h' hh'
      obtain ⟨hr'', hu'⟩ := hh'
      refine ⟨?_, ?_⟩
      · rw [divideAll_cons, divide, if_pos ⟨hlo, hhi⟩]
        simpa using hr''
      · have hparts := Untouched.parts [⟨b.addr, cut b - b.addr⟩, ⟨cut b, b.addr + b.size - cut b⟩] hu' (b := b)
          (by simp; omega)
        exact (hu.mono (by simp)).trans hparts

theorem divideMaximally_spec {h : Heap} {bs : List Block} (fuel : Nat) (hr : Represents h bs)
    (ho : Separate bs) (hg : ∀ b ∈ bs, Grain b) :
    Returns fuel (weight bs + 1) (Allocator.divideMaximally fuel h) fun h' =>
      Represents h' (divideAll bs) ∧ Untouched bs h.mem h'.mem :=
  divideLoop_spec fuel [] bs h.iter h hr ho hg hr.1

theorem divideLoop_fixed {h : Heap} : ∀ (fuel : Nat) (bs : List Block) (it : Iter),
    Linked h.mem it.current (addrs bs) → (∀ b ∈ bs, size h.mem b.addr = b.size) → (∀ b ∈ bs, Fit b) →
    Returns fuel (bs.length + 1) (Allocator.divideLoop fuel it h) fun h' => h' = h
  | 0, _, _, _, _, _ => .inr ⟨rfl, Nat.succ_pos _⟩
  | fuel + 1, [], it, hl, _, _ => by
    rw [Allocator.divideLoop, Iter.peek_nil hl]
    exact .ok rfl
  | fuel + 1, b :: bs, it, hl, hs, hf => by
    rw [Allocator.divideLoop, Iter.peek_cons hl]
    simp only [hs b (by simp), (hf b (by simp)).nextPtr, bind, Except.bind, ne_eq, not_true, if_false,
      Iter.next_cons hl]
    exact (divideLoop_fixed fuel bs ⟨word h.mem b.addr⟩ hl.2.2 (fun c hc => hs c (by simp [hc]))
      fun c hc => hf c (by simp [hc])).step

/-! ## Merging -/

def absorb (h : Heap) (prev : Nat) : Heap :=
  let h₁ := (h.pop (.node prev)).2
  ⟨h₁.head, setSize h₁.mem prev (usizeShl1 (size h₁.mem prev))⟩

theorem defragmentStep_eq {h : Heap} {prev cur n : Nat} (hn : size h.mem prev = n) (hpos : 0 < n)
    (hsat : prev + n < 2 ^ 64) (hmul : prev + n = cur → n = size h.mem cur → 2 * n ≤ usizeMax) :
    Allocator.defragmentStep (some prev) cur h =
      .ok (some cur, if prev + n = cur ∧ n = size h.mem cur ∧ prev % (2 * n) = 0 then absorb h prev else h) := by
  have hadd : saturatingAdd prev n = prev + n := Nat.min_eq_left (by unfold usizeMax; omega)
  simp only [Allocator.defragmentStep, isAdjacent, equalSize, hn, hadd, Bool.and_eq_true, beq_iff_eq]
  by_cases hadj : prev + n = cur ∧ n = size h.mem cur
  · have hne : 2 * n ≠ 0 := by omega
    simp only [if_pos hadj, usizeMul, if_pos (hmul hadj.1 hadj.2), alignedOn, if_neg hne, bind, Except.bind]
    by_cases hal : prev % (2 * n) = 0
    · rw [if_pos (by simpa using hal), if_pos ⟨hadj.1, hadj.2, hal⟩]
      rfl
    · rw [if_neg (by simpa using hal), if_neg fun hc => hal hc.2.2]
      rfl
  · rw [if_neg hadj, if_neg fun hc => hadj ⟨hc.1, hc.2.1⟩]

/-- What merging needs of a block: room for a header, and an end inside the address space. -/
structure Room (b : Block) : Prop where
  sixteen_le : 16 ≤ b.size
  end_le : b.addr + b.size ≤ 2 ^ 64

theorem Grain.room {b : Block} (hb : Grain b) : Room b := ⟨hb.sixteen_le, Nat.le_of_lt hb.end_lt⟩

theorem Represents.addr_pos {h : Heap} {bs : List Block} {b : Block} (hr : Represents h bs) (hb : b ∈ bs) :
    0 < b.addr := by
  obtain ⟨xs, ys, rfl⟩ := List.append_of_mem hb
  exact Nat.pos_of_ne_zero hr.linked.2.1

section
variable {h : Heap} {xs ys : List Block} {b c : Block}

theorem Buddies.room (hbud : Buddies b c) (hc : Room c) : Room ⟨b.addr, 2 * b.size⟩ := by
  obtain ⟨hadj, hsize, -⟩ := hbud
  obtain ⟨h16, hend⟩ := hc
  constructor <;> (simp only; omega)

/-- Two buddies above the null address are together smaller than the address space. -/
theorem Buddies.double_le (hbud : Buddies b c) (hb : 0 < b.addr) (hc : Room c) : 2 * b.size ≤ usizeMax := by
  obtain ⟨hadj, hsize, -⟩ := hbud
  have hend := hc.end_le
  unfold usizeMax
  omega

/-- One merge. The second buddy is unlinked; its own header keeps what it held. -/
theorem absorb_spec (hr : Represents h (xs ++ b :: c :: ys)) (ho : Ordered (xs ++ b :: c :: ys))
    (hf : ∀ d ∈ xs ++ b :: c :: ys, Room d) (hbud : Buddies b c) :
    Represents (absorb h b.addr) (xs ++ ⟨b.addr, 2 * b.size⟩ :: ys) ∧
      size (absorb h b.addr).mem c.addr = c.size ∧ Untouched [b] h.mem (absorb h b.addr).mem := by
  have hb16 := (hf b (by simp)).sixteen_le
  have hdouble := hbud.double_le (hr.addr_pos (by simp)) (hf c (by simp))
  unfold usizeMax at hdouble
  obtain ⟨hadj, hsize, -⟩ := hbud
  have hsp := spaced_of_separate ho.separate fun d hd => (hf d hd).sixteen_le
  have hsp' : Spaced ((xs ++ [b]) ++ c :: ys) := by simpa using hsp
  obtain ⟨h₁, hpop, hset, hr₁, -⟩ := (show Represents h ((xs ++ [b]) ++ c :: ys) by simpa using hr).pop hsp'
  rw [addrs_append, addrs_cons, addrs_nil, ptrAfter_snoc] at hpop hset
  have hmem : h₁.mem = setWord h.mem b.addr (word h.mem c.addr) := by rw [hset]; rfl
  have hsz : size h₁.mem b.addr = b.size := hr₁.2 b (by simp)
  have hshl : usizeShl1 b.size = 2 * b.size := by
    rw [usizeShl1, Nat.shiftLeft_eq, Nat.mod_eq_of_lt (by omega)]; omega
  have habs : absorb h b.addr = ⟨h₁.head, setSize h₁.mem b.addr (2 * b.size)⟩ := by
    simp only [absorb, hpop, hsz, hshl]
  have hspy : Spaced (xs ++ b :: ys) := by
    refine hsp.sublist ?_
    exact (List.Sublist.refl xs).append ((List.sublist_cons_self c ys).cons_cons b)
  rw [habs]
  refine ⟨?_, ?_, ?_⟩
  · exact (show Represents h₁ (xs ++ b :: ys) by simpa using hr₁).resize hspy (by omega)
  · rw [size_setSize_of_apart _ _ (by omega), hmem, size_setWord _ _ (by omega)]
    exact hr.2 c (by simp)
  · rw [hmem]
    have hmemb : b ∈ [b] := by simp
    exact (untouched_setWord hmemb _ (by omega) (by omega)).trans
      (untouched_setWord hmemb _ (by omega) (by omega))

theorem Buddies.ordered (hbud : Buddies b c) (ho : Ordered (xs ++ b :: c :: ys)) :
    Ordered (xs ++ ⟨b.addr, 2 * b.size⟩ :: ys) := by
  obtain ⟨hadj, hsize, -⟩ := hbud
  obtain ⟨hx, hy, hxy⟩ := ordered_append.mp ho
  obtain ⟨hcy, hy⟩ := ordered_cons.mp (ordered_cons.mp hy).2
  refine ordered_append.mpr ⟨hx, ordered_cons.mpr ⟨fun d hd => ?_, hy⟩, fun d hd e he => ?_⟩
  · have := hcy d hd; simp only; omega
  · rcases List.mem_cons.mp he with rfl | he
    · exact hxy d hd b (by simp)
    · exact hxy d hd e (by simp [he])

theorem Buddies.odd (hbud : Buddies b c) (hpos : 0 < b.size) : c.addr % (2 * c.size) ≠ 0 := by
  obtain ⟨hadj, hsize, hal⟩ := hbud
  rw [← hsize, ← hadj, Nat.add_mod, hal, Nat.zero_add, Nat.mod_mod, Nat.mod_eq_of_lt (by omega)]
  omega

end

/-- What the fold of `defragment` does from a state whose previous block is the
last one of the list behind the iterator. -/
def MergesLinked (fuel : Nat) : Prop :=
  ∀ (xs cs : List Block) (b : Block) (it : Iter) (h : Heap), Represents h (xs ++ b :: cs) →
    Ordered (xs ++ b :: cs) → (∀ d ∈ xs ++ b :: cs, Room d) → Linked h.mem it.current (addrs cs) →
    Returns fuel (cs.length + 1) (it.fold Allocator.defragmentStep fuel (some b.addr) h) fun r =>
      Represents r.2 (xs ++ merge (b :: cs)) ∧ Untouched (b :: cs) h.mem r.2.mem

/-- A block that has just been unlinked. Its header is stale, it lies below what
is left to merge, and it is not aligned on twice the size it holds. -/
structure Stale (c : Block) (cs : List Block) (m : Memory) : Prop where
  size_eq : size m c.addr = c.size
  size_pos : 0 < c.size
  double_le : 2 * c.size ≤ usizeMax
  odd : c.addr % (2 * c.size) ≠ 0
  below : ∀ d ∈ cs, c.addr + c.size ≤ d.addr

/-- The same from a state whose previous block is stale. -/
def MergesStale (fuel : Nat) : Prop :=
  ∀ (xs cs : List Block) (c : Block) (it : Iter) (h : Heap), Represents h (xs ++ cs) →
    Ordered (xs ++ cs) → (∀ d ∈ xs ++ cs, Room d) → Linked h.mem it.current (addrs cs) → Stale c cs h.mem →
    Returns fuel (cs.length + 1) (it.fold Allocator.defragmentStep fuel (some c.addr) h) fun r =>
      Represents r.2 (xs ++ merge cs) ∧ Untouched cs h.mem r.2.mem

theorem mergesStale_succ {fuel : Nat} (ih : MergesLinked fuel) : MergesStale (fuel + 1) := by
  intro xs cs c it h hr ho hf hl hc
  cases cs with
  | nil =>
    rw [Iter.fold, Iter.next_nil hl]
    exact .ok ⟨hr, Untouched.refl _ _⟩
  | cons d cs =>
    have hbelow := hc.below d (by simp)
    obtain ⟨hd16, hdend⟩ := hf d (by simp)
    have hskip : Allocator.defragmentStep (some c.addr) d.addr h = .ok (some d.addr, h) := by
      rw [defragmentStep_eq hc.size_eq hc.size_pos (by omega) fun _ _ => hc.double_le,
        if_neg fun hbud => hc.odd hbud.2.2]
    rw [Iter.fold, Iter.next_cons hl]
    simp only [hskip, bind, Except.bind]
    exact (ih xs cs d ⟨word h.mem d.addr⟩ h hr ho hf hl.2.2).step

section
variable {h : Heap} {xs cs : List Block} {b c : Block}

/-- One step over two blocks that are next to each other in the list. -/
theorem defragmentStep_linked (hr : Represents h (xs ++ b :: c :: cs)) (ho : Ordered (xs ++ b :: c :: cs))
    (hf : ∀ d ∈ xs ++ b :: c :: cs, Room d) :
    Allocator.defragmentStep (some b.addr) c.addr h =
      .ok (some c.addr, if Buddies b c then absorb h b.addr else h) := by
  have hb16 := (hf b (by simp)).sixteen_le
  have hcend := (hf c (by simp)).end_le
  have hc16 := (hf c (by simp)).sixteen_le
  have hbpos := hr.addr_pos (b := b) (by simp)
  have hcsize : size h.mem c.addr = c.size := hr.2 c (by simp)
  obtain ⟨hbc, -⟩ := ordered_cons.mp (ordered_append.mp ho).2.1
  have hbelow := hbc c (by simp)
  rw [defragmentStep_eq (hr.2 b (by simp)) (by omega) (by omega) (by unfold usizeMax; omega), hcsize]
  rfl

theorem Buddies.rooms (hbud : Buddies b c) (hf : ∀ d ∈ xs ++ b :: c :: cs, Room d) :
    ∀ d ∈ xs ++ ⟨b.addr, 2 * b.size⟩ :: cs, Room d := by
  intro d hd
  simp only [List.mem_append, List.mem_cons] at hd
  rcases hd with hd | rfl | hd
  · exact hf d (by simp [hd])
  · exact hbud.room (hf c (by simp))
  · exact hf d (by simp [hd])

/-- What a merge leaves of the second buddy. -/
theorem Buddies.stale (hbud : Buddies b c) (hr : Represents h (xs ++ b :: c :: cs))
    (ho : Ordered (xs ++ b :: c :: cs)) (hf : ∀ d ∈ xs ++ b :: c :: cs, Room d) :
    Stale c cs (absorb h b.addr).mem := by
  obtain ⟨-, hsize, -⟩ := absorb_spec hr ho hf hbud
  have hb16 := (hf b (by simp)).sixteen_le
  have hc := hf c (by simp)
  have hc16 := hc.sixteen_le
  obtain ⟨-, hoc⟩ := ordered_cons.mp (ordered_append.mp ho).2.1
  refine ⟨hsize, by omega, ?_, hbud.odd (by omega), (ordered_cons.mp hoc).1⟩
  rw [← hbud.2.1]
  exact hbud.double_le (hr.addr_pos (by simp)) hc

end

theorem mergesLinked_succ {fuel : Nat} (ih₁ : MergesLinked fuel) (ih₂ : MergesStale fuel) :
    MergesLinked (fuel + 1) := by
  intro xs cs b it h hr ho hf hl
  cases cs with
  | nil =>
    rw [Iter.fold, Iter.next_nil hl]
    exact .ok ⟨hr, Untouched.refl _ _⟩
  | cons c cs =>
    rw [Iter.fold, Iter.next_cons hl]
    simp only [defragmentStep_linked hr ho hf, bind, Except.bind]
    by_cases hbud : Buddies b c
    · rw [if_pos hbud]
      obtain ⟨hr', -, hu⟩ := absorb_spec hr ho hf hbud
      have hlink : Linked (absorb h b.addr).mem (word h.mem c.addr) (addrs cs) := by
        rw [hl.2.2.head_eq]
        exact (show Represents (absorb h b.addr) ((xs ++ [⟨b.addr, 2 * b.size⟩]) ++ cs) by simpa using hr').linked
      have := ih₂ (xs ++ [⟨b.addr, 2 * b.size⟩]) cs c ⟨word h.mem c.addr⟩ (absorb h b.addr) (by simpa using hr')
        (by simpa using hbud.ordered ho) (by simpa using hbud.rooms hf) hlink (hbud.stale hr ho hf)
      apply this.step.mono
      intro r hr
      obtain ⟨hr'', hu'⟩ := hr
      refine ⟨?_, ?_⟩
      · rw [merge, if_pos hbud]
        simpa using hr''
      · exact (hu.mono (by simp)).trans (hu'.mono (by simp +contextual))
    · rw [if_neg hbud]
      have := ih₁ (xs ++ [b]) cs c ⟨word h.mem c.addr⟩ h (by simpa using hr) (by simpa using ho)
        (by simpa using hf) hl.2.2
      apply this.step.mono
      intro r hr
      obtain ⟨hr', hu⟩ := hr
      refine ⟨?_, hu.mono (by simp +contextual)⟩
      rw [merge, if_neg hbud]
      simpa using hr'

theorem merges : ∀ fuel, MergesLinked fuel ∧ MergesStale fuel
  | 0 => ⟨fun _ _ _ _ _ _ _ _ _ => .inr ⟨rfl, Nat.succ_pos _⟩,
      fun _ _ _ _ _ _ _ _ _ _ => .inr ⟨rfl, Nat.succ_pos _⟩⟩
  | fuel + 1 => ⟨mergesLinked_succ (merges fuel).1 (merges fuel).2, mergesStale_succ (merges fuel).1⟩

/-- `defragment` merges buddies in one pass. -/
theorem defragment_spec {h : Heap} {bs : List Block} (fuel : Nat) (hr : Represents h bs) (ho : Ordered bs)
    (hf : ∀ b ∈ bs, Room b) :
    Returns fuel (bs.length + 1) (Allocator.defragment fuel h) fun h' =>
      Represents h' (merge bs) ∧ Untouched bs h.mem h'.mem := by
  have hfold : Returns fuel (bs.length + 1) (h.iter.fold Allocator.defragmentStep fuel none h) fun r =>
      Represents r.2 (merge bs) ∧ Untouched bs h.mem r.2.mem := by
    cases fuel with
    | zero => exact .inr ⟨rfl, Nat.succ_pos _⟩
    | succ fuel =>
      cases bs with
      | nil =>
        rw [Iter.fold, Iter.next_nil (show Linked h.mem h.iter.current [] from hr.1)]
        exact .ok ⟨hr, Untouched.refl _ _⟩
      | cons b bs =>
        rw [Iter.fold, Iter.next_cons (show Linked h.mem h.iter.current (addrs (b :: bs)) from hr.1)]
        exact ((merges fuel).1 [] bs b ⟨word h.mem b.addr⟩ h hr ho hf hr.1.2.2).step
  exact hfold.bind fun r hr' => .ok hr'

end Osymandias
