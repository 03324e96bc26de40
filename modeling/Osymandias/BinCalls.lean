import Osymandias.BinSound

/-!
# The allocator's calls on a represented free list

`alloc`, `dealloc` and `new` on a heap that represents a list return what
`allocate`, `release` and `divide` say of the list. A call with enough fuel
returns; the only panics are those of the rounding of a request and of a
`dealloc` above every free block.
-/

namespace Osymandias

open Fuel Tiling BlockHeader

/-! ## Scans -/

section
variable {test : Memory → Nat → Bool} {q : Block → Bool} {h : Heap}

theorem scan_found (prev : ListPtr) (c : Nat) : ∀ (fuel : Nat) (as : List Nat) (it : Iter),
    Linked h.mem it.current as →
    Returns fuel (as.length + 1) (it.fold (Allocator.scanStep test) fuel (some prev, some c) h) fun r =>
      r = ((some prev, some c), h)
  | 0, _, _, _ => .inr ⟨rfl, Nat.succ_pos _⟩
  | fuel + 1, [], it, hl => by
    rw [Iter.fold, Iter.next_nil hl]
    exact .ok rfl
  | fuel + 1, a :: as, it, hl => by
    rw [Iter.fold, Iter.next_cons hl]
    exact (scan_found prev c fuel as ⟨word h.mem a⟩ hl.2.2).step

def scanned (q : Block → Bool) (prev : ListPtr) (bs : List Block) : Allocator.Scan :=
  match firstSplit q bs with
  | some (xs, b, _) => (some (ptrAfter prev (addrs xs)), some b.addr)
  | none => (some (ptrAfter prev (addrs bs)), none)

theorem scanned_cons_false {b : Block} (hb : q b = false) (prev : ListPtr) (bs : List Block) :
    scanned q prev (b :: bs) = scanned q (.node b.addr) bs := by
  unfold scanned
  rw [firstSplit, if_neg (by simp [hb])]
  cases firstSplit q bs <;> rfl

/-- The scans find the first block. `test` reads from the headers what `q`
says of the blocks. -/
theorem scan_spec (test : Memory → Nat → Bool) (q : Block → Bool) (h : Heap) :
    ∀ (fuel : Nat) (bs : List Block) (it : Iter) (prev : ListPtr),
    Linked h.mem it.current (addrs bs) → (∀ b ∈ bs, test h.mem b.addr = q b) →
    Returns fuel (bs.length + 1) (it.fold (Allocator.scanStep test) fuel (some prev, none) h) fun r =>
      r = (scanned q prev bs, h)
  | 0, _, _, _, _, _ => .inr ⟨rfl, Nat.succ_pos _⟩
  | fuel + 1, [], it, prev, hl, _ => by
    rw [Iter.fold, Iter.next_nil hl]
    exact .ok rfl
  | fuel + 1, b :: bs, it, prev, hl, hq => by
    rw [Iter.fold, Iter.next_cons hl]
    have hb := hq b (by simp)
    by_cases hqb : q b = true
    · have hfound := @scan_found test h prev b.addr fuel (addrs bs) ⟨word h.mem b.addr⟩ hl.2.2
      simp only [Allocator.scanStep, hb, hqb, if_true, bind, Except.bind]
      refine (hfound.step.weaken ?_).mono fun r hr => ?_
      · simp [addrs]
      · rw [hr, scanned, firstSplit, if_pos hqb]
        rfl
    · rw [Bool.not_eq_true] at hqb
      have ih := scan_spec test q h fuel bs ⟨word h.mem b.addr⟩ (.node b.addr) hl.2.2
        fun c hc => hq c (by simp [hc])
      simp only [Allocator.scanStep, hb, hqb, Bool.false_eq_true, if_false, bind, Except.bind]
      rw [scanned_cons_false hqb]
      exact ih.step

theorem find_spec (p : Node → Bool) (q : Block → Bool) (m : Memory) :
    ∀ (fuel : Nat) (bs : List Block) (it : IterMut),
    Linked m it.current (addrs bs) → (∀ b ∈ bs, ∀ prev, p ⟨prev, b.addr⟩ = q b) →
    Returns fuel (bs.length + 1) (it.find p fuel m) fun r =>
      r = (firstSplit q bs).map fun (xs, b, _) => ⟨ptrAfter it.prev (addrs xs), b.addr⟩
  | 0, _, _, _, _ => .inr ⟨rfl, Nat.succ_pos _⟩
  | fuel + 1, [], it, hl, _ => by
    rw [IterMut.find, IterMut.next_nil hl]
    exact .ok rfl
  | fuel + 1, b :: bs, it, hl, hq => by
    rw [IterMut.find, IterMut.next_cons hl]
    have hb := hq b (by simp) it.prev
    by_cases hqb : q b = true
    · simp only [hb, hqb, if_true, firstSplit]
      exact .ok rfl
    · rw [Bool.not_eq_true] at hqb
      have ih := find_spec p q m fuel bs ⟨.node b.addr, word m b.addr⟩ hl.2.2 fun c hc => hq c (by simp [hc])
      simp only [hb, hqb, Bool.false_eq_true, if_false, firstSplit]
      apply ih.step.mono
      intro r hr
      rw [hr]
      cases firstSplit q bs <;> rfl

end

/-! ## Rounding -/

theorem unwrap_ok {α : Type} {o : Option α} {a : α} (h : unwrap o = .ok a) : o = some a := by
  cases o with
  | none => cases h
  | some b => cases h; rfl

theorem fromSizeAlign_some {size align : Nat} {l : Layout} (h : Layout.fromSizeAlign size align = some l) :
    l.size = size ∧ l.align = align := by
  unfold Layout.fromSizeAlign at h
  split at h
  · split at h
    · cases h; exact ⟨rfl, rfl⟩
    · cases h
  · cases h

theorem checkedNextPowerOfTwo_some {n p : Nat} (h : checkedNextPowerOfTwo n = some p) :
    p.isPowerOfTwo ∧ n ≤ p := by
  unfold checkedNextPowerOfTwo at h
  split at h
  · cases h
    exact ⟨isPowerOfTwo_two_pow _, Nat.le_pow_clog (by decide) n⟩
  · cases h

theorem dvd_max_pow {a k : Nat} (ha : a.isPowerOfTwo) : a ∣ max a (2 ^ k) := by
  obtain ⟨j, rfl⟩ := ha
  rcases Nat.le_total (2 ^ j) (2 ^ k) with h | h
  · rw [Nat.max_eq_right h]
    exact pow_dvd_pow 2 ((Nat.pow_le_pow_iff_right (a := 2) (by decide)).mp h)
  · rw [Nat.max_eq_left h]

/-- Rounding. A rounded request is a power of two from 16 on, at least as
large and as aligned as the request. -/
theorem innerLayout_some {layout inner : Layout} (h : Allocator.innerLayout layout = .ok (some inner)) :
    inner.size.isPowerOfTwo ∧ 16 ∣ inner.size ∧ layout.size ≤ inner.size ∧ layout.align ∣ inner.align := by
  obtain ⟨n, hn, hl⟩ : ∃ n, (n.isPowerOfTwo ∧ max layout.size 16 ≤ n) ∧
      Layout.fromSizeAlign n (max layout.align 16) = some inner := by
    simp only [Allocator.innerLayout, BLOCK_LEN, bind, Except.bind, pure, Except.pure] at h
    by_cases hpow : (max layout.size 16).isPowerOfTwo
    · simp only [hpow, not_true, if_false] at h
      exact ⟨_, ⟨hpow, le_rfl⟩, Except.ok.inj h⟩
    · simp only [hpow, not_false_eq_true, if_true] at h
      split at h
      · cases h
      · rename_i n hn
        exact ⟨n, checkedNextPowerOfTwo_some (unwrap_ok hn), Except.ok.inj h⟩
  obtain ⟨hsize, halign⟩ := fromSizeAlign_some hl
  obtain ⟨⟨k, rfl⟩, hle⟩ := hn
  have h4 : 2 ^ 4 ≤ 2 ^ k := by omega
  refine ⟨⟨k, hsize⟩, ?_, by omega, ?_⟩
  · rw [hsize]
    exact sixteen_dvd_pow ((Nat.pow_le_pow_iff_right (a := 2) (by decide)).mp h4)
  · rw [halign]
    exact dvd_max_pow (k := 4) layout.align_pow

theorem innerLayout_of_le {layout : Layout} (h : layout.size ≤ 2 ^ 63) :
    ∃ inner, Allocator.innerLayout layout = .ok (some inner) ∧ inner.size = 2 ^ Nat.clog 2 (max layout.size 16) ∧
      inner.align = max layout.align 16 := by
  obtain ⟨j, hj, hj63⟩ := layout.align_eq_two_pow
  have hmax : max layout.align 16 = 2 ^ max j 4 := by
    rw [hj, show (16 : Nat) = 2 ^ 4 from rfl]
    exact ((pow_right_strictMono₀ (show 1 < 2 by decide)).monotone.map_max).symm
  have halign : 2 ^ max j 4 ≤ 2 ^ 63 := Nat.pow_le_pow_right (by decide) (by omega)
  have hsize : 2 ^ Nat.clog 2 (max layout.size 16) ≤ 2 ^ 63 :=
    Nat.pow_le_pow_right (by decide) (Nat.clog_le_of_le_pow (by omega))
  have hfrom : ∃ inner,
      Layout.fromSizeAlign (2 ^ Nat.clog 2 (max layout.size 16)) (max layout.align 16) = some inner := by
    rw [hmax, Layout.fromSizeAlign, dif_pos ⟨isPowerOfTwo_two_pow _, by unfold usizeMax; omega⟩,
      dif_pos (by unfold usizeMax; omega)]
    exact ⟨_, rfl⟩
  obtain ⟨inner, hinner⟩ := hfrom
  obtain ⟨hsz, hal⟩ := fromSizeAlign_some hinner
  refine ⟨inner, ?_, hsz, hal⟩
  simp only [Allocator.innerLayout, BLOCK_LEN, bind, Except.bind, pure, Except.pure]
  by_cases hpow : (max layout.size 16).isPowerOfTwo
  · obtain ⟨k, hk⟩ := hpow
    rw [hk, Nat.clog_pow 2 k (by decide)] at hinner
    simp only [hk, isPowerOfTwo_two_pow, not_true, if_false, hinner]
  · simp only [hpow, not_false_eq_true, if_true,
      checkedNextPowerOfTwo_eq (show max layout.size 16 ≤ 2 ^ 63 by omega), unwrap, hinner]

theorem innerLayout_panics {layout : Layout} (h : 2 ^ 63 < layout.size) : Allocator.innerLayout layout =
    .error (.panic "called `Option::unwrap()` on a `None` value") := by
  have hmax : max layout.size 16 = layout.size := Nat.max_eq_left (by omega)
  have hpow : ¬ layout.size.isPowerOfTwo := by
    intro hpow
    obtain ⟨k, hk⟩ := hpow
    have hle := layout.size_le
    have hlt : 63 < k := (Nat.pow_lt_pow_iff_right (show 1 < 2 by decide)).mp (by omega)
    have hk64 : k < 64 := pow_lt_usize (by unfold usizeMax at hle; omega)
    omega
  simp only [Allocator.innerLayout, BLOCK_LEN, hmax, hpow, not_false_eq_true, if_true,
    checkedNextPowerOfTwo_eq_none h]
  rfl

theorem innerLayout_cases (layout : Layout) :
    (∃ inner, Allocator.innerLayout layout = .ok (some inner)) ∨
    ∃ msg, (Allocator.innerLayout layout >>= unwrap) = .error (.panic msg) := by
  simp only [Allocator.innerLayout, BLOCK_LEN, bind, Except.bind, pure, Except.pure]
  generalize max layout.align 16 = a
  by_cases hpow : (max layout.size 16).isPowerOfTwo
  · simp only [hpow, not_true, if_false]
    cases hl : Layout.fromSizeAlign (max layout.size 16) a with
    | none => exact .inr ⟨_, rfl⟩
    | some inner => exact .inl ⟨inner, rfl⟩
  · simp only [hpow, not_false_eq_true, if_true]
    cases checkedNextPowerOfTwo (max layout.size 16) with
    | none => exact .inr ⟨_, rfl⟩
    | some n =>
      simp only [unwrap]
      cases hl : Layout.fromSizeAlign n a with
      | none => exact .inr ⟨_, rfl⟩
      | some inner => exact .inl ⟨inner, rfl⟩

/-! ## Allocation -/

section
variable {h : Heap} {bs xs ys : List Block} {b : Block} {layout : Layout}

theorem matchesExact_eq (layout : Layout) (hr : Represents h bs) (hb : b ∈ bs) :
    matchesExact h.mem b.addr layout = (b.size == layout.size && b.addr % layout.align == 0) := by
  rw [matchesExact, hr.2 b hb]

theorem matchesContains_eq (layout : Layout) (hr : Represents h bs) (hb : b ∈ bs) :
    matchesContains h.mem b.addr layout = (decide (b.size > layout.size) && b.addr % layout.align == 0) := by
  rw [matchesContains, hr.2 b hb]

theorem splitBlock_spec (hr : Represents h (xs ++ b :: ys)) (ho : Ordered (xs ++ b :: ys))
    (hg : ∀ d ∈ xs ++ b :: ys, Grain d) (h16 : 16 ∣ layout.size) (hpos : 0 < layout.size)
    (hlt : layout.size < b.size) :
    ∃ h', Allocator.splitBlock h (ptrAfter .head (addrs xs)) b.addr layout = .ok (b.addr, h') ∧
      Represents h' (xs ++ ⟨b.addr + layout.size, b.size - layout.size⟩ :: ys) ∧
      Untouched (xs ++ b :: ys) h.mem h'.mem := by
  have hb := hg b (by simp)
  have hn16 := Nat.le_of_dvd hpos h16
  have hrest := (hb.rest h16 hlt)
  have hrest16 := hrest.sixteen_le
  have hend := hb.end_lt
  have hsp := spaced_of_grain ho.separate hg
  simp only at hrest16
  generalize hc : b.addr + layout.size = c at *
  have hsat : saturatingAdd b.addr layout.size = c := by
    rw [saturatingAdd, Nat.min_eq_left (by unfold usizeMax; omega), hc]
  have haway : ∀ d ∈ xs ++ b :: ys, d.addr + 16 ≤ c ∨ c + 16 ≤ d.addr :=
    fun d hd => header_away ho.separate hg (by omega) (by omega) d hd
  -- the remainder's header is written while the list is still whole
  let m₂ := setSize (newFromPtr h.mem c) c (b.size - layout.size)
  have hr₂ : Represents ⟨h.head, m₂⟩ (xs ++ b :: ys) := (hr.setSize_away haway).setSize_away haway
  obtain ⟨h₁, hpop, -, hr₁, hu₁⟩ := hr₂.pop hsp
  have hsz : size (newFromPtr h.mem c) b.addr = b.size :=
    (size_setSize_of_apart _ _ (by omega)).trans (hr.2 b (by simp))
  have hsize : size h₁.mem c = b.size - layout.size := by
    refine (word_congr fun x h₁ h₂ => hu₁ x fun d hd => ?_).trans (size_setSize_self _ _ (by omega))
    have := haway d (by simp [hd])
    omega
  have hg' := forall_mem_replace [⟨c, b.size - layout.size⟩] hg (by simpa using hrest)
  have ho' : Ordered (xs ++ ⟨c, b.size - layout.size⟩ :: ys) := hc ▸ ho.rest (Nat.le_of_lt hlt)
  obtain ⟨hr', hu'⟩ := hr₁.push (spaced_of_grain ho'.separate hg') hsize (by simp only; omega) fun d hd => by
    have := (hg' d (List.mem_append_right _ hd)).end_lt
    omega
  refine ⟨_, ?_, hr', ?_⟩
  · have hne : b.addr ≠ c := by omega
    have hdiff : c - b.addr = layout.size := by omega
    simp only [Allocator.splitBlock, hsat, saturatingSub, hsz, hdiff]
    rw [show (Heap.mk h.head (setSize (newFromPtr h.mem c) c (b.size - layout.size))).pop
      (ptrAfter .head (addrs xs)) = (some b.addr, h₁) from hpop]
    simp [unwrap, bind, Except.bind, pure, Except.pure, hne]
  · have hmem : b ∈ xs ++ b :: ys := by simp
    have hu₀ : Untouched (xs ++ b :: ys) h.mem m₂ :=
      (untouched_setWord hmem _ (by omega) (by omega)).trans (untouched_setWord hmem _ (by omega) (by omega))
    have hx16 : ∀ d ∈ xs, 16 ≤ d.size := fun d hd => (hg d (by simp [hd])).sixteen_le
    have hu₃ : Untouched (b :: xs) h₁.mem _ := Untouched.parts [⟨c, b.size - layout.size⟩]
      (hu'.untouched (List.forall_mem_cons.mpr ⟨hrest16, hx16⟩)) (by simp; omega)
    exact (hu₀.trans ((hu₁.untouched hx16).mono (by simp +contextual))).trans (hu₃.mono (by simp +contextual))

/-- `alloc_inner` is `allocate`. -/
theorem allocInner_spec (fuel : Nat) (hr : Represents h bs) (ho : Ordered bs) (hg : ∀ b ∈ bs, Grain b)
    (h16 : 16 ∣ layout.size) (hpos : 0 < layout.size) :
    Returns fuel (bs.length + 1) (Allocator.allocInner fuel h layout) fun r =>
      match allocate layout.size layout.align bs with
      | some (p, bs') => r.1 = .ok p ∧ Represents r.2 bs' ∧ Untouched bs h.mem r.2.mem
      | none => r = (.error (.exhausted layout), h) := by
  have hfind := find_spec (fun node => matchesExact h.mem node.value layout)
    (fun b => b.size == layout.size && b.addr % layout.align == 0) h.mem fuel bs h.iterMut
    hr.1 fun b hb _ => matchesExact_eq layout hr hb
  apply hfind.bind
  intro r hr₁
  subst hr₁
  cases hs₁ : firstSplit (fun b => b.size == layout.size && b.addr % layout.align == 0) bs with
  | some t =>
    obtain ⟨xs, b, ys⟩ := t
    obtain ⟨rfl, -, -⟩ := firstSplit_some hs₁
    obtain ⟨h', -, hset, hr', hu⟩ := hr.pop (spaced_of_grain ho.separate hg)
    simp only [allocate, hs₁]
    refine .ok ⟨rfl, ?_⟩
    have : (Node.pop ⟨ptrAfter h.iterMut.prev (addrs xs), b.addr⟩ h).2 = h' := by rw [hset]; rfl
    rw [this]
    exact ⟨hr', (hu.untouched fun d hd => (hg d (by simp [hd])).sixteen_le).mono (by simp +contextual)⟩
  | none =>
    have hscan := scan_spec (fun m cur => matchesContains m cur layout)
      (fun b => decide (b.size > layout.size) && b.addr % layout.align == 0) h fuel bs h.iter .head
      hr.1 fun b hb => matchesContains_eq layout hr hb
    apply hscan.bind
    intro r hr₂
    subst hr₂
    cases hs₂ : firstSplit (fun b => decide (b.size > layout.size) && b.addr % layout.align == 0) bs with
    | some t =>
      obtain ⟨xs, b, ys⟩ := t
      obtain ⟨rfl, hb, -⟩ := firstSplit_some hs₂
      simp only [Bool.and_eq_true, decide_eq_true_eq] at hb
      obtain ⟨h', hsplit, hr', hu⟩ := splitBlock_spec hr ho hg h16 hpos hb.1
      simp only [allocate, hs₁, hs₂, scanned, hsplit]
      exact .ok ⟨rfl, hr', hu⟩
    | none =>
      simp only [allocate, hs₁, hs₂, scanned]
      exact .ok rfl

theorem weight_le_total : ∀ bs : List Block, weight bs ≤ total bs
  | [] => le_rfl
  | b :: bs => by
    have := weight_le_total bs
    rw [weight_cons, total_cons]
    omega

theorem length_le_total : ∀ {bs : List Block}, (∀ b ∈ bs, Grain b) → bs.length ≤ total bs
  | [], _ => le_rfl
  | b :: bs, h => by
    have := length_le_total fun c hc => h c (List.mem_cons_of_mem b hc)
    have := (h b (by simp)).size_pos
    rw [total_cons, List.length_cons]
    omega

/-- The allocator `a'` is `a` with another heap, which represents `bs'` and was
written inside `bs` only. -/
structure Updates (a a' : Allocator) (bs bs' : List Block) : Prop where
  start_eq : a'.start = a.start
  end_eq : a'.end = a.end
  represents : Represents a'.toHeap bs'
  untouched : Untouched bs a.mem a'.mem

theorem alloc_spec {self : Allocator} {inner : Layout} (fuel : Nat) (hr : Represents self.toHeap bs)
    (ho : Ordered bs) (hg : ∀ b ∈ bs, Grain b) (hi : Allocator.innerLayout layout = .ok (some inner)) :
    Returns fuel (total bs + 1) (self.alloc fuel layout) fun r =>
      match allocate inner.size inner.align bs with
      | some (p, bs') => r.1 = .ok p ∧ Updates self r.2 bs (divideAll bs')
      | none => r = (.error (.exhausted layout), self) := by
  obtain ⟨hpow, h16, -, -⟩ := innerLayout_some hi
  have hlen := length_le_total hg
  have hinner := allocInner_spec fuel hr ho hg h16 (Nat.pos_of_isPowerOfTwo hpow)
  simp only [Allocator.alloc, hi, unwrap, bind, Except.bind]
  apply (hinner.weaken (by omega)).bind
  intro r hr₁
  cases hal : allocate inner.size inner.align bs with
  | none =>
    rw [hal] at hr₁
    simp only at hr₁
    subst hr₁
    exact .ok rfl
  | some t =>
    obtain ⟨p, bs'⟩ := t
    rw [hal] at hr₁
    obtain ⟨res, h₁⟩ := r
    obtain ⟨rfl, hrep, hu⟩ := hr₁
    have hdiv := divideMaximally_spec fuel hrep (allocate_ordered hal ho).separate (allocate_grain hal hg h16)
    have hw := weight_le_total bs'
    have ht := allocate_total hal
    apply (hdiv.weaken (by omega)).bind
    intro h₂ hh₂
    obtain ⟨hrep', hu'⟩ := hh₂
    refine .ok ⟨rfl, rfl, rfl, hrep', ?_⟩
    refine hu.trans (hu'.widen fun b hb x hx => ?_)
    have hc := allocate_cover hal x
    have hpos := cover_pos.mpr ⟨b, hb, hx⟩
    exact cover_pos.mp (by omega)

/-! ## Deallocation -/

theorem deallocInner_spec {f : Block} {bs' : List Block} (fuel : Nat) (hr : Represents h bs) (ho' : Ordered bs')
    (hg' : ∀ b ∈ bs', Grain b) (hrel : release f bs = some bs') (hn : layout.size = f.size)
    (hal : f.addr % layout.align = 0) (hf : f.addr ≠ 0) :
    Returns fuel (bs.length + 1) (Allocator.deallocInner fuel h f.addr layout) fun h' =>
      Represents h' bs' ∧ Untouched (f :: bs) h.mem h'.mem := by
  have hscan := scan_spec (fun _ cur => decide (f.addr < cur)) (fun b => decide (f.addr < b.addr)) h fuel bs h.iter
    .head hr.1 fun _ _ => rfl
  apply hscan.bind
  intro r hr₁
  subst hr₁
  have hsp := spaced_of_grain ho'.separate hg'
  unfold release at hrel
  cases hs : firstSplit (fun b => decide (f.addr < b.addr)) bs with
  | none => rw [hs] at hrel; cases hrel
  | some t =>
    obtain ⟨xs, b, ys⟩ := t
    obtain ⟨rfl, -, -⟩ := firstSplit_some hs
    rw [hs] at hrel
    cases hrel
    have hfg := hg' f (by simp)
    have hend := hfg.end_lt
    have hf16 := hfg.sixteen_le
    have haway : ∀ d ∈ xs ++ b :: ys, d.addr + 16 ≤ f.addr ∨ f.addr + 16 ≤ d.addr := by
      intro d hd
      obtain ⟨-, hsf, hxf⟩ := spaced_append.mp hsp
      rcases List.mem_append.mp hd with hd | hd
      · exact hxf d hd f (by simp)
      · exact ((spaced_cons.mp hsf).1 d hd).symm
    let m₁ := setSize (newFromPtr h.mem f.addr) f.addr f.size
    have hr₁ : Represents ⟨h.head, m₁⟩ (xs ++ b :: ys) := (hr.setSize_away haway).setSize_away haway
    obtain ⟨hr', hu'⟩ := hr₁.push hsp (size_setSize_self _ _ (by omega)) hf fun d hd => by
      have := (hg' d (List.mem_append_right _ hd)).end_lt
      omega
    simp only [scanned, hs, hal, if_true, hn]
    refine .ok ⟨hr', ?_⟩
    have hmem : f ∈ f :: (xs ++ b :: ys) := by simp
    refine ((untouched_setWord hmem _ (by omega) (by omega)).trans
      (untouched_setWord hmem _ (by omega) (by omega))).trans ((hu'.untouched fun d hd => ?_).mono ?_)
    · rcases List.mem_cons.mp hd with rfl | hd
      · exact hf16
      · exact (hg' d (by simp [hd])).sixteen_le
    · intro d hd
      rcases List.mem_cons.mp hd with rfl | hd
      · exact hmem
      · simp [hd]

section
variable {self : Allocator} {inner : Layout} {f : Block}

/-- `dealloc` on a represented list, of a block that lies below some free block. -/
theorem dealloc_spec {bs' : List Block} (fuel : Nat) (hr : Represents self.toHeap bs) (ho' : Ordered bs')
    (hf' : ∀ b ∈ bs', Fit b) (hrel : release f bs = some bs')
    (hi : Allocator.innerLayout layout = .ok (some inner)) (hn : inner.size = f.size)
    (hal : f.addr % inner.align = 0) (hf : f.addr ≠ 0) (hin : self.start ≤ f.addr ∧ f.addr < self.end) :
    Returns fuel (bs.length + 2) (self.dealloc fuel f.addr layout) fun a =>
      Updates self a (f :: bs) (merge bs') := by
  have hlen : bs'.length = bs.length + 1 := by rw [(release_perm hrel).length_eq]; rfl
  have hinner := deallocInner_spec fuel hr ho' (fun b hb => (hf' b hb).toGrain) hrel hn hal hf
  rw [Allocator.dealloc, if_neg (by omega)]
  simp only [hi, unwrap, bind, Except.bind]
  apply (hinner.weaken (by omega)).bind
  intro h₁ hh₁
  obtain ⟨hr₁, hu₁⟩ := hh₁
  apply ((defragment_spec fuel hr₁ ho' fun b hb => (hf' b hb).room).weaken (by omega)).bind
  intro h₂ hh₂
  obtain ⟨hr₂, hu₂⟩ := hh₂
  exact .ok ⟨rfl, rfl, hr₂, hu₁.trans (hu₂.mono fun b hb => (release_perm hrel).mem_iff.mp hb)⟩

theorem dealloc_panics (fuel : Nat) (hr : Represents self.toHeap bs) (hrel : release f bs = none)
    (hi : Allocator.innerLayout layout = .ok (some inner)) (hin : self.start ≤ f.addr ∧ f.addr < self.end) :
    self.dealloc fuel f.addr layout = .error (.panic "invalid pointer provided") ∨
      (self.dealloc fuel f.addr layout = .error .outOfFuel ∧ fuel < bs.length + 1) := by
  have hscan := scan_spec (fun _ cur => decide (f.addr < cur)) (fun b => decide (f.addr < b.addr)) self.toHeap
    fuel bs self.iter .head hr.1 fun _ _ => rfl
  have hs : firstSplit (fun b => decide (f.addr < b.addr)) bs = none := by
    unfold release at hrel
    split at hrel
    · cases hrel
    · assumption
  rw [Allocator.dealloc, if_neg (by omega)]
  simp only [hi, unwrap, bind, Except.bind, Allocator.deallocInner, Allocator.insertStep]
  rcases hscan with ⟨r, hfold, rfl⟩ | ⟨hfold, hfuel⟩
  · rw [hfold]
    simp [scanned, hs]
  · rw [hfold]
    exact .inr ⟨rfl, hfuel⟩

end

end

/-! ## Creation -/

theorem nextPtr_size {p n c : Nat} (h : Allocator.nextPtr p n = .ok c) : 0 < n ∧ n ≤ 2 ^ 63 := by
  constructor
  · rcases Nat.eq_zero_or_pos n with rfl | hn
    · have : Allocator.nextPowerOfTwoBelow 0 = .ok 0 := by decide
      have hzero : alignUp p 0 = .error (.panic "aligment must be a power of two") := by
        rw [alignUp, alignDown, if_pos Nat.not_isPowerOfTwo_zero]
      simp [Allocator.nextPtr, this, hzero, bind, Except.bind] at h
    · exact hn
  · by_contra hn
    have h64 : 64 ≤ Nat.clog 2 n := Nat.lt_clog_iff_pow_lt (by decide) |>.mpr (by omega)
    have hbig : ¬ 2 ^ Nat.clog 2 n ≤ usizeMax := by
      have := Nat.pow_le_pow_right (show 0 < 2 by decide) h64
      unfold usizeMax
      omega
    simp [Allocator.nextPtr, Allocator.nextPowerOfTwoBelow, checkedNextPowerOfTwo, hbig, unwrap, bind,
      Except.bind] at h

section
variable {start «end» S E : Nat} {m : Memory} {fuel : Nat}

def wholeRegion (S E : Nat) (m : Memory) : Heap :=
  ⟨⟨S⟩, setWord (setSize (newFromPtr m S) S (E - S)) S 0⟩

theorem wholeRegion_represents (hS : S ≠ 0) (hE : E < 2 ^ 64) : Represents (wholeRegion S E m) [⟨S, E - S⟩] := by
  refine ⟨⟨rfl, hS, word_setWord_self _ _ (Nat.two_pow_pos 64)⟩, fun b hb => ?_⟩
  rw [List.mem_singleton.mp hb]
  exact (size_setWord _ _ (.inl le_rfl)).trans (size_setSize_self _ _ (by omega))

theorem new_eq (hS : alignUp start 16 = .ok S) (hE : alignDown «end» 16 = .ok E) (hle : S ≤ E) :
    Allocator.new fuel start «end» m =
      (Allocator.divideMaximally fuel (wholeRegion S E m)).map
        fun h => { toHeap := h, start := S, «end» := E } := by
  simp only [Allocator.new, BLOCK_LEN, hS, hE, bind, Except.bind, usizeSub, if_pos hle]
  rfl

theorem grain_region (hS : alignUp start 16 = .ok S) (hE : alignDown «end» 16 = .ok E) (hlt : S < E)
    (hle : E - S ≤ 2 ^ 63) : Grain ⟨S, E - S⟩ := by
  obtain ⟨S', hS', hSd, -⟩ := alignDown_dvd (saturatingSub (saturatingAdd start 16) 1) (show 4 ≤ 64 by decide)
  obtain ⟨E', hE', hEd, hElt⟩ := alignDown_dvd «end» (show 4 ≤ 64 by decide)
  have h₁ : S' = S := Except.ok.inj (hS'.symm.trans hS)
  have h₂ : E' = E := Except.ok.inj (hE'.symm.trans hE)
  subst h₁ h₂
  exact ⟨hSd, Nat.dvd_sub hEd hSd, by simp only; omega, hle, by simp only; omega⟩

/-- `new` returns, on a region of 16-byte grains that is not empty nor too large. -/
theorem new_spec (fuel : Nat) (m : Memory) (hS : alignUp start 16 = .ok S)
    (hE : alignDown «end» 16 = .ok E) (hS0 : S ≠ 0) (hlt : S < E)
    (hle : E - S ≤ 2 ^ 63) :
    Returns fuel (E - S + 1) (Allocator.new fuel start «end» m) fun a =>
      a.start = S ∧ a.end = E ∧ Represents a.toHeap (divideAll [⟨S, E - S⟩]) := by
  have hg := grain_region hS hE hlt hle
  have hend := hg.end_lt
  have hrep := wholeRegion_represents (m := m) hS0 (show E < 2 ^ 64 by simp only at hend; omega)
  have hdiv := divideMaximally_spec fuel hrep (List.pairwise_singleton ..) (by simpa using hg)
  have hw : weight [⟨S, E - S⟩] ≤ E - S := (weight_le_total _).trans_eq (by simp)
  rw [new_eq hS hE hlt.le]
  rcases hdiv.weaken (Nat.succ_le_succ hw) with ⟨h, hok, hr, -⟩ | ⟨herr, hf⟩
  · rw [hok]
    exact .ok ⟨rfl, rfl, hr⟩
  · rw [herr]
    exact .inr ⟨rfl, hf⟩

/-- What `new` can return. From the null address the list is empty;
otherwise the region was not empty nor too large. -/
theorem new_ok {a : Allocator} (h : Allocator.new fuel start «end» m = .ok a) :
    ∃ S E, alignUp start 16 = .ok S ∧ alignDown «end» 16 = .ok E ∧ a.start = S ∧ a.end = E ∧
      ((S = 0 ∧ Represents a.toHeap []) ∨
        (S ≠ 0 ∧ S < E ∧ E - S ≤ 2 ^ 63 ∧ Represents a.toHeap (divideAll [⟨S, E - S⟩]))) := by
  obtain ⟨S, hS, -, -⟩ := alignDown_dvd (saturatingSub (saturatingAdd start 16) 1) (show 4 ≤ 64 by decide)
  obtain ⟨E, hE, -, hElt⟩ := alignDown_dvd «end» (show 4 ≤ 64 by decide)
  have hle : S ≤ E := by
    by_contra hlt
    simp only [Allocator.new, BLOCK_LEN, show alignUp start 16 = .ok S from hS,
      show alignDown «end» 16 = .ok E from hE, bind, Except.bind, usizeSub, if_neg hlt] at h
    cases h
  rw [new_eq hS hE hle] at h
  refine ⟨S, E, hS, hE, ?_⟩
  obtain ⟨h', hd, h⟩ := bind_ok h
  cases h
  refine ⟨rfl, rfl, ?_⟩
  cases fuel with
  | zero => cases hd
  | succ fuel =>
    rcases Nat.eq_zero_or_pos S with rfl | hpos
    · left
      cases hd
      exact ⟨rfl, rfl, by simp⟩
    · right
      have hS0 : S ≠ 0 := by omega
      have hrep := wholeRegion_represents (m := m) hS0 hElt
      have hsize : 0 < E - S ∧ E - S ≤ 2 ^ 63 := by
        have hl : Linked (wholeRegion S E m).mem (wholeRegion S E m).iter.current [S] := hrep.1
        rw [Allocator.divideMaximally, Allocator.divideLoop, Iter.peek_cons hl] at hd
        simp only [show size (wholeRegion S E m).mem S = E - S from hrep.2 ⟨S, E - S⟩ (by simp)] at hd
        obtain ⟨c, hn, -⟩ := bind_ok hd
        exact nextPtr_size hn
      have hspec := new_spec (fuel + 1) m hS hE hS0 (by omega) hsize.2
      have hnew : Allocator.new (fuel + 1) start «end» m = .ok ⟨h', S, E⟩ := by rw [new_eq hS hE hle, hd]; rfl
      exact ⟨hS0, by omega, hsize.2, (hspec.of_ok hnew).2.2⟩

end

end Osymandias
