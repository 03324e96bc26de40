import Osymandias.BinSafety

/-!
# What the bin allocator serves

When `alloc` serves a request in a reachable state, what it does to the free
list when it does, and what freeing does to the requests that can be served.
-/

namespace Osymandias

open Fuel Tiling

def Grants (a : Allocator) (layout : Layout) : Prop :=
  Ensures (fun fuel => a.alloc fuel layout) fun r => ∃ p, r.1 = .ok p

def Served (n a : Nat) (free : List Block) : Prop := ∃ b ∈ free, n ≤ b.size ∧ b.addr % a = 0

section
variable {lo hi : Nat} {a : Allocator} {P : Pool lo hi} {layout inner : Layout}

theorem Refines.alloc_served (hr : Refines a P) (hi : Allocator.innerLayout layout = .ok (some inner))
    (hs : Served inner.size inner.align P.free) : Grants a layout := by
  obtain ⟨⟨p, bs⟩, ha⟩ := allocate_isSome.mpr hs
  apply ensures_of_returns
  intro fuel
  apply (hr.alloc_returns hi fuel).mono
  intro r hr'
  rw [ha] at hr'
  exact ⟨p, hr'.1⟩

theorem Refines.alloc_refused (hr : Refines a P) (hi : Allocator.innerLayout layout = .ok (some inner))
    (hs : ¬ Served inner.size inner.align P.free) :
    Yields (fun fuel => a.alloc fuel layout) (.error (.exhausted layout), a) := by
  have ha : allocate inner.size inner.align P.free = none := by
    by_contra hne
    exact hs (allocate_isSome.mp (Option.ne_none_iff_exists'.mp hne))
  apply yields_of_returns
  intro fuel
  apply (hr.alloc_returns hi fuel).mono
  intro r hr'
  rw [ha] at hr'
  exact hr'

theorem Refines.exhausted_iff (hr : Refines a P) (hi : Allocator.innerLayout layout = .ok (some inner)) :
    (∃ fuel a', a.alloc fuel layout = .ok (.error (.exhausted layout), a')) ↔
      ¬ Served inner.size inner.align P.free := by
  constructor
  · rintro ⟨fuel, a', hok⟩ hs
    obtain ⟨⟨p, bs⟩, ha⟩ := allocate_isSome.mpr hs
    have hspec := (hr.alloc_returns hi fuel).of_ok hok
    rw [ha] at hspec
    cases hspec.1
  · intro hs
    obtain ⟨n, hn⟩ := hr.alloc_refused hi hs
    exact ⟨n, a, hn n le_rfl⟩

theorem Refines.grants_iff (hr : Refines a P) (hi : Allocator.innerLayout layout = .ok (some inner)) :
    Grants a layout ↔ Served inner.size inner.align P.free := by
  refine ⟨fun hg => ?_, hr.alloc_served hi⟩
  by_contra hs
  obtain ⟨n, hn⟩ := hg
  obtain ⟨k, hk⟩ := hr.alloc_refused hi hs
  obtain ⟨r, hok, p, hp⟩ := hn (max n k) (Nat.le_max_left ..)
  rw [hk (max n k) (Nat.le_max_right ..)] at hok
  cases hok
  cases hp

end

/-! ## Freeing -/

section
variable {lo hi : Nat} {P P' : Pool lo hi} {l : Live} {n a : Nat}

theorem Pool.dealloc_free (h : P.dealloc l = .ok P') : ∃ bs, bs.Perm (l.block :: P.free) ∧ P'.free = merge bs := by
  unfold Pool.dealloc at h
  split at h
  · split at h
    · cases h
    · rename_i bs hr
      cases h
      exact ⟨bs, release_perm hr, rfl⟩
  · cases h

theorem Pool.dealloc_served (h : P.dealloc l = .ok P') (hl : l ∈ P.live) (ha : a.isPowerOfTwo)
    (hs : Served n a (l.block :: P.free)) : Served n a P'.free := by
  obtain ⟨bs, hperm, hfree⟩ := Pool.dealloc_free h
  have hpow : ∀ b ∈ bs, b.size.isPowerOfTwo := by
    intro b hb
    rcases List.mem_cons.mp (hperm.mem_iff.mp hb) with rfl | hb
    · exact (P.placed l hl).fit.size_pow
    · exact (P.fit b hb).size_pow
  obtain ⟨b, hb, hserves⟩ := hs
  unfold Served
  rw [hfree]
  exact merge_serves ha bs hpow ⟨b, hperm.mem_iff.mpr hb, hserves⟩

end

section
variable {start «end» : Nat} {h : List (Call × Reply)} {s : System}

/-- **Freeing never hurts.** After a `dealloc` that returns, `alloc` serves every
request it would have served before, and the request that was freed. -/
theorem run_dealloc_grants (hrun : Run start «end» h s) {l : Live} (hl : l ∈ s.live) {fuel : Nat} {a : Allocator}
    (hd : s.allocator.dealloc fuel l.ptr l.layout = .ok a) :
    (∀ layout : Layout, layout.size ≤ 2 ^ 62 → Grants s.allocator layout → Grants a layout) ∧
      Grants a l.layout := by
  obtain ⟨lo, hi, P, hm⟩ := hrun.models
  have hl' : l ∈ P.live := hm.live_eq ▸ hl
  obtain ⟨P', hP', href, -⟩ := (dealloc_refines fuel hm.refines hl').of_ok hd
  refine ⟨fun layout hsize hg => ?_, ?_⟩
  · obtain ⟨inner, hin, -, -⟩ := innerLayout_of_le (hsize.trans (by decide))
    obtain ⟨b, hb, hserves⟩ := (hm.refines.grants_iff hin).mp hg
    refine href.alloc_served hin (Pool.dealloc_served hP' hl' inner.align_pow ?_)
    exact ⟨b, List.mem_cons_of_mem _ hb, hserves⟩
  · obtain ⟨inner, hin, hal, -⟩ := P.placed l hl'
    refine href.alloc_served hin (Pool.dealloc_served hP' hl' inner.align_pow ?_)
    rw [Live.block_eq hin]
    exact ⟨_, List.mem_cons_self, le_rfl, hal⟩

/-! ## Locality -/

/-- `free'` is `free` with the block at `p` taken out, or replaced by consecutive
blocks that cover what it has from `p + n` on. -/
def TakesFrom (p n : Nat) (free free' : List Block) : Prop :=
  ∃ xs b ys mid, free = xs ++ b :: ys ∧ b.addr = p ∧ free' = xs ++ (mid ++ ys) ∧
    ((b.size = n ∧ mid = []) ∨ (n < b.size ∧ Consecutive (b.addr + b.size) (p + n) mid))

theorem takesFrom_of_allocate {n a p : Nat} {bs bs' : List Block} (hf : ∀ b ∈ bs, Fit b)
    (h : allocate n a bs = some (p, bs')) : TakesFrom p n bs (divideAll bs') := by
  obtain ⟨xs, b, ys, rfl, hn, -, rfl, rfl⟩ | ⟨xs, b, ys, rfl, hn, -, rfl, rfl⟩ := allocate_some h
  · refine ⟨xs, b, ys, [], rfl, rfl, ?_, .inl ⟨hn, rfl⟩⟩
    rw [List.nil_append]
    exact divideAll_of_fit fun c hc => hf c (by rcases List.mem_append.mp hc with hc | hc <;> simp [hc])
  · -- the pass goes over the whole list, but only the remainder of `b` does not fit
    refine ⟨xs, b, ys, divide ⟨b.addr + n, b.size - n⟩, rfl, rfl, ?_, .inr ⟨hn, ?_⟩⟩
    · rw [divideAll_append, divideAll_cons, divideAll_of_fit fun c hc => hf c (by simp [hc]),
        divideAll_of_fit fun c hc => hf c (by simp [hc])]
    · have hc := consecutive_divide ⟨b.addr + n, b.size - n⟩ (by simp only; omega)
      simp only [show b.addr + n + (b.size - n) = b.addr + b.size by omega] at hc
      exact hc

/-- **Locality and failure atomicity.** `alloc` returns. Refusing a request leaves
the allocator and its memory as they are; serving one touches one block of the
free list and leaves the others in their places. -/
theorem run_alloc_local (hrun : Run start «end» h s) {layout : Layout} (hsize : layout.size ≤ 2 ^ 62) :
    ∃ inner free, Allocator.innerLayout layout = .ok (some inner) ∧ Yields s.allocator.freeList free ∧
      Ensures (fun fuel => s.allocator.alloc fuel layout) fun r =>
        r = (.error (.exhausted layout), s.allocator) ∨
        ∃ p free', r.1 = .ok p ∧ Yields r.2.freeList free' ∧ TakesFrom p inner.size free free' := by
  obtain ⟨lo, hi, P, hm⟩ := hrun.models
  obtain ⟨inner, hin, -, -⟩ := innerLayout_of_le (hsize.trans (by decide))
  refine ⟨inner, P.free, hin, hm.refines.represents.freeList, ?_⟩
  apply ensures_of_returns
  intro fuel
  apply (hm.refines.alloc_returns hin fuel).mono
  intro r hr
  cases ha : allocate inner.size inner.align P.free with
  | none =>
    rw [ha] at hr
    exact .inl hr
  | some t =>
    obtain ⟨p, bs⟩ := t
    rw [ha] at hr
    exact .inr ⟨p, divideAll bs, hr.1, hr.2.represents.freeList, takesFrom_of_allocate P.fit ha⟩

/-! ## Exhaustion -/

/-- Where `alloc` says that memory is exhausted, no free block holds an aligned
range of the rounded size. -/
def TrulyExhausted (a : Allocator) (layout inner : Layout) (free : List Block) : Prop :=
  (∃ fuel a', a.alloc fuel layout = .ok (.error (.exhausted layout), a')) →
    ∀ b ∈ free, ¬ ∃ q, b.addr ≤ q ∧ q + inner.size ≤ b.addr + b.size ∧ q % inner.align = 0

/-- **Exhaustion, exactly.** `alloc` looks at the start of each block only. It is
right to give up if and only if it does not, or no block that is twice as large
as the rounded request has its middle on a multiple of the alignment. -/
theorem run_trulyExhausted_iff (hrun : Run start «end» h s) {layout : Layout} (hsize : layout.size ≤ 2 ^ 62) :
    ∃ inner free, Allocator.innerLayout layout = .ok (some inner) ∧ Yields s.allocator.freeList free ∧
      (TrulyExhausted s.allocator layout inner free ↔
        (∃ b ∈ free, inner.size ≤ b.size ∧ b.addr % inner.align = 0) ∨
        ∀ b ∈ free, 2 * inner.size ≤ b.size → (b.addr + b.size / 2) % inner.align ≠ 0) := by
  obtain ⟨lo, hi, P, hm⟩ := hrun.models
  obtain ⟨inner, hin, -, -⟩ := innerLayout_of_le (hsize.trans (by decide))
  have hpos := Nat.pos_of_isPowerOfTwo (innerLayout_some hin).1
  refine ⟨inner, P.free, hin, hm.refines.represents.freeList, ?_⟩
  have hcontains : ∀ b ∈ P.free, _ := fun b hb => (P.fit b hb).contains_iff (n := inner.size) hpos inner.align_pow
  unfold TrulyExhausted
  rw [hm.refines.exhausted_iff hin]
  by_cases hs : Served inner.size inner.align P.free
  · exact ⟨fun _ => .inl hs, fun _ hno => absurd hs hno⟩
  constructor
  · intro hno
    refine .inr fun b hb hlarge hmid => ?_
    exact hno hs b hb ((hcontains b hb).mpr (.inr ⟨hlarge, hmid⟩))
  · rintro (hs' | hmid) - b hb hq
    · exact hs hs'
    · rcases (hcontains b hb).mp hq with hstart | ⟨hlarge, hal⟩
      · exact hs ⟨b, hb, hstart⟩
      · exact hmid b hb hlarge hal

end

/-! ## Small regions

In `[4112, 4144)` the allocator starts with one block of 32 bytes that is aligned on
16 only. In `[4096, 4128)` it starts with one that is aligned on 32. -/

def overAligned : Layout := ⟨16, 32, ⟨5, rfl⟩, by decide, by decide⟩

theorem half_le : 16 ≤ usizeMax - (smallLayout.align - 1) := by decide

def halfLayout : Layout := { smallLayout with size := 16, size_le := half_le }

theorem run_odd : ∃ s, Run 4112 4144 [] s ∧ Yields s.allocator.freeList [⟨4112, 32⟩] ∧
    s.allocator.alloc 8 overAligned = .ok (.error (.exhausted overAligned), s.allocator) := by
  refine ⟨_, @Run.new 4112 4144 8 (fun _ => 0) _ rfl, ⟨2, fun fuel hf => ?_⟩, rfl⟩
  obtain ⟨k, rfl⟩ := Nat.exists_eq_add_of_le' hf
  rfl

/-- `[4128, 4144)` is free, of the right size and aligned on 32. -/
theorem exhaustion_fails : ¬ ∀ (start «end» : Nat) (h : List (Call × Reply)) (s : System), Run start «end» h s →
    ∀ layout : Layout, layout.size ≤ 2 ^ 62 → ∀ inner free, Allocator.innerLayout layout = .ok (some inner) →
      Yields s.allocator.freeList free → TrulyExhausted s.allocator layout inner free := by
  intro hall
  obtain ⟨s, hrun, hwalk, halloc⟩ := run_odd
  have hno := hall 4112 4144 [] s hrun overAligned (by decide) overAligned [⟨4112, 32⟩] rfl hwalk
  exact hno ⟨8, _, halloc⟩ ⟨4112, 32⟩ (by simp) ⟨4128, by decide, by decide, by decide⟩

theorem run_trulyExhausted_small : ∃ s inner free, Run 4112 4144 [] s ∧
    TrulyExhausted s.allocator halfLayout inner free := by
  obtain ⟨s, hrun, hwalk, -⟩ := run_odd
  obtain ⟨inner, free, hin, hwalk', hiff⟩ := run_trulyExhausted_iff hrun (show halfLayout.size ≤ 2 ^ 62 by decide)
  cases hwalk.unique hwalk'
  cases hin
  exact ⟨s, _, _, hrun, hiff.mpr (.inl ⟨⟨4112, 32⟩, by simp, by decide, by decide⟩)⟩

theorem run_alloc_local_small : ∃ s, Run 4112 4144 [] s ∧
    Ensures (fun fuel => s.allocator.alloc fuel halfLayout) fun r =>
      r = (.error (.exhausted halfLayout), s.allocator) ∨
      ∃ p free', r.1 = .ok p ∧ Yields r.2.freeList free' ∧ TakesFrom p 16 [⟨4112, 32⟩] free' := by
  obtain ⟨s, hrun, hwalk, -⟩ := run_odd
  obtain ⟨inner, free, hin, hwalk', hens⟩ := run_alloc_local hrun (show halfLayout.size ≤ 2 ^ 62 by decide)
  cases hwalk.unique hwalk'
  cases hin
  exact ⟨s, hrun, hens⟩

theorem run_half : ∃ s a, Run 4096 4128 [(.alloc halfLayout, .alloc (.ok 4096))] s ∧ ⟨4096, halfLayout⟩ ∈ s.live ∧
    s.allocator.dealloc 8 4096 halfLayout = .ok a := by
  obtain ⟨a, hrun, hcheck⟩ := run_of_passes 8 4096 4128 4096 halfLayout
    (fun a => Passes (a.dealloc 8 4096 halfLayout) fun _ => true) (by decide +kernel)
  obtain ⟨a', hdealloc, -⟩ := passes_ok hcheck
  exact ⟨_, a', hrun, List.mem_cons_self, hdealloc⟩

theorem run_dealloc_grants_small : ∃ s a, Run 4096 4128 [(.alloc halfLayout, .alloc (.ok 4096))] s ∧
    s.allocator.dealloc 8 4096 halfLayout = .ok a ∧ Grants a halfLayout := by
  obtain ⟨s, a, hrun, hl, hd⟩ := run_half
  exact ⟨s, a, hrun, hd, (run_dealloc_grants hrun hl hd).2⟩

/-! ## Rounding -/

/-- A request is rounded up to the next power of two, from a grain on, or
answered with an error. `alloc` returns and does not panic. -/
structure RoundsRequest (a : Allocator) (layout : Layout) : Prop where
  rounded : (∃ inner, Allocator.innerLayout layout = .ok (some inner) ∧
      IsLeast {n | n.isPowerOfTwo ∧ max layout.size BLOCK_LEN ≤ n} inner.size ∧
      inner.align = max layout.align BLOCK_LEN) ∨
    Ensures (fun fuel => a.alloc fuel layout) fun r => ∃ e, r.1 = .error e
  completes : Completes fun fuel => a.alloc fuel layout
  no_panic : ∀ fuel msg, a.alloc fuel layout ≠ .error (.panic msg)

theorem alloc_panics (a : Allocator) {layout : Layout} (h : 2 ^ 63 < layout.size) (fuel : Nat) :
    a.alloc fuel layout = .error (.panic "called `Option::unwrap()` on a `None` value") := by
  unfold Allocator.alloc
  rw [innerLayout_panics h]
  rfl

theorem Refines.roundsRequest {lo hi : Nat} {a : Allocator} {P : Pool lo hi} (hr : Refines a P) {layout : Layout}
    (h : layout.size ≤ 2 ^ 63) : RoundsRequest a layout := by
  obtain ⟨inner, hin, hsize, halign⟩ := innerLayout_of_le h
  refine ⟨.inl ⟨inner, hin, ?_, halign⟩, completes_of_returns (hr.alloc_returns hin), ?_⟩
  · rw [hsize]
    exact isLeast_two_pow_clog _
  · intro fuel msg hpanic
    rcases hr.alloc_returns hin fuel with ⟨r, hok, -⟩ | ⟨hout, -⟩
    · cases hok.symm.trans hpanic
    · cases hout.symm.trans hpanic

/-- **Requests that round.** In every reachable state a request is rounded and
answered if its size is at most `2 ^ 63`. Above, there is no power of two to
round to, and `alloc` unwraps it all the same. -/
theorem run_roundsRequest_iff {start «end» : Nat} {h : List (Call × Reply)}
    {s : System} (hrun : Run start «end» h s)
    (layout : Layout) : RoundsRequest s.allocator layout ↔ layout.size ≤ 2 ^ 63 := by
  obtain ⟨lo, hi, P, hm⟩ := hrun.models
  constructor
  · intro hround
    by_contra hlt
    exact hround.no_panic 0 _ (alloc_panics s.allocator (Nat.not_le.mp hlt) 0)
  · exact hm.refines.roundsRequest

def oversized : Layout := ⟨2 ^ 63 + 1, 1, ⟨0, rfl⟩, by decide, by decide⟩

theorem oversized_panics : ∃ s, Run 4112 4144 [] s ∧ ¬ RoundsRequest s.allocator oversized ∧
    ∀ fuel, s.allocator.alloc fuel oversized = .error (.panic "called `Option::unwrap()` on a `None` value") := by
  obtain ⟨s, hrun, -⟩ := run_odd
  have hpanic := alloc_panics s.allocator (show 2 ^ 63 < oversized.size by decide)
  refine ⟨s, hrun, ?_, hpanic⟩
  intro hround
  exact hround.no_panic 0 _ (hpanic 0)

theorem run_roundsRequest_small : ∃ s, Run 4112 4144 [] s ∧ RoundsRequest s.allocator halfLayout := by
  obtain ⟨s, hrun, -⟩ := run_odd
  exact ⟨s, hrun, (run_roundsRequest_iff hrun halfLayout).mpr (by decide)⟩

end Osymandias
