import Osymandias.BinRun

/-!
# What the bin allocator guarantees its clients

Over every run: free and live blocks partition the region, the list in memory
is well formed, clients' writes do not influence the allocator nor the
allocator's theirs. And when a live allocation can be freed.
-/

namespace Osymandias

open Fuel Tiling

structure Region (start «end» S E : Nat) : Prop where
  start_pos : 0 < start
  end_le : «end» ≤ 2 ^ 63
  start_up : alignUp start BLOCK_LEN = .ok S
  end_down : alignDown «end» BLOCK_LEN = .ok E
  lt : S < E

section
variable {start «end» S E : Nat}

theorem Region.within (hR : Region start «end» S E) : start ≤ S ∧ E ≤ «end» :=
  region_within hR.end_le hR.start_up hR.end_down hR.lt

theorem Region.new_spec (hR : Region start «end» S E) (fuel : Nat) (m : Memory) :
    Returns fuel (E - S + 1) (Allocator.new fuel start «end» m) fun a =>
      a.start = S ∧ a.end = E ∧ Represents a.toHeap (divideAll [⟨S, E - S⟩]) := by
  have hw := hR.within
  have := hR.start_pos
  have := hR.end_le
  exact Osymandias.new_spec fuel m hR.start_up hR.end_down (by omega) hR.lt (by omega)

theorem Region.models (hR : Region start «end» S E) {h : List (Call × Reply)} {s : System}
    (hrun : Run start «end» h s) : ∃ P : Pool S E, Models s P := by
  have hw := hR.within
  have hpos := hR.start_pos
  have hend := hR.end_le
  obtain ⟨P, -, hm⟩ := hrun.replays rfl fun _ _ _ ha =>
    refines_whole hR.start_up hR.end_down (by omega) hR.lt (by omega) ha
  exact ⟨P, hm⟩

end

/-! ## Partition -/

theorem Models.stops {lo hi : Nat} {s : System} {P : Pool lo hi} (hm : Models s P) {c : Call}
    (hc : c.Allowed s.live) : ∃ n, ∀ fuel, n ≤ fuel → s.call fuel c ≠ .error .outOfFuel :=
  ⟨_, fun fuel hf => (call_models fuel hm hc).stops hf (P.call_stops c)⟩

/-- **Partition.** `new` returns, every call from a reachable state stops, and in
every reachable state the free blocks and the rounded blocks of the live
allocations are apart and make up the region. What `alloc` returns is not null,
is aligned, and lies between the bounds. -/
theorem run_partition {start «end» S E : Nat} (hR : Region start «end» S E) :
    (∀ m, Completes fun fuel => Allocator.new fuel start «end» m) ∧
    ∀ h s, Run start «end» h s →
      (∀ c, c.Allowed s.live → ∃ n, ∀ fuel, n ≤ fuel → s.call fuel c ≠ .error .outOfFuel) ∧
      (∀ l ∈ s.live, ∃ inner, Allocator.innerLayout l.layout = .ok (some inner) ∧ l.block = ⟨l.ptr, inner.size⟩) ∧
      (∃ free, Yields s.allocator.freeList free ∧ (free ++ s.live.map Live.block).Pairwise Block.Apart ∧
        ∀ x, (∃ b ∈ free ++ s.live.map Live.block, b.Has x) ↔ S ≤ x ∧ x < E) ∧
      ∀ layout p, (Call.alloc layout, Reply.alloc (.ok p)) ∈ h →
        p ≠ 0 ∧ p % layout.align = 0 ∧ start ≤ p ∧ p + layout.size ≤ «end» := by
  refine ⟨fun m => completes_of_returns fun fuel => hR.new_spec fuel m, fun h s hrun => ?_⟩
  · obtain ⟨P, hm⟩ := hR.models hrun
    refine ⟨fun c hc => hm.stops hc, fun l hl => ?_, ⟨P.free, hm.refines.represents.freeList, ?_, ?_⟩, ?_⟩
    · obtain ⟨inner, hin, -⟩ := P.placed l (hm.live_eq ▸ hl)
      exact ⟨inner, hin, Live.block_eq hin⟩
    · rw [hm.live_eq]
      exact pairwise_apart P.tiles.le_one
    · rw [hm.live_eq]
      exact P.tiles.mem_iff
    · intro layout p hmem
      obtain ⟨h', s', hrun', hl⟩ := hrun.replied hmem
      obtain ⟨P', hm'⟩ := hR.models hrun'
      rw [hm'.live_eq] at hl
      have hpos := hm'.refines.ptr_pos hl
      have hsize := (P'.placed _ hl).size_le
      have hlive := P'.live_within hl
      have hw := hR.within
      simp only at hpos hsize hlive
      exact ⟨by omega, (P'.placed _ hl).aligned, by omega, by omega⟩


/-! Three grains are enough to run the allocator on: `new` makes blocks of 32 and 16 bytes of them. -/

def smallLayout : Layout := ⟨32, 16, ⟨4, rfl⟩, by decide, by decide⟩

theorem region_small : Region 4096 4144 4096 4144 := ⟨by decide, by decide, by rfl, by rfl, by decide⟩

theorem run_small : ∃ s, Run 4096 4144 [(.alloc smallLayout, .alloc (.ok 4096))] s ∧
    s.live = [⟨4096, smallLayout⟩] ∧ Yields s.allocator.freeList [⟨4128, 16⟩] := by
  obtain ⟨a, hrun, hcheck⟩ := run_of_passes 8 4096 4144 4096 smallLayout
    (fun a => Passes (a.freeList 8) fun free => free == [⟨4128, 16⟩]) (by decide +kernel)
  obtain ⟨free, hwalk, hfree⟩ := passes_ok hcheck
  obtain rfl := eq_of_beq hfree
  exact ⟨_, hrun, rfl, hrun.yields hwalk⟩

theorem run_partition_small : ∃ s, Run 4096 4144 [(.alloc smallLayout, .alloc (.ok 4096))] s ∧
    s.live.map Live.block = [⟨4096, 32⟩] ∧
    ∃ free, Yields s.allocator.freeList free ∧ (free ++ [Block.mk 4096 32]).Pairwise Block.Apart ∧
      ∀ x, (∃ b ∈ free ++ [Block.mk 4096 32], b.Has x) ↔ 4096 ≤ x ∧ x < 4144 := by
  obtain ⟨s, hrun, hlive, -⟩ := run_small
  have hblock : s.live.map Live.block = [⟨4096, 32⟩] := by rw [hlive]; rfl
  obtain ⟨-, -, htiles, -⟩ := (run_partition region_small).2 _ s hrun
  rw [hblock] at htiles
  exact ⟨s, hrun, hblock, htiles⟩

/-! ## The list in memory -/

/-- **Representation.** In every reachable state the walk through memory ends.
It visits blocks in increasing address order, apart from each other, whose
sizes are powers of two from 16 on and whose addresses are multiples of 16 and
of half their size. The blocks of live allocations are of that kind too. -/
theorem run_representation {start «end» S E : Nat} (hR : Region start «end» S E)
    {h : List (Call × Reply)} {s : System} (hrun : Run start «end» h s) :
    (∃ free, Yields s.allocator.freeList free ∧ free.Pairwise (fun b c => b.addr < c.addr) ∧
      free.Pairwise Block.Apart ∧
      ∀ b ∈ free, b.size.isPowerOfTwo ∧ 16 ≤ b.size ∧ 16 ∣ b.addr ∧ b.size / 2 ∣ b.addr) ∧
    ∀ l ∈ s.live, ∃ inner, Allocator.innerLayout l.layout = .ok (some inner) ∧ l.block = ⟨l.ptr, inner.size⟩ ∧
      inner.size.isPowerOfTwo ∧ inner.size / 2 ∣ l.ptr := by
  obtain ⟨P, hm⟩ := hR.models hrun
  refine ⟨⟨P.free, hm.refines.represents.freeList, ?_, ?_, fun b hb => ?_⟩, fun l hl => ?_⟩
  · exact P.ordered.imp_of_mem fun hb _ hbc => by have := (P.fit _ hb).size_pos; omega
  · exact (List.pairwise_append.mp (pairwise_apart P.tiles.le_one)).1
  · have hf := P.fit b hb
    exact ⟨hf.size_pow, hf.sixteen_le, hf.addr_dvd, hf.half_dvd⟩
  · obtain ⟨inner, hin, -, hf⟩ := P.placed l (hm.live_eq ▸ hl)
    exact ⟨inner, hin, Live.block_eq hin, hf.size_pow, hf.half_dvd⟩

theorem run_representation_small : ∃ s, Run 4096 4144 [(.alloc smallLayout, .alloc (.ok 4096))] s ∧
    ∃ free, Yields s.allocator.freeList free ∧
      ∀ b ∈ free, b.size.isPowerOfTwo ∧ 16 ≤ b.size ∧ 16 ∣ b.addr ∧ b.size / 2 ∣ b.addr := by
  obtain ⟨s, hrun, -⟩ := run_small
  obtain ⟨⟨free, hwalk, -, -, hfree⟩, -⟩ := run_representation region_small hrun
  exact ⟨s, hrun, free, hwalk, hfree⟩

/-! ## Freeing -/

theorem Run.dealloc_panics {start «end» : Nat} {h : List (Call × Reply)} {s : System} {free : List Block}
    (hrun : Run start «end» h s) {l : Live} (hl : l ∈ s.live) (hwalk : Yields s.allocator.freeList free)
    (hno : ¬ ∃ b ∈ free, l.ptr < b.addr) :
    Panics (fun fuel => s.allocator.dealloc fuel l.ptr l.layout) "invalid pointer provided" := by
  obtain ⟨lo, hi, P, hm⟩ := hrun.models
  have hl' : l ∈ P.live := hm.live_eq ▸ hl
  rw [hwalk.unique hm.refines.represents.freeList] at hno
  exact panics_of_agrees (fun fuel => dealloc_refines fuel hm.refines hl') (P.dealloc_panic hl' hno)

/-- **What can be freed.** In every reachable state, `dealloc` of a live
allocation returns exactly when some free block lies above it; otherwise its
search for the place to insert finds none and it panics. -/
theorem run_dealloc_completes_iff {start «end» : Nat} {h : List (Call × Reply)} {s : System}
    (hrun : Run start «end» h s) {l : Live} (hl : l ∈ s.live) :
    ∃ free, Yields s.allocator.freeList free ∧
      ((Completes fun fuel => s.allocator.dealloc fuel l.ptr l.layout) ↔ ∃ b ∈ free, l.ptr < b.addr) ∧
      ((¬ ∃ b ∈ free, l.ptr < b.addr) →
        Panics (fun fuel => s.allocator.dealloc fuel l.ptr l.layout) "invalid pointer provided") := by
  obtain ⟨lo, hi, P, hm⟩ := hrun.models
  have hl' : l ∈ P.live := hm.live_eq ▸ hl
  have hwalk := hm.refines.represents.freeList
  refine ⟨P.free, hwalk, ?_, fun hno => hrun.dealloc_panics hl hwalk hno⟩
  rw [completes_iff fun fuel => dealloc_refines fuel hm.refines hl', P.dealloc_ok_iff hl']

theorem run_dealloc_completes_small : ∃ s, Run 4096 4144 [(.alloc smallLayout, .alloc (.ok 4096))] s ∧
    Completes fun fuel => s.allocator.dealloc fuel 4096 smallLayout := by
  obtain ⟨s, hrun, hlive, hwalk⟩ := run_small
  obtain ⟨free, hwalk', hiff, -⟩ := run_dealloc_completes_iff hrun (l := ⟨4096, smallLayout⟩) (by simp [hlive])
  cases hwalk.unique hwalk'
  exact ⟨s, hrun, hiff.mpr ⟨⟨4128, 16⟩, by simp, by decide⟩⟩

def pageLayout : Layout := ⟨4096, 16, ⟨4, rfl⟩, by decide, by decide⟩

theorem run_page : ∃ s, Run 4096 8192 [(.alloc pageLayout, .alloc (.ok 4096))] s ∧ ⟨4096, pageLayout⟩ ∈ s.live ∧
    Panics (fun fuel => s.allocator.dealloc fuel 4096 pageLayout) "invalid pointer provided" := by
  obtain ⟨a, hrun, hcheck⟩ := run_of_passes 8 4096 8192 4096 pageLayout
    (fun a => Passes (a.freeList 8) fun free => free == []) (by decide +kernel)
  obtain ⟨free, hwalk, hfree⟩ := passes_ok hcheck
  obtain rfl := eq_of_beq hfree
  refine ⟨_, hrun, List.mem_cons_self, ?_⟩
  exact hrun.dealloc_panics (l := ⟨4096, pageLayout⟩) List.mem_cons_self (hrun.yields hwalk) (by simp)

theorem run_dealloc_page_panics : ∃ s, Run 4096 8192 [(.alloc pageLayout, .alloc (.ok 4096))] s ∧
    ⟨4096, pageLayout⟩ ∈ s.live ∧
    Panics (fun fuel => s.allocator.dealloc fuel 4096 pageLayout) "invalid pointer provided" ∧
    ¬ Completes fun fuel => s.allocator.dealloc fuel 4096 pageLayout := by
  obtain ⟨s, hrun, hlive, hpanics⟩ := run_page
  exact ⟨s, hrun, hlive, hpanics, hpanics.not_completes⟩

/-! ## Separation -/

/-- **Separation.** Two runs with the same calls, whatever their clients wrote,
got the same replies and have the same allocations and free list; their next
calls stop alike. A call changes no byte of a live block it was not given. -/
theorem run_separation {start «end» : Nat} {h₁ h₂ : List (Call × Reply)} {s₁ s₂ : System}
    (hrun₁ : Run start «end» h₁ s₁) (hrun₂ : Run start «end» h₂ s₂) (hcalls : h₁.map Prod.fst = h₂.map Prod.fst) :
    h₁.map Prod.snd = h₂.map Prod.snd ∧ s₁.live = s₂.live ∧
    (∃ free, Yields s₁.allocator.freeList free ∧ Yields s₂.allocator.freeList free) ∧
    ∀ c, c.Allowed s₁.live →
      (∃ n, ∀ fuel, n ≤ fuel → (s₁.call fuel c).map Prod.fst = (s₂.call fuel c).map Prod.fst) ∧
      ∀ fuel r s', s₁.call fuel c = .ok (r, s') →
        ∀ l ∈ s₁.live, c ≠ .dealloc l → ∀ x, l.block.Has x → s'.allocator.mem x = s₁.allocator.mem x := by
  obtain ⟨lo, hi, P₀, hlive, hnew⟩ := exists_pool start «end»
  obtain ⟨P, hrep, hm₁⟩ := hrun₁.replays hlive hnew
  obtain ⟨P', hrep', hm₂⟩ := hrun₂.replays hlive hnew
  rw [hcalls, hrep'] at hrep
  injection hrep with hpair
  obtain ⟨hreplies, rfl⟩ := Prod.mk.inj hpair
  have hlive_eq : s₁.live = s₂.live := hm₁.live_eq.trans hm₂.live_eq.symm
  refine ⟨hreplies.symm, hlive_eq, ⟨P'.free, hm₁.refines.represents.freeList, hm₂.refines.represents.freeList⟩,
    fun c hc => ⟨⟨total P'.free + 2, fun fuel hf => ?_⟩, fun fuel r s' hcall l hl hne => ?_⟩⟩
  · have hc₂ : c.Allowed s₂.live := hlive_eq ▸ hc
    exact (call_models fuel hm₁ hc).map_eq Prod.fst Prod.fst (call_models fuel hm₂ hc₂) hf
      fun _ _ _ h₁ h₂ => h₁.1.trans h₂.1.symm
  · obtain ⟨-, -, -, -, hu⟩ := (call_models fuel hm₁ hc).of_ok hcall
    rw [hm₁.live_eq] at hc hl
    exact untouched_live hc hl hne hu

theorem run_small_written (b : UInt8) : ∃ s, Run 4096 4144 [(.alloc smallLayout, .alloc (.ok 4096))] s ∧
    s.allocator.mem 4100 = b := by
  obtain ⟨s, hrun, hlive, -⟩ := run_small
  refine ⟨s.withMem fun x => if x = 4100 then b else s.allocator.mem x, hrun.scribble fun x hx => if_neg ?_, rfl⟩
  rintro rfl
  exact hx ⟨4096, smallLayout⟩ (by simp [hlive]) (by constructor <;> decide)

theorem run_separation_small : ∃ s₁ s₂, s₁.allocator.mem 4100 = 1 ∧ s₂.allocator.mem 4100 = 2 ∧
    Run 4096 4144 [(.alloc smallLayout, .alloc (.ok 4096))] s₁ ∧
    Run 4096 4144 [(.alloc smallLayout, .alloc (.ok 4096))] s₂ ∧
    ∃ free, Yields s₁.allocator.freeList free ∧ Yields s₂.allocator.freeList free := by
  obtain ⟨s₁, hrun₁, hmem₁⟩ := run_small_written 1
  obtain ⟨s₂, hrun₂, hmem₂⟩ := run_small_written 2
  exact ⟨s₁, s₂, hmem₁, hmem₂, hrun₁, hrun₂, (run_separation hrun₁ hrun₂ rfl).2.2.1⟩

end Osymandias
