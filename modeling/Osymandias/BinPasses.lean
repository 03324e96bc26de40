import Osymandias.BinSound

/-!
# The two passes over the free list

`divide_maximally` and `defragment` on every list of blocks they could be given,
whether or not the allocator can reach it.
-/

namespace Osymandias

open Fuel Tiling BlockHeader

/-! ## Lists in memory -/

/-- The headers of `bs`, written from the last block to the first into an empty memory. -/
def layOut : List Block → Heap
  | [] => ⟨LinkedList.new, fun _ => 0⟩
  | b :: bs => Heap.push ⟨(layOut bs).head, setSize (layOut bs).mem b.addr b.size⟩ .head b.addr

theorem layOut_represents : ∀ {bs : List Block}, Separate bs → (∀ b ∈ bs, 0 < b.addr) → (∀ b ∈ bs, Grain b) →
    Represents (layOut bs) bs
  | [], _, _, _ => ⟨rfl, by simp⟩
  | b :: bs, hs, hpos, hg => by
    obtain ⟨hb, hbs⟩ := separate_cons.mp hs
    have hsp := spaced_of_grain hs hg
    have ih := layOut_represents hbs (fun c hc => hpos c (by simp [hc])) fun c hc => hg c (by simp [hc])
    have haway : ∀ d ∈ bs, d.addr + 16 ≤ b.addr ∨ b.addr + 16 ≤ d.addr := by
      intro d hd
      exact ((spaced_cons.mp hsp).1 d hd).symm
    have hr : Represents ⟨(layOut bs).head, setSize (layOut bs).mem b.addr b.size⟩ ([] ++ bs) :=
      ih.setSize_away haway
    have hbg := (hg b (by simp)).end_lt
    refine (hr.push hsp (size_setSize_self _ _ (by omega)) ?_ fun d hd => ?_).1
    · exact Nat.ne_of_gt (hpos b (by simp))
    · have := (hg d hd).end_lt
      omega

/-! ## Dividing -/

structure Coarse (b : Block) : Prop where
  addr_pos : 0 < b.addr
  addr_dvd : 16 ∣ b.addr
  size_pos : 0 < b.size
  size_dvd : 16 ∣ b.size
  end_le : b.addr + b.size ≤ 2 ^ 63

theorem Coarse.grain {b : Block} (hb : Coarse b) : Grain b := by
  have hend := hb.end_le
  exact ⟨hb.addr_dvd, hb.size_dvd, hb.size_pos, by omega, by omega⟩

/-- **`divide_maximally`.** It returns, and each block has made way, in its place,
for consecutive blocks that cover the same bytes, whose sizes are powers of two
from 16 on and whose addresses are multiples of half their size. A second pass
returns the heap as it is. -/
theorem divideMaximally_tiles {h : Heap} {bs : List Block} (hr : Represents h bs) (hs : Separate bs)
    (hb : ∀ b ∈ bs, Coarse b) :
    ∃ pieces : Block → List Block,
      (∀ b ∈ bs, Consecutive (b.addr + b.size) b.addr (pieces b) ∧ (∀ x, cover (pieces b) x = cover [b] x) ∧
        ∀ c ∈ pieces b, c.size.isPowerOfTwo ∧ 16 ≤ c.size ∧ c.size / 2 ∣ c.addr) ∧
      Ensures (fun fuel => Allocator.divideMaximally fuel h) fun h' =>
        Represents h' (bs.flatMap pieces) ∧ Yields (fun fuel => Allocator.divideMaximally fuel h') h' := by
  have hg : ∀ b ∈ bs, Grain b := fun b hb' => (hb b hb').grain
  refine ⟨divide, fun b hb' => ⟨consecutive_divide b (hb b hb').size_pos, cover_divide b, fun c hc => ?_⟩, ?_⟩
  · have hf := fit_divide b (hg b hb') c hc
    exact ⟨hf.size_pow, hf.sixteen_le, hf.half_dvd⟩
  · refine ensures_of_returns fun fuel => (divideMaximally_spec fuel hr hs hg).mono fun h' hh' => ⟨hh'.1, ?_⟩
    exact yields_of_returns fun fuel' =>
      divideLoop_fixed fuel' _ h'.iter hh'.1.1 hh'.1.2 (fit_divideAll hg)

/-- Two blocks of three grains, the upper one first. -/
theorem divideMaximally_tiles_two : ∃ pieces : Block → List Block,
    Consecutive 4192 4144 (pieces ⟨4144, 48⟩) ∧ Consecutive 4144 4096 (pieces ⟨4096, 48⟩) ∧
    Ensures (fun fuel => Allocator.divideMaximally fuel (layOut [⟨4144, 48⟩, ⟨4096, 48⟩])) fun h' =>
      Represents h' (pieces ⟨4144, 48⟩ ++ pieces ⟨4096, 48⟩) := by
  have hs : Separate [⟨4144, 48⟩, ⟨4096, 48⟩] := by
    refine separate_cons.mpr ⟨fun c hc x hx => ?_, List.pairwise_singleton ..⟩
    rw [List.mem_singleton.mp hc] at hx
    simp only [Block.Has] at hx
    omega
  have hb : ∀ b ∈ [Block.mk 4144 48, ⟨4096, 48⟩], Coarse b := by
    intro b hb
    rcases List.mem_cons.mp hb with rfl | hb
    · constructor <;> decide
    · rw [List.mem_singleton.mp hb]
      constructor <;> decide
  have hr := layOut_represents hs (fun b hb' => (hb b hb').addr_pos) fun b hb' => (hb b hb').grain
  obtain ⟨pieces, hpieces, n, hn⟩ := divideMaximally_tiles hr hs hb
  refine ⟨pieces, (hpieces ⟨4144, 48⟩ (by simp)).1, (hpieces ⟨4096, 48⟩ (by simp)).1, n, fun fuel hf => ?_⟩
  obtain ⟨h', hok, hr', -⟩ := hn fuel hf
  exact ⟨h', hok, by simpa using hr'⟩

/-! ## Merging -/

/-- **`defragment`.** On every address-sorted list of blocks apart from each other
it returns, and leaves the list that merging buddies in one pass leaves. The
same bytes are free as before. -/
theorem defragment_merges {h : Heap} {bs : List Block} (hr : Represents h bs) (ho : Ordered bs)
    (hb : ∀ b ∈ bs, Room b) :
    Ensures (fun fuel => Allocator.defragment fuel h) fun h' =>
      Represents h' (merge bs) ∧ (∀ x, cover (merge bs) x = cover bs x) ∧ Untouched bs h.mem h'.mem := by
  refine ensures_of_returns fun fuel => (defragment_spec fuel hr ho hb).mono fun h' hh' => ?_
  exact ⟨hh'.1, cover_merge bs, hh'.2⟩

/-- Of three equal neighbours the first two are merged, and the third is left alone. -/
theorem defragment_merges_three :
    Ensures (fun fuel => Allocator.defragment fuel (layOut [⟨4096, 16⟩, ⟨4112, 16⟩, ⟨4128, 16⟩])) fun h' =>
      Represents h' [⟨4096, 32⟩, ⟨4128, 16⟩] := by
  have ho : Ordered [⟨4096, 16⟩, ⟨4112, 16⟩, ⟨4128, 16⟩] := by
    unfold Ordered
    simp
  have hg : ∀ b ∈ [Block.mk 4096 16, ⟨4112, 16⟩, ⟨4128, 16⟩], Grain b := by
    intro b hb
    simp only [List.mem_cons, List.not_mem_nil, or_false] at hb
    rcases hb with rfl | rfl | rfl <;> (constructor <;> decide)
  have hr := layOut_represents ho.separate (by simp) hg
  obtain ⟨n, hn⟩ := defragment_merges hr ho fun b hb => (hg b hb).room
  refine ⟨n, fun fuel hf => ?_⟩
  obtain ⟨h', hok, hr', -, -⟩ := hn fuel hf
  exact ⟨h', hok, hr'⟩

end Osymandias
