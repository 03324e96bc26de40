import Osymandias.BinCalls

/-!
# The allocator without memory

A `Pool` is what the allocator is for: free blocks and live allocations that
together tile an interval of addresses. Its operations are total functions, and
the tiling is a field of the type, so every pool they build is a partition.
-/

namespace Osymandias

open Fuel Tiling

structure Live where
  ptr : Nat
  layout : Layout
  deriving DecidableEq

/-- The block a live allocation occupies, of the size `inner_layout` rounds its request to. -/
def Live.block (l : Live) : Block :=
  match Allocator.innerLayout l.layout with
  | .ok (some inner) => ⟨l.ptr, inner.size⟩
  | _ => ⟨l.ptr, 0⟩

def Live.Requested (l : Live) (x : Nat) : Prop := l.ptr ≤ x ∧ x < l.ptr + l.layout.size

def Live.Placed (l : Live) : Prop :=
  ∃ inner, Allocator.innerLayout l.layout = .ok (some inner) ∧ l.ptr % inner.align = 0 ∧ Fit ⟨l.ptr, inner.size⟩

structure Pool (lo hi : Nat) where
  free : List Block
  live : List Live
  ordered : Ordered free
  fit : ∀ b ∈ free, Fit b
  placed : ∀ l ∈ live, l.Placed
  tiles : Tiles (free ++ live.map Live.block) lo hi

/-! ## Live blocks -/

section
variable {l : Live} {inner : Layout}

@[simp] theorem Live.block_addr (l : Live) : l.block.addr = l.ptr := by
  unfold Live.block
  split <;> rfl

theorem Live.block_eq (h : Allocator.innerLayout l.layout = .ok (some inner)) : l.block = ⟨l.ptr, inner.size⟩ := by
  rw [Live.block, h]

theorem Live.Placed.fit (h : l.Placed) : Fit l.block := by
  obtain ⟨inner, hi, -, hf⟩ := h
  rwa [Live.block_eq hi]

theorem Live.Placed.aligned (h : l.Placed) : l.ptr % l.layout.align = 0 := by
  obtain ⟨inner, hi, hal, -⟩ := h
  obtain ⟨-, -, -, hdvd⟩ := innerLayout_some hi
  exact Nat.mod_eq_zero_of_dvd (Nat.dvd_trans hdvd (Nat.dvd_of_mod_eq_zero hal))

theorem Live.Placed.size_le (h : l.Placed) : l.layout.size ≤ l.block.size := by
  obtain ⟨inner, hi, -, -⟩ := h
  rw [Live.block_eq hi]
  exact (innerLayout_some hi).2.2.1

theorem Live.Placed.has (h : l.Placed) {x : Nat} (hx : l.Requested x) : l.block.Has x := by
  have hsize := h.size_le
  have haddr := l.block_addr
  obtain ⟨h₁, h₂⟩ := hx
  constructor <;> omega

end

namespace Pool

section
variable {lo hi : Nat} (P : Pool lo hi)

theorem grains : ∀ b ∈ P.free, Grain b := fun b hb => (P.fit b hb).toGrain

theorem live_apart_free {l : Live} {b : Block} (hl : l ∈ P.live) (hb : b ∈ P.free) : l.block.Apart b := by
  have hpair := pairwise_apart P.tiles.le_one
  have := (List.pairwise_append.mp hpair).2.2 b hb l.block (List.mem_map_of_mem hl)
  exact fun x hx => this x hx.symm

theorem live_within {l : Live} (hl : l ∈ P.live) : lo ≤ l.ptr ∧ l.ptr + l.block.size ≤ hi := by
  have hw := P.tiles.within (b := l.block) (by simp only [List.mem_append, List.mem_map]; exact .inr ⟨l, hl, rfl⟩)
    (P.placed l hl).fit.size_pos
  rwa [l.block_addr] at hw

theorem live_inj {l l' : Live} (hl : l ∈ P.live) (hl' : l' ∈ P.live) {x : Nat} (hx : l.block.Has x)
    (hx' : l'.block.Has x) : l = l' := by
  have hpair := List.pairwise_map.mp (List.pairwise_append.mp (pairwise_apart P.tiles.le_one)).2.1
  have : Std.Symm fun l l' : Live => l.block.Apart l'.block := ⟨fun _ _ h y hy => h y hy.symm⟩
  by_contra hne
  exact hpair.forall hl hl' hne x ⟨hx, hx'⟩

end

/-! ## The whole region -/

def whole {lo hi : Nat} (hg : Grain ⟨lo, hi - lo⟩) : Pool lo hi where
  free := divideAll [⟨lo, hi - lo⟩]
  live := []
  ordered := ordered_divideAll (List.pairwise_singleton ..)
  fit := fit_divideAll (by simpa using hg)
  placed := by simp
  tiles x := by
    have hlt : lo + (hi - lo) = hi := by have : 0 < hi - lo := hg.size_pos; omega
    simp only [List.map_nil, List.append_nil, cover_divideAll, cover_cons, cover_nil, Nat.zero_add, Block.Has, hlt]

def empty : Pool 0 0 where
  free := []
  live := []
  ordered := .nil
  fit := by simp
  placed := by simp
  tiles x := by simp

/-! ## Requests -/

section
variable {lo hi : Nat} (P : Pool lo hi)

theorem tiles_alloc {layout inner : Layout} {p : Nat} {bs : List Block}
    (hin : Allocator.innerLayout layout = .ok (some inner))
    (ha : allocate inner.size inner.align P.free = some (p, bs)) :
    Tiles (divideAll bs ++ (⟨p, layout⟩ :: P.live).map Live.block) lo hi := by
  intro x
  have hblock : Live.block ⟨p, layout⟩ = ⟨p, inner.size⟩ := Live.block_eq hin
  have hcover := allocate_cover ha x
  rw [← P.tiles x]
  simp only [List.map_cons, hblock, cover_append, cover_cons, cover_divideAll, cover_nil] at hcover ⊢
  omega

theorem tiles_dealloc {l : Live} {bs : List Block} (hl : l ∈ P.live) (hr : release l.block P.free = some bs) :
    Tiles (merge bs ++ (P.live.erase l).map Live.block) lo hi := by
  intro x
  have hfree := cover_perm (x := x) (release_perm hr)
  have hlive := cover_perm (x := x) ((List.perm_cons_erase hl).map Live.block)
  rw [← P.tiles x]
  simp only [List.map_cons, cover_append, cover_cons, cover_merge] at hfree hlive ⊢
  omega

theorem placed_alloc {layout inner : Layout} {p : Nat} {bs : List Block}
    (hin : Allocator.innerLayout layout = .ok (some inner))
    (ha : allocate inner.size inner.align P.free = some (p, bs)) : Live.Placed ⟨p, layout⟩ := by
  obtain ⟨hpow, h16, -, -⟩ := innerLayout_some hin
  exact ⟨inner, hin, allocate_aligned ha, allocate_fit ha P.fit hpow h16⟩

theorem ordered_release {l : Live} {bs : List Block} (hl : l ∈ P.live) (hr : release l.block P.free = some bs) :
    Ordered bs :=
  release_ordered hr P.ordered (P.placed l hl).fit.size_pos (fun b hb => (P.fit b hb).size_pos)
    fun _ hb => P.live_apart_free hl hb

theorem fit_release {l : Live} {bs : List Block} (hl : l ∈ P.live) (hr : release l.block P.free = some bs) :
    ∀ b ∈ bs, Fit b := by
  intro b hb
  rcases List.mem_cons.mp ((release_perm hr).mem_iff.mp hb) with rfl | hb
  · exact (P.placed l hl).fit
  · exact P.fit b hb

def alloc (layout : Layout) : Except Fault (Except AllocErr Nat × Pool lo hi) :=
  match hin : Allocator.innerLayout layout with
  | .error e => .error e
  | .ok none => unwrap none
  | .ok (some inner) =>
    match ha : allocate inner.size inner.align P.free with
    | none => .ok (.error (.exhausted layout), P)
    | some (p, bs) => .ok (.ok p,
      { free := divideAll bs
        live := ⟨p, layout⟩ :: P.live
        ordered := ordered_divideAll (allocate_ordered ha P.ordered)
        fit := fit_divideAll (allocate_grain ha P.grains (innerLayout_some hin).2.1)
        placed := List.forall_mem_cons.mpr ⟨P.placed_alloc hin ha, P.placed⟩
        tiles := P.tiles_alloc hin ha })

def dealloc (l : Live) : Except Fault (Pool lo hi) :=
  if hl : l ∈ P.live then
    match hr : release l.block P.free with
    | none => .error (.panic "invalid pointer provided")
    | some bs => .ok
      { free := merge bs
        live := P.live.erase l
        ordered := ordered_merge bs (P.ordered_release hl hr)
        fit := fit_merge bs (P.fit_release hl hr)
        placed := fun l' hl' => P.placed l' (List.mem_of_mem_erase hl')
        tiles := P.tiles_dealloc hl hr }
  else .error (.panic "not a live allocation")

theorem dealloc_ok_iff {l : Live} (hl : l ∈ P.live) :
    (∃ P', P.dealloc l = .ok P') ↔ ∃ b ∈ P.free, l.ptr < b.addr := by
  rw [← l.block_addr, ← release_isSome, dealloc, dif_pos hl]
  split
  · rename_i hr
    simp [hr]
  · rename_i bs hr
    simp [hr]

theorem dealloc_panic {l : Live} (hl : l ∈ P.live) (h : ¬ ∃ b ∈ P.free, l.ptr < b.addr) :
    P.dealloc l = .error (.panic "invalid pointer provided") := by
  rw [← P.dealloc_ok_iff hl, dealloc, dif_pos hl] at h
  rw [dealloc, dif_pos hl]
  split
  · rfl
  · rename_i bs hr
    split at h
    · rename_i hr'
      cases hr.symm.trans hr'
    · exact absurd ⟨_, rfl⟩ h

end

end Pool

end Osymandias
