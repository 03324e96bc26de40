import Osymandias.Alignment
import Osymandias.Pool

/-!
# Runs of the bin allocator

A `System` is the allocator and the allocations its clients hold. A run calls
the allocator in any order; between the calls clients write what they like
into the bytes they asked for. Every run is a run of a `Pool`.
-/

namespace Osymandias

open Fuel Tiling BlockHeader

inductive Call where
  | alloc (layout : Layout)
  | dealloc (l : Live)

inductive Reply where
  | alloc (r : Except AllocErr Nat)
  | dealloc

structure System where
  allocator : Allocator
  live : List Live

def granted (layout : Layout) (r : Except AllocErr Nat) (live : List Live) : List Live :=
  match r with
  | .ok p => ⟨p, layout⟩ :: live
  | .error _ => live

def System.call (fuel : Nat) (s : System) : Call → Except Fault (Reply × System)
  | .alloc layout => do
    let (r, a) ← s.allocator.alloc fuel layout
    return (.alloc r, ⟨a, granted layout r s.live⟩)
  | .dealloc l => do
    let a ← s.allocator.dealloc fuel l.ptr l.layout
    return (.dealloc, ⟨a, s.live.erase l⟩)

def Call.Allowed (live : List Live) : Call → Prop
  | .alloc _ => True
  | .dealloc l => l ∈ live

def Scribbled (live : List Live) (m m' : Memory) : Prop := ∀ x, (∀ l ∈ live, ¬ l.Requested x) → m' x = m x

def System.withMem (s : System) (m : Memory) : System := { s with allocator := { s.allocator with mem := m } }

/-- `Run start end h s`: from `Allocator::new(start, end)` the calls and replies
`h`, the latest first, lead to `s`. -/
inductive Run (start «end» : Nat) : List (Call × Reply) → System → Prop where
  | new {fuel : Nat} {m : Memory} {a : Allocator} :
    Allocator.new fuel start «end» m = .ok a → Run start «end» [] ⟨a, []⟩
  | call {fuel : Nat} {h : List (Call × Reply)} {s s' : System} {c : Call} {r : Reply} :
    Run start «end» h s → c.Allowed s.live → s.call fuel c = .ok (r, s') → Run start «end» ((c, r) :: h) s'
  | scribble {h : List (Call × Reply)} {s : System} {m : Memory} :
    Run start «end» h s → Scribbled s.live s.allocator.mem m → Run start «end» h (s.withMem m)

def Heap.freeList (h : Heap) (fuel : Nat) : Except Fault (List Block) := do
  let (bs, _) ← h.iter.fold (fun bs cur h => .ok (bs ++ [⟨cur, size h.mem cur⟩], h)) fuel [] h
  return bs

/-! ## The walk -/

theorem walk_spec (h : Heap) (fuel : Nat) (bs : List Block) (hr : Represents h bs) :
    Returns fuel (bs.length + 1)
      (h.iter.fold (fun bs cur h => .ok (bs ++ [⟨cur, size h.mem cur⟩], h)) fuel [] h) fun r => r = (bs, h) := by
  have hwalk := Iter.fold_collect (fun cur h => Block.mk cur (size h.mem cur)) h fuel (addrs bs) [] h.iter hr.1
  have hsizes : (addrs bs).map (fun cur => Block.mk cur (size h.mem cur)) = bs := by
    rw [addrs, List.map_map]
    refine (List.map_congr_left fun b hb => ?_).trans bs.map_id
    rw [Function.comp_apply, hr.2 b hb]
    rfl
  rw [addrs, List.length_map, List.nil_append] at hwalk
  rw [addrs] at hsizes
  rwa [hsizes] at hwalk

theorem Represents.freeList {h : Heap} {bs : List Block} (hr : Represents h bs) : Yields h.freeList bs := by
  refine ⟨bs.length + 1, fun fuel hf => ?_⟩
  obtain ⟨r, hok, rfl⟩ := (walk_spec h fuel bs hr).total hf
  rw [Heap.freeList, hok]
  rfl

theorem Represents.freeList_eq {h : Heap} {bs bs' : List Block} {fuel : Nat} (hr : Represents h bs)
    (hwalk : h.freeList fuel = .ok bs') : bs' = bs := by
  obtain ⟨r, hok, hret⟩ := bind_ok hwalk
  have hr' := (walk_spec h fuel bs hr).of_ok hok
  subst hr'
  cases hret
  rfl

/-! ## Calls refine the pool's -/

structure Refines {lo hi : Nat} (a : Allocator) (P : Pool lo hi) : Prop where
  represents : Represents a.toHeap P.free
  start_le : a.start ≤ lo
  le_end : hi ≤ a.end
  nonnull : lo < hi → 0 < lo

section
variable {lo hi : Nat} {a : Allocator} {P : Pool lo hi}

theorem Refines.update {a' : Allocator} {P' : Pool lo hi} {bs : List Block} (hr : Refines a P)
    (hu : Updates a a' bs P'.free) : Refines a' P' :=
  ⟨hu.represents, hu.start_eq ▸ hr.start_le, hu.end_eq ▸ hr.le_end, hr.nonnull⟩

theorem Refines.ptr_pos (hr : Refines a P) {l : Live} (hl : l ∈ P.live) : 0 < l.ptr := by
  have hw := P.live_within hl
  have hpos := (P.placed l hl).fit.size_pos
  have := hr.nonnull (by omega)
  omega

theorem Refines.alloc_returns (hr : Refines a P) {layout inner : Layout}
    (hin : Allocator.innerLayout layout = .ok (some inner)) (fuel : Nat) :
    Returns fuel (total P.free + 1) (a.alloc fuel layout) fun r =>
      match allocate inner.size inner.align P.free with
      | some (p, bs) => r.1 = .ok p ∧ Updates a r.2 P.free (divideAll bs)
      | none => r = (.error (.exhausted layout), a) :=
  alloc_spec fuel hr.represents P.ordered P.grains hin

theorem alloc_refines (fuel : Nat) (hr : Refines a P) (layout : Layout) :
    Agrees fuel (total P.free + 2) (a.alloc fuel layout) (P.alloc layout) fun x y =>
      x.1 = y.1 ∧ Refines x.2 y.2 ∧ Untouched P.free a.mem x.2.mem := by
  unfold Pool.alloc
  split
  · rename_i e hin
    refine .inl ?_
    simp only [Allocator.alloc, hin]
    rfl
  · rename_i hin
    refine .inl ?_
    simp only [Allocator.alloc, hin]
    rfl
  · rename_i inner hin
    have hspec := (hr.alloc_returns hin fuel).weaken (Nat.le_succ _)
    split
    · rename_i ha
      rw [ha] at hspec
      apply hspec.mono
      intro r hr'
      subst hr'
      exact ⟨rfl, hr, Untouched.refl _ _⟩
    · rename_i p bs ha
      rw [ha] at hspec
      apply hspec.mono
      intro r hr'
      obtain ⟨hp, hu⟩ := hr'
      exact ⟨hp, hr.update hu, hu.untouched⟩

theorem dealloc_refines (fuel : Nat) (hr : Refines a P) {l : Live} (hl : l ∈ P.live) :
    Agrees fuel (total P.free + 2) (a.dealloc fuel l.ptr l.layout) (P.dealloc l) fun x y =>
      Refines x y ∧ Untouched (l.block :: P.free) a.mem x.mem := by
  obtain ⟨inner, hin, hal, -⟩ := P.placed l hl
  have hblock := Live.block_eq hin
  have haddr := l.block_addr
  have hlen := length_le_total P.grains
  have hpos := (P.placed l hl).fit.size_pos
  have hwithin : a.start ≤ l.block.addr ∧ l.block.addr < a.end := by
    have hw := P.live_within hl
    have := hr.start_le
    have := hr.le_end
    omega
  rw [Pool.dealloc, dif_pos hl]
  split
  · rename_i hrel
    have hpanic := dealloc_panics fuel hr.represents hrel hin hwithin
    rw [haddr] at hpanic
    rcases hpanic with h | ⟨h, hf⟩
    · exact .inl h
    · exact .inr ⟨h, by omega⟩
  · rename_i bs hrel
    have hspec := dealloc_spec fuel hr.represents (P.ordered_release hl hrel) (P.fit_release hl hrel) hrel hin
      (by rw [hblock]) (by rwa [haddr]) (by have := hr.ptr_pos hl; omega) hwithin
    rw [haddr] at hspec
    exact (hspec.weaken (by omega)).mono fun a' hu => ⟨hr.update hu, hu.untouched⟩

end

namespace Pool

variable {lo hi : Nat}

def call (P : Pool lo hi) : Call → Except Fault (Reply × Pool lo hi)
  | .alloc layout => (P.alloc layout).map fun (r, P') => (.alloc r, P')
  | .dealloc l => (P.dealloc l).map fun P' => (.dealloc, P')

def replay (P₀ : Pool lo hi) : List Call → Except Fault (List Reply × Pool lo hi)
  | [] => .ok ([], P₀)
  | c :: cs => do
    let (rs, P) ← P₀.replay cs
    let (r, P') ← P.call c
    return (r :: rs, P')

theorem alloc_live {P P' : Pool lo hi} {layout : Layout} {r : Except AllocErr Nat}
    (h : P.alloc layout = .ok (r, P')) : P'.live = granted layout r P.live := by
  unfold alloc at h
  split at h
  · cases h
  · cases h
  · split at h
    · cases h; rfl
    · cases h; rfl

theorem dealloc_live {P P' : Pool lo hi} {l : Live} (h : P.dealloc l = .ok P') : P'.live = P.live.erase l := by
  unfold dealloc at h
  split at h
  · split at h
    · cases h
    · cases h; rfl
  · cases h

theorem call_stops (P : Pool lo hi) (c : Call) : P.call c ≠ .error .outOfFuel := by
  cases c with
  | alloc layout =>
    rw [call, alloc]
    split
    · rename_i e hin
      rcases innerLayout_cases layout with ⟨inner, hin'⟩ | ⟨msg, hmsg⟩
      · cases hin.symm.trans hin'
      · rw [hin] at hmsg
        cases hmsg
        intro h
        cases h
    · intro h
      cases h
    · split <;> (intro h; cases h)
  | dealloc l =>
    rw [call, dealloc]
    split
    · split <;> (intro h; cases h)
    · intro h
      cases h

end Pool

def Call.touched (free : List Block) : Call → List Block
  | .alloc _ => free
  | .dealloc l => l.block :: free

structure Models {lo hi : Nat} (s : System) (P : Pool lo hi) : Prop where
  refines : Refines s.allocator P
  live_eq : s.live = P.live

section
variable {lo hi : Nat} {s : System} {P : Pool lo hi}

/-- One call. The system stops as the pool does, and writes into the touched blocks only. -/
theorem call_models (fuel : Nat) (hm : Models s P) {c : Call} (hc : c.Allowed s.live) :
    Agrees fuel (total P.free + 2) (s.call fuel c) (P.call c) fun x y =>
      x.1 = y.1 ∧ Models x.2 y.2 ∧ Untouched (c.touched P.free) s.allocator.mem x.2.allocator.mem := by
  cases c with
  | alloc layout =>
    apply (alloc_refines fuel hm.refines layout).bind_map
    intro x y hy hxy
    obtain ⟨hr, href, hu⟩ := hxy
    refine .ok ⟨?_, ⟨href, ?_⟩, hu⟩
    · rw [hr]
    · rw [Pool.alloc_live hy, hm.live_eq, hr]
  | dealloc l =>
    apply (dealloc_refines fuel hm.refines (hm.live_eq ▸ hc)).bind_map
    intro x y hy hxy
    obtain ⟨href, hu⟩ := hxy
    refine .ok ⟨rfl, ⟨href, ?_⟩, hu⟩
    rw [Pool.dealloc_live hy, hm.live_eq]

theorem Models.scribble (hm : Models s P) {m : Memory} (hs : Scribbled s.live s.allocator.mem m) :
    Models (s.withMem m) P := by
  refine ⟨⟨?_, hm.refines.start_le, hm.refines.le_end, hm.refines.nonnull⟩, hm.live_eq⟩
  refine hm.refines.represents.of_agree rfl (fun b hb => (P.grains b hb).sixteen_le) fun b hb x hx => ?_
  apply hs x
  intro l hl hreq
  have hl' : l ∈ P.live := hm.live_eq ▸ hl
  exact P.live_apart_free hl' hb x ⟨(P.placed l hl').has hreq, hx⟩

theorem untouched_live {c : Call} {l : Live} {m m' : Memory} (hc : c.Allowed P.live) (hl : l ∈ P.live)
    (hne : c ≠ .dealloc l) (hu : Untouched (c.touched P.free) m m') : ∀ x, l.block.Has x → m' x = m x := by
  intro x hx
  have hfree : ∀ b ∈ P.free, ¬ b.Has x := fun b hb hbx => P.live_apart_free hl hb x ⟨hx, hbx⟩
  apply hu x
  intro b hb hbx
  cases c with
  | alloc layout => exact hfree b hb hbx
  | dealloc l' =>
    rcases List.mem_cons.mp hb with rfl | hb
    · exact hne (by rw [P.live_inj hc hl hbx hx])
    · exact hfree b hb hbx

end

/-! ## Runs -/

section
variable {start «end» lo hi : Nat} {P₀ : Pool lo hi} {h : List (Call × Reply)} {s : System}

/-- Every run is a run of the pool. -/
theorem Run.replays (hlive : P₀.live = [])
    (hnew : ∀ fuel m a, Allocator.new fuel start «end» m = .ok a → Refines a P₀)
    (hrun : Run start «end» h s) :
    ∃ P, P₀.replay (h.map Prod.fst) = .ok (h.map Prod.snd, P) ∧ Models s P := by
  induction hrun with
  | new ha => exact ⟨P₀, rfl, hnew _ _ _ ha, hlive.symm⟩
  | call hrun hc hcall ih =>
    obtain ⟨P, hrep, hm⟩ := ih
    obtain ⟨⟨r, P'⟩, hP, hr, hm', -⟩ := (call_models _ hm hc).of_ok hcall
    refine ⟨P', ?_, hm'⟩
    simp only at hr
    subst hr
    simp only [List.map_cons, Pool.replay, hrep, hP, bind, Except.bind, pure, Except.pure]
  | scribble hrun hs ih =>
    obtain ⟨P, hrep, hm⟩ := ih
    exact ⟨P, hrep, hm.scribble hs⟩

theorem Run.replied (hrun : Run start «end» h s) {layout : Layout} {p : Nat}
    (hmem : (Call.alloc layout, Reply.alloc (.ok p)) ∈ h) :
    ∃ h' s', Run start «end» h' s' ∧ ⟨p, layout⟩ ∈ s'.live := by
  induction hrun with
  | new ha => cases hmem
  | @call fuel h s s' c r hrun hc hcall ih =>
    rcases List.mem_cons.mp hmem with heq | hmem
    · cases heq
      refine ⟨_, s', hrun.call hc hcall, ?_⟩
      obtain ⟨⟨r, a⟩, -, hcall⟩ := bind_ok hcall
      cases hcall
      exact List.mem_cons_self
    · exact ih hmem
  | scribble hrun hs ih => exact ih hmem

end

/-! ## The first pool -/

section
variable {start «end» S E : Nat}

theorem refines_whole (hS : alignUp start 16 = .ok S) (hE : alignDown «end» 16 = .ok E) (hS0 : S ≠ 0) (hlt : S < E)
    (hle : E - S ≤ 2 ^ 63) {fuel : Nat} {m : Memory} {a : Allocator}
    (ha : Allocator.new fuel start «end» m = .ok a) :
    Refines a (Pool.whole (grain_region hS hE hlt hle)) := by
  obtain ⟨hs, he, hrep⟩ := (new_spec fuel m hS hE hS0 hlt hle).of_ok ha
  exact ⟨hrep, hs.le, he.ge, fun _ => Nat.pos_of_ne_zero hS0⟩

theorem exists_pool (start «end» : Nat) : ∃ lo hi, ∃ P₀ : Pool lo hi, P₀.live = [] ∧
    ∀ fuel m a, Allocator.new fuel start «end» m = .ok a → Refines a P₀ := by
  by_cases hex : ∃ S E, alignUp start 16 = .ok S ∧ alignDown «end» 16 = .ok E ∧ S ≠ 0 ∧ S < E ∧ E - S ≤ 2 ^ 63
  · obtain ⟨S, E, hS, hE, hS0, hlt, hle⟩ := hex
    exact ⟨S, E, Pool.whole (grain_region hS hE hlt hle), rfl, fun _ _ _ ha => refines_whole hS hE hS0 hlt hle ha⟩
  · refine ⟨0, 0, Pool.empty, rfl, fun fuel m a ha => ?_⟩
    obtain ⟨S, E, hS, hE, hs, -, ⟨rfl, hrep⟩ | ⟨hS0, hlt, hle, -⟩⟩ := new_ok ha
    · exact ⟨hrep, hs.le, Nat.zero_le _, by simp⟩
    · exact absurd ⟨S, E, hS, hE, hS0, hlt, hle⟩ hex

theorem Run.models {h : List (Call × Reply)} {s : System} (hrun : Run start «end» h s) :
    ∃ lo hi, ∃ P : Pool lo hi, Models s P := by
  obtain ⟨lo, hi, P₀, hlive, hnew⟩ := exists_pool start «end»
  obtain ⟨P, -, hm⟩ := hrun.replays hlive hnew
  exact ⟨lo, hi, P, hm⟩

theorem Run.yields {h : List (Call × Reply)} {s : System} (hrun : Run start «end» h s) {fuel : Nat}
    {free : List Block} (hwalk : s.allocator.freeList fuel = .ok free) : Yields s.allocator.freeList free := by
  obtain ⟨lo, hi, P, hm⟩ := hrun.models
  have hr := hm.refines.represents
  rw [hr.freeList_eq hwalk]
  exact hr.freeList

theorem run_of_passes (fuel start «end» p : Nat) (layout : Layout) (check : Allocator → Bool)
    (h : Passes (Allocator.new fuel start «end» fun _ => 0) (fun a => Passes (a.alloc fuel layout) fun r =>
      r.1.toOption == some p && check r.2) = true) :
    ∃ a, Run start «end» [(.alloc layout, .alloc (.ok p))] ⟨a, [⟨p, layout⟩]⟩ ∧ check a = true := by
  obtain ⟨a₀, hnew, h⟩ := passes_ok h
  obtain ⟨⟨r, a⟩, halloc, h⟩ := passes_ok h
  obtain ⟨hr, hcheck⟩ := Bool.and_eq_true_iff.mp h
  cases r with
  | error e => cases hr
  | ok q =>
    obtain rfl : q = p := by simpa [Except.toOption] using hr
    have hcall : System.call fuel ⟨a₀, []⟩ (.alloc layout) = .ok (.alloc (.ok q), ⟨a, [⟨q, layout⟩]⟩) := by
      simp only [System.call, halloc]
      rfl
    exact ⟨a, (Run.new hnew).call trivial hcall, hcheck⟩

theorem region_within (hend : «end» ≤ 2 ^ 63) (hS : alignUp start 16 = .ok S) (hE : alignDown «end» 16 = .ok E)
    (hlt : S < E) : start ≤ S ∧ E ≤ «end» := by
  have hE' : 16 * («end» % 2 ^ 64 / 16) = E :=
    Except.ok.inj ((alignDown_two_pow «end» (show 4 ≤ 64 by decide)).symm.trans hE)
  have hEle : E ≤ «end» := by omega
  refine ⟨?_, hEle⟩
  by_cases hsat : start + 2 ^ 4 < 2 ^ 64
  · obtain ⟨r, hr, -, hle, -⟩ := alignUp_two_pow hsat
    cases hr.symm.trans hS
    exact hle
  · -- saturated, `align_up` gives the last grain
    have hlast := Except.ok.inj ((alignUp_saturated (show 4 < 64 by decide) (Nat.not_lt.mp hsat)).symm.trans hS)
    rw [if_neg (by decide)] at hlast
    omega

end

end Osymandias
