import Osymandias.Alignment

/-!
# The bump allocator

`allocator/bump.rs`. Memory is handed out by bumping a pointer and never taken
back. A run calls `alloc` and `dealloc` in any order, and keeps what `alloc`
returned.
-/

namespace Osymandias.Bump

open Fuel

structure Allocator where
  current : Nat
  «end» : Nat
  deriving DecidableEq

namespace Allocator

def new (start «end» : Nat) : Allocator := ⟨start, «end»⟩

def alloc (self : Allocator) (layout : Layout) : Except Fault (Except AllocErr Nat × Allocator) := do
  let aligned ← alignUp self.current layout.align
  let next := saturatingAdd aligned layout.size
  if next > self.end then return (.error (.exhausted layout), self)
  else return (.ok aligned, { self with current := next })

def dealloc (self : Allocator) (_ptr : Nat) (_layout : Layout) : Allocator := self

end Allocator

/-! ## Runs -/

inductive Call where
  | alloc (layout : Layout)
  | dealloc (ptr : Nat) (layout : Layout)

/-- What `alloc` asks of its callers. -/
def Call.Allowed : Call → Prop
  | .alloc layout => 0 < layout.size
  | .dealloc _ _ => True

structure Grant where
  ptr : Nat
  layout : Layout
  deriving DecidableEq

def Grant.end (g : Grant) : Nat := g.ptr + g.layout.size

/-- The allocator and what it has granted so far, the latest first. -/
structure State where
  allocator : Allocator
  grants : List Grant
  deriving DecidableEq

namespace State

def new (start «end» : Nat) : State := ⟨.new start «end», []⟩

def call (s : State) : Call → Except Fault State
  | .alloc layout => do
    let (r, a) ← s.allocator.alloc layout
    match r with
    | .ok p => return ⟨a, ⟨p, layout⟩ :: s.grants⟩
    | .error _ => return ⟨a, s.grants⟩
  | .dealloc ptr layout => return ⟨s.allocator.dealloc ptr layout, s.grants⟩

def run (s : State) (calls : List Call) : Except Fault State := calls.foldlM call s

end State

def lastEnd (start : Nat) : List Grant → Nat
  | [] => start
  | g :: _ => g.end

/-- What a state of the run promises: the grants lie in the region, aligned and
one above the other, and the next request is refused exactly when the least
aligned block above the last grant would leave the region. -/
structure Serves (start «end» : Nat) (s : State) : Prop where
  within : ∀ g ∈ s.grants, g.layout.align ∣ g.ptr ∧ start ≤ g.ptr ∧ g.end ≤ «end»
  increasing : s.grants.Pairwise fun later earlier => earlier.ptr < later.ptr ∧ earlier.end ≤ later.ptr
  next : ∀ layout, 0 < layout.size → ∃ r a A, s.allocator.alloc layout = .ok (r, a) ∧
    IsLeast {n | layout.align ∣ n ∧ lastEnd start s.grants ≤ n} A ∧
    ((∃ e, r = .error e) ↔ «end» < A + layout.size) ∧ ∀ e, r = .error e → a = s.allocator

/-! ## One call -/

theorem alloc_eq {a : Allocator} (hcur : a.current ≤ a.end) (hend : a.end ≤ 2 ^ 63) (layout : Layout) :
    ∃ A, IsLeast {n | layout.align ∣ n ∧ a.current ≤ n} A ∧ a.alloc layout =
      .ok (if a.end < A + layout.size then (.error (.exhausted layout), a)
        else (.ok A, { a with current := A + layout.size })) := by
  obtain ⟨k, hk, hk63⟩ := layout.align_eq_two_pow
  have hpow : 2 ^ k ≤ 2 ^ 63 := Nat.pow_le_pow_right (by decide) hk63
  obtain ⟨A, hA, -, hleast⟩ := alignUp_isLeast (Nat.lt_succ_of_le hk63) (show a.current + 2 ^ k ≤ 2 ^ 64 by omega)
    (fun htop => by unfold usizeMax at htop; omega)
  refine ⟨A, by rwa [hk], ?_⟩
  simp only [Allocator.alloc, hk, hA, bind, Except.bind]
  -- the sum sticks at `usize::MAX`, which is beyond the region as well
  have hsat : saturatingAdd A layout.size > a.end ↔ a.end < A + layout.size := by
    unfold saturatingAdd usizeMax
    omega
  by_cases h : a.end < A + layout.size
  · rw [if_pos (hsat.mpr h), if_pos h]
    rfl
  · have hsum : saturatingAdd A layout.size = A + layout.size := Nat.min_eq_left (by unfold usizeMax; omega)
    rw [if_neg (fun h' => h (hsat.mp h')), if_neg h, hsum]
    rfl

/-- The invariant of a run. -/
structure Sound (start «end» : Nat) (s : State) : Prop where
  end_eq : s.allocator.end = «end»
  current_eq : s.allocator.current = lastEnd start s.grants
  start_le : start ≤ s.allocator.current
  le_end : s.allocator.current ≤ «end»
  within : ∀ g ∈ s.grants, g.layout.align ∣ g.ptr ∧ start ≤ g.ptr ∧ g.end ≤ s.allocator.current
  increasing : s.grants.Pairwise fun later earlier => earlier.ptr < later.ptr ∧ earlier.end ≤ later.ptr
  nonempty : ∀ g ∈ s.grants, 0 < g.layout.size

section
variable {start «end» : Nat} {s : State}

theorem Sound.new (h : start ≤ «end») : Sound start «end» (.new start «end») :=
  ⟨rfl, rfl, Nat.le_refl _, h, by simp [State.new], .nil, by simp [State.new]⟩

theorem Sound.grant (hs : Sound start «end» s) {A : Nat} {layout : Layout} (hpos : 0 < layout.size)
    (hA : IsLeast {n | layout.align ∣ n ∧ s.allocator.current ≤ n} A) (hfit : A + layout.size ≤ «end») :
    Sound start «end» ⟨{ s.allocator with current := A + layout.size }, ⟨A, layout⟩ :: s.grants⟩ := by
  obtain ⟨hdvd, hcur⟩ := hA.1
  have hstart := hs.start_le
  refine ⟨hs.end_eq, rfl, by simp only; omega, hfit, ?_, ?_, ?_⟩
  · intro g hg
    rcases List.mem_cons.mp hg with rfl | hg
    · exact ⟨hdvd, by simp only; omega, Nat.le_refl _⟩
    · obtain ⟨h₁, h₂, h₃⟩ := hs.within g hg
      exact ⟨h₁, h₂, by simp only; omega⟩
  · refine List.pairwise_cons.mpr ⟨?_, hs.increasing⟩
    intro g hg
    have hend := (hs.within g hg).2.2
    have := hs.nonempty g hg
    unfold Grant.end at *
    exact ⟨by simp only; omega, by simp only; omega⟩
  · intro g hg
    rcases List.mem_cons.mp hg with rfl | hg
    · exact hpos
    · exact hs.nonempty g hg

theorem Sound.call (hs : Sound start «end» s) (hend : «end» ≤ 2 ^ 63) {c : Call} (hc : c.Allowed) :
    ∃ s', s.call c = .ok s' ∧ Sound start «end» s' := by
  cases c with
  | alloc layout =>
    have hle := hs.le_end
    rw [← hs.end_eq] at hle hend
    obtain ⟨A, hA, heq⟩ := alloc_eq hle hend layout
    simp only [State.call, heq, bind, Except.bind]
    by_cases h : s.allocator.end < A + layout.size
    · rw [if_pos h]
      exact ⟨s, rfl, hs⟩
    · rw [if_neg h]
      exact ⟨_, rfl, hs.grant hc hA (by rw [← hs.end_eq]; omega)⟩
  | dealloc ptr layout => exact ⟨s, rfl, hs⟩

theorem Sound.serves (hs : Sound start «end» s) (hend : «end» ≤ 2 ^ 63) : Serves start «end» s := by
  refine ⟨?_, hs.increasing, ?_⟩
  · intro g hg
    obtain ⟨h₁, h₂, h₃⟩ := hs.within g hg
    exact ⟨h₁, h₂, h₃.trans hs.le_end⟩
  · intro layout _
    have hle := hs.le_end
    rw [← hs.end_eq] at hle hend ⊢
    obtain ⟨A, hA, heq⟩ := alloc_eq hle hend layout
    rw [hs.current_eq] at hA
    by_cases h : s.allocator.end < A + layout.size
    · rw [if_pos h] at heq
      exact ⟨_, _, A, heq, hA, by simp [h], fun _ _ => rfl⟩
    · rw [if_neg h] at heq
      exact ⟨_, _, A, heq, hA, by simp [h], fun e he => by cases he⟩

/-- **The bump allocator.** Whatever the calls, none panics, what is granted is
inside the region, aligned and apart, and a request is refused only when it
does not fit. -/
theorem run_serves (hle : start ≤ «end») (hend : «end» ≤ 2 ^ 63) (calls : List Call)
    (hcalls : ∀ c ∈ calls, c.Allowed) : ∃ s, State.run (.new start «end») calls = .ok s ∧ Serves start «end» s := by
  obtain ⟨s, hrun, hs⟩ := foldlM_invariant (Sound.new hle) fun c hc s hs => Sound.call hs hend (hcalls c hc)
  exact ⟨s, hrun, hs.serves hend⟩

end

def wordsLayout : Layout := ⟨20, 8, ⟨3, rfl⟩, by decide, by decide⟩

/-- The largest alignment there is: `align_up` of any address but the first lands at `2 ^ 63`. -/
def hugeLayout : Layout := ⟨2 ^ 63, 2 ^ 63, ⟨63, rfl⟩, by decide, by decide⟩

theorem run_serves_huge : ∃ s, State.run (.new 1 100)
    [.alloc wordsLayout, .alloc hugeLayout, .dealloc 8 wordsLayout, .alloc wordsLayout] = .ok s ∧
      s.grants = [⟨32, wordsLayout⟩, ⟨8, wordsLayout⟩] ∧ Serves 1 100 s := by
  obtain ⟨s, hrun, hs⟩ := run_serves (show 1 ≤ 100 by decide) (by decide) [.alloc wordsLayout, .alloc hugeLayout,
    .dealloc 8 wordsLayout, .alloc wordsLayout] (by simp [Call.Allowed, wordsLayout, hugeLayout])
  refine ⟨s, hrun, ?_, hs⟩
  have hval : State.run (.new 1 100) [.alloc wordsLayout, .alloc hugeLayout, .dealloc 8 wordsLayout,
    .alloc wordsLayout] = .ok ⟨⟨52, 100⟩, [⟨32, wordsLayout⟩, ⟨8, wordsLayout⟩]⟩ := by decide +kernel
  cases hval.symm.trans hrun
  rfl

end Osymandias.Bump
