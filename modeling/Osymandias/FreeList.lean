import Osymandias.Bin
import Osymandias.Tiling

/-!
# The free list as a list of blocks

The allocator's operations on the abstract free list, with no memory and no
pointers. `divide` cuts a block at the points `divide_maximally` computes,
`merge` joins buddies in one pass, `allocate` and `release` are `alloc` and
`dealloc` of a rounded request.
-/

namespace Osymandias

open Fuel Tiling

/-- What every cut needs of a block, and leaves: 16-byte grains below `2 ^ 64`. -/
structure Grain (b : Block) : Prop where
  addr_dvd : 16 ∣ b.addr
  size_dvd : 16 ∣ b.size
  size_pos : 0 < b.size
  size_le : b.size ≤ 2 ^ 63
  end_lt : b.addr + b.size < 2 ^ 64

/-- A block that need not be cut: its size is a power of two and its address a
multiple of half of it. -/
structure Fit (b : Block) : Prop extends Grain b where
  size_pow : b.size.isPowerOfTwo
  half_dvd : b.size / 2 ∣ b.addr

/-! ## Cut points -/

theorem nextPowerOfTwoBelow_eq {n : Nat} (h : 2 ≤ n) (hn : n ≤ 2 ^ 63) :
    ∃ k, Allocator.nextPowerOfTwoBelow n = .ok (2 ^ k) ∧ 2 ^ k < n ∧ n ≤ 2 ^ (k + 1) := by
  obtain ⟨k, hk, hlt, hle⟩ := clog_bounds h
  refine ⟨k, ?_, hlt, hle⟩
  rw [Allocator.nextPowerOfTwoBelow, checkedNextPowerOfTwo_eq hn, hk]
  simp [unwrap, bind, Except.bind, pure, Except.pure, Nat.shiftRight_one, Nat.pow_succ]

theorem pow_eq_of_between {n k : Nat} (h : n.isPowerOfTwo) (hlt : 2 ^ k < n) (hle : n ≤ 2 ^ (k + 1)) :
    n = 2 ^ (k + 1) := by
  obtain ⟨j, rfl⟩ := h
  have h₁ := (Nat.pow_lt_pow_iff_right (a := 2) (by decide)).mp hlt
  have h₂ := (Nat.pow_le_pow_iff_right (a := 2) (by decide)).mp hle
  rw [show j = k + 1 by omega]

theorem sixteen_dvd_pow {k : Nat} (h : 4 ≤ k) : 16 ∣ 2 ^ k := pow_dvd_pow 2 h

theorem Grain.three_le {b : Block} (hb : Grain b) {k : Nat} (hle : b.size ≤ 2 ^ (k + 1)) :
    3 ≤ k := by
  have h16 := Nat.le_of_dvd hb.size_pos hb.size_dvd
  by_contra hk
  have : 2 ^ (k + 1) ≤ 2 ^ 3 := Nat.pow_le_pow_right (by decide) (by omega)
  omega

/-- The cut point. It is computed without a fault. Either it lies strictly
inside the block, on a grain, or it is the block's own address and the block fits. -/
theorem Grain.nextPtr {b : Block} (hb : Grain b) :
    ∃ c, Allocator.nextPtr b.addr b.size = .ok c ∧
      ((c = b.addr ∧ Fit b) ∨ (b.addr < c ∧ c < b.addr + b.size ∧ 16 ∣ c)) := by
  have h16 := Nat.le_of_dvd hb.size_pos hb.size_dvd
  have hend := hb.end_lt
  obtain ⟨k, hk, hlt, hle⟩ := nextPowerOfTwoBelow_eq (show 2 ≤ b.size by omega) hb.size_le
  have hk3 := hb.three_le hle
  obtain ⟨r, hr, hdvd, hler, hltr⟩ := alignUp_two_pow (show b.addr + 2 ^ k < 2 ^ 64 by omega)
  simp only [Allocator.nextPtr, hk, hr, bind, Except.bind, pure, Except.pure]
  by_cases hne : b.addr = r
  · subst hne
    by_cases hpow : b.size.isPowerOfTwo
    · refine ⟨b.addr, by simp [hpow], .inl ⟨rfl, { hb with size_pow := hpow, half_dvd := ?_ }⟩⟩
      rw [pow_eq_of_between hpow hlt hle, Nat.pow_succ, Nat.mul_div_cancel _ (by decide)]
      exact hdvd
    · -- the size is not a power of two, so it is above 16 and the lower power is a grain
      have hk4 : 4 ≤ k := by
        by_contra h4
        have h3 : k = 3 := by omega
        subst h3
        exact hpow (by rw [show b.size = 2 ^ 4 by omega]; exact isPowerOfTwo_two_pow 4)
      refine ⟨b.addr + 2 ^ k, ?_, .inr ⟨by have := Nat.two_pow_pos k; omega, by omega, ?_⟩⟩
      · simp only [ne_eq, not_true, if_false, hpow, not_false_eq_true, if_true, usizeAdd]
        rw [if_pos (by unfold usizeMax; omega)]
      · exact Nat.dvd_add hb.addr_dvd (sixteen_dvd_pow hk4)
  · refine ⟨r, by simp [hne], .inr ⟨by omega, by omega, ?_⟩⟩
    -- at `k = 3` the address is aligned already
    have hk4 : 4 ≤ k := by
      by_contra h4
      have h3 : k = 3 := by omega
      subst h3
      have hself := alignUp_self (show b.addr + 2 ^ 3 < 2 ^ 64 by omega)
        (Nat.dvd_trans (by decide) hb.addr_dvd)
      rw [hr] at hself
      cases hself
      exact hne rfl
    exact Nat.dvd_trans (sixteen_dvd_pow hk4) hdvd

theorem Fit.nextPtr {b : Block} (hb : Fit b) : Allocator.nextPtr b.addr b.size = .ok b.addr := by
  have h16 := Nat.le_of_dvd hb.size_pos hb.size_dvd
  have hend := hb.end_lt
  obtain ⟨k, hk, hlt, hle⟩ := nextPowerOfTwoBelow_eq (show 2 ≤ b.size by omega) hb.size_le
  have hhalf : 2 ^ k ∣ b.addr := by
    have := hb.half_dvd
    rwa [pow_eq_of_between hb.size_pow hlt hle, Nat.pow_succ, Nat.mul_div_cancel _ (by decide)] at this
  simp [Allocator.nextPtr, hk, alignUp_self (by omega) hhalf, hb.size_pow, bind, Except.bind, pure,
    Except.pure]

/-! ## Dividing -/

def cut (b : Block) : Nat :=
  match Allocator.nextPtr b.addr b.size with
  | .ok c => c
  | .error _ => b.addr

def divide (b : Block) : List Block :=
  if b.addr < cut b ∧ cut b < b.addr + b.size then
    divide ⟨b.addr, cut b - b.addr⟩ ++ divide ⟨cut b, b.addr + b.size - cut b⟩
  else [b]
termination_by b.size
decreasing_by all_goals omega

theorem Grain.cut_eq {b : Block} (hb : Grain b) : Allocator.nextPtr b.addr b.size = .ok (cut b) := by
  obtain ⟨c, hc, -⟩ := hb.nextPtr
  simp only [cut, hc]

theorem Grain.cut_cases {b : Block} (hb : Grain b) :
    (cut b = b.addr ∧ Fit b) ∨
    ((b.addr < cut b ∧ cut b < b.addr + b.size) ∧
      Grain ⟨b.addr, cut b - b.addr⟩ ∧ Grain ⟨cut b, b.addr + b.size - cut b⟩) := by
  obtain ⟨c, hc, h⟩ := hb.nextPtr
  have hcut : cut b = c := by simp only [cut, hc]
  rw [hcut]
  rcases h with h | ⟨hlo, hhi, hdvd⟩
  · exact .inl h
  · have := hb.end_lt
    have := hb.size_le
    refine .inr ⟨⟨hlo, hhi⟩, ⟨hb.addr_dvd, Nat.dvd_sub hdvd hb.addr_dvd, ?_, ?_, ?_⟩,
      ⟨hdvd, Nat.dvd_sub (Nat.dvd_add hb.addr_dvd hb.size_dvd) hdvd, ?_, ?_, ?_⟩⟩ <;> (simp only; omega)

theorem Fit.divide_eq {b : Block} (hb : Fit b) : divide b = [b] := by
  rw [divide, if_neg]
  simp [cut, hb.nextPtr]

theorem cover_divide (b : Block) (x : Nat) : cover (divide b) x = cover [b] x := by
  induction b using divide.induct with
  | case1 b h ih₁ ih₂ =>
    rw [divide, if_pos h, cover_append, ih₁, ih₂, ← cover_append]
    exact cover_cut (by omega) (by omega)
  | case2 b h => rw [divide, if_neg h]

theorem fit_divide (b : Block) (hb : Grain b) : ∀ c ∈ divide b, Fit c := by
  induction b using divide.induct with
  | case1 b h ih₁ ih₂ =>
    rcases hb.cut_cases with ⟨he, -⟩ | ⟨-, hl, hr⟩
    · omega
    · rw [divide, if_pos h]
      intro c hc
      rcases List.mem_append.mp hc with hc | hc
      · exact ih₁ hl c hc
      · exact ih₂ hr c hc
  | case2 b h =>
    rcases hb.cut_cases with ⟨-, hf⟩ | ⟨hc, -⟩
    · rw [divide, if_neg h]; simpa using hf
    · exact absurd hc h

theorem within_divide (b : Block) : ∀ c ∈ divide b, b.addr ≤ c.addr ∧ c.addr + c.size ≤ b.addr + b.size := by
  induction b using divide.induct with
  | case1 b h ih₁ ih₂ =>
    rw [divide, if_pos h]
    intro c hc
    rcases List.mem_append.mp hc with hc | hc
    · have := ih₁ c hc; simp only at this; omega
    · have := ih₂ c hc; simp only at this; omega
  | case2 b h => rw [divide, if_neg h]; simp

theorem ordered_divide (b : Block) : Ordered (divide b) := by
  induction b using divide.induct with
  | case1 b h ih₁ ih₂ =>
    rw [divide, if_pos h]
    refine ordered_append.mpr ⟨ih₁, ih₂, fun c hc d hd => ?_⟩
    have h₁ := within_divide _ c hc
    have h₂ := within_divide _ d hd
    simp only at h₁ h₂
    omega
  | case2 b h => rw [divide, if_neg h]; exact List.pairwise_singleton ..

theorem consecutive_divide (b : Block) (hb : 0 < b.size) : Consecutive (b.addr + b.size) b.addr (divide b) := by
  induction b using divide.induct with
  | case1 b h ih₁ ih₂ =>
    have h₁ := ih₁ (by simp only; omega)
    have h₂ := ih₂ (by simp only; omega)
    simp only [show b.addr + (cut b - b.addr) = cut b by omega,
      show cut b + (b.addr + b.size - cut b) = b.addr + b.size by omega] at h₁ h₂
    rw [divide, if_pos h]
    exact consecutive_append h₁ h₂
  | case2 b h =>
    rw [divide, if_neg h]
    exact ⟨rfl, hb, rfl⟩

def divideAll (bs : List Block) : List Block := bs.flatMap divide

@[simp] theorem divideAll_nil : divideAll [] = [] := rfl

@[simp] theorem divideAll_cons (b : Block) (bs : List Block) :
    divideAll (b :: bs) = divide b ++ divideAll bs := List.flatMap_cons ..

@[simp] theorem divideAll_append (xs ys : List Block) :
    divideAll (xs ++ ys) = divideAll xs ++ divideAll ys := List.flatMap_append ..

theorem cover_divideAll (bs : List Block) (x : Nat) : cover (divideAll bs) x = cover bs x :=
  cover_flatMap fun b _ x => cover_divide b x

theorem fit_divideAll {bs : List Block} (h : ∀ b ∈ bs, Grain b) : ∀ c ∈ divideAll bs, Fit c := by
  intro c hc
  obtain ⟨b, hb, hcb⟩ := List.mem_flatMap.mp hc
  exact fit_divide b (h b hb) c hcb

theorem ordered_divideAll : ∀ {bs : List Block}, Ordered bs → Ordered (divideAll bs)
  | [], _ => List.Pairwise.nil
  | b :: bs, h => by
    obtain ⟨hb, hbs⟩ := ordered_cons.mp h
    rw [divideAll_cons]
    refine ordered_append.mpr ⟨ordered_divide b, ordered_divideAll hbs, fun c hc d hd => ?_⟩
    obtain ⟨e, he, hde⟩ := List.mem_flatMap.mp hd
    have h₁ := within_divide b c hc
    have h₂ := within_divide e d hde
    have := hb e he
    omega

theorem divideAll_of_fit : ∀ {bs : List Block}, (∀ b ∈ bs, Fit b) → divideAll bs = bs
  | [], _ => rfl
  | b :: bs, h => by
    rw [divideAll_cons, (h b (by simp)).divide_eq, divideAll_of_fit fun c hc => h c (by simp [hc])]
    rfl

/-! ## Merging buddies -/

def Buddies (b c : Block) : Prop := b.addr + b.size = c.addr ∧ b.size = c.size ∧ b.addr % (2 * b.size) = 0

instance (b c : Block) : Decidable (Buddies b c) := inferInstanceAs (Decidable (_ ∧ _ ∧ _))

def merge : List Block → List Block
  | b :: c :: bs => if Buddies b c then ⟨b.addr, 2 * b.size⟩ :: merge bs else b :: merge (c :: bs)
  | bs => bs

theorem Buddies.cover {b c : Block} (h : Buddies b c) (x : Nat) :
    cover [⟨b.addr, 2 * b.size⟩] x = cover [b, c] x := by
  obtain ⟨a, s⟩ := b
  obtain ⟨a', s'⟩ := c
  obtain ⟨rfl, rfl, -⟩ := h
  have hcut := cover_cut (b := ⟨a, 2 * s⟩) (c := a + s) (x := x) (by simp only; omega) (by simp only; omega)
  rw [← hcut]
  simp only [show a + s - a = s by omega, show a + 2 * s - (a + s) = s by omega]

theorem cover_merge (bs : List Block) (x : Nat) : cover (merge bs) x = cover bs x := by
  induction bs using merge.induct with
  | case1 b c bs h ih =>
    have := h.cover x
    rw [merge, if_pos h, cover_cons, ih]
    simp only [cover_cons, cover_nil] at this ⊢
    omega
  | case2 b c bs h ih => rw [merge, if_neg h, cover_cons, ih, ← cover_cons]
  | case3 bs h => rw [merge]; exact h

theorem Buddies.fit {b c : Block} (h : Buddies b c) (hb : Fit b) (hc : Fit c) :
    Fit ⟨b.addr, 2 * b.size⟩ := by
  obtain ⟨hadj, hsize, hal⟩ := h
  have hend := hc.end_lt
  have hlt : 2 * b.size < 2 ^ 64 := by omega
  obtain ⟨k, hk⟩ := hb.size_pow
  have hpow : 2 * b.size = 2 ^ (k + 1) := by rw [hk, Nat.pow_succ, Nat.mul_comm]
  refine ⟨⟨hb.addr_dvd, Nat.dvd_trans hb.size_dvd (Nat.dvd_mul_left ..), ?_, ?_, ?_⟩, ⟨k + 1, hpow⟩, ?_⟩
  · have := hb.size_pos; simp only; omega
  · rw [hpow] at hlt ⊢
    exact Nat.pow_le_pow_right (by decide)
      (Nat.le_of_lt_succ ((Nat.pow_lt_pow_iff_right (a := 2) (by decide)).mp hlt))
  · simp only; omega
  · simp only [Nat.mul_div_cancel_left _ (show 0 < 2 by decide)]
    exact Nat.dvd_trans (Nat.dvd_mul_left ..) (Nat.dvd_of_mod_eq_zero hal)

theorem fit_merge (bs : List Block) (h : ∀ b ∈ bs, Fit b) : ∀ b ∈ merge bs, Fit b := by
  induction bs using merge.induct with
  | case1 b c bs hbud ih =>
    rw [merge, if_pos hbud]
    intro d hd
    rcases List.mem_cons.mp hd with rfl | hd
    · have hb := h b (by simp)
      have hc := h c (by simp)
      exact hbud.fit hb hc
    · exact ih (fun e he => h e (by simp [he])) d hd
  | case2 b c bs hbud ih =>
    rw [merge, if_neg hbud]
    intro d hd
    rcases List.mem_cons.mp hd with rfl | hd
    · exact h d (by simp)
    · exact ih (fun e he => h e (List.mem_cons_of_mem _ he)) d hd
  | case3 bs hbs => rw [merge]; exact h; exact hbs

theorem merge_within {lo : Nat} (bs : List Block) (h : ∀ b ∈ bs, lo ≤ b.addr) : ∀ b ∈ merge bs, lo ≤ b.addr := by
  induction bs using merge.induct with
  | case1 b c bs hbud ih =>
    rw [merge, if_pos hbud]
    intro d hd
    rcases List.mem_cons.mp hd with rfl | hd
    · exact h b (by simp)
    · exact ih (fun e he => h e (by simp [he])) d hd
  | case2 b c bs hbud ih =>
    rw [merge, if_neg hbud]
    intro d hd
    rcases List.mem_cons.mp hd with rfl | hd
    · exact h d (by simp)
    · exact ih (fun e he => h e (List.mem_cons_of_mem _ he)) d hd
  | case3 bs hbs => rw [merge]; exact h; exact hbs

theorem ordered_merge (bs : List Block) (h : Ordered bs) : Ordered (merge bs) := by
  induction bs using merge.induct with
  | case1 b c bs hbud ih =>
    rw [merge, if_pos hbud]
    obtain ⟨-, hbs⟩ := ordered_cons.mp h
    obtain ⟨hc, hbs⟩ := ordered_cons.mp hbs
    obtain ⟨hadj, hsize, -⟩ := hbud
    refine ordered_cons.mpr ⟨fun d hd => ?_, ih hbs⟩
    have := merge_within bs hc d hd
    simp only
    omega
  | case2 b c bs hbud ih =>
    rw [merge, if_neg hbud]
    obtain ⟨hb, hbs⟩ := ordered_cons.mp h
    exact ordered_cons.mpr ⟨merge_within (c :: bs) hb, ih hbs⟩
  | case3 bs hbs => rw [merge]; exact h; exact hbs

/-! ## Requests -/

/-- The address a request of `n` bytes aligned on `a` is given, and the list
left before it is divided again: the first block of exactly that size goes
whole, else the first larger one loses its front. -/
def allocate (n a : Nat) (bs : List Block) : Option (Nat × List Block) :=
  match firstSplit (fun b => b.size == n && b.addr % a == 0) bs with
  | some (xs, b, ys) => some (b.addr, xs ++ ys)
  | none =>
    match firstSplit (fun b => decide (b.size > n) && b.addr % a == 0) bs with
    | some (xs, b, ys) => some (b.addr, xs ++ ⟨b.addr + n, b.size - n⟩ :: ys)
    | none => none

theorem Fit.front {b : Block} {n : Nat} (hb : Fit b) (hn : n.isPowerOfTwo) (h16 : 16 ∣ n) (hlt : n < b.size) :
    Fit ⟨b.addr, n⟩ := by
  obtain ⟨j, rfl⟩ := hn
  obtain ⟨k, hk⟩ := hb.size_pow
  rw [hk] at hlt
  have hjk := (Nat.pow_lt_pow_iff_right (a := 2) (by decide)).mp hlt
  have hend := hb.end_lt
  have hle := hb.size_le
  rw [hk] at hend hle
  refine ⟨⟨hb.addr_dvd, h16, Nat.two_pow_pos j, ?_, ?_⟩, ⟨j, rfl⟩, ?_⟩
  · simp only; omega
  · simp only; omega
  · have hhalf : 2 ^ (k - 1) ∣ b.addr := by
      have := hb.half_dvd
      rwa [hk, show k = k - 1 + 1 by omega, Nat.pow_succ, Nat.mul_div_cancel _ (by decide)] at this
    refine Nat.dvd_trans (Nat.dvd_trans ?_ (pow_dvd_pow 2 (show j ≤ k - 1 by omega))) hhalf
    obtain ⟨q, hq⟩ := h16
    exact ⟨2, by simp only; omega⟩

theorem Grain.rest {b : Block} {n : Nat} (hb : Grain b) (h16 : 16 ∣ n) (hlt : n < b.size) :
    Grain ⟨b.addr + n, b.size - n⟩ := by
  have := hb.end_lt
  have := hb.size_le
  refine ⟨Nat.dvd_add hb.addr_dvd h16, Nat.dvd_sub hb.size_dvd h16, ?_, ?_, ?_⟩ <;> (simp only; omega)

section
variable {n a p : Nat} {bs bs' : List Block}

theorem allocate_some (h : allocate n a bs = some (p, bs')) :
    (∃ xs b ys, bs = xs ++ b :: ys ∧ b.size = n ∧ b.addr % a = 0 ∧ p = b.addr ∧ bs' = xs ++ ys) ∨
    (∃ xs b ys, bs = xs ++ b :: ys ∧ n < b.size ∧ b.addr % a = 0 ∧ p = b.addr ∧
      bs' = xs ++ ⟨b.addr + n, b.size - n⟩ :: ys) := by
  unfold allocate at h
  split at h
  · rename_i xs b ys hs
    obtain ⟨hbs, hp, -⟩ := firstSplit_some hs
    simp only [Bool.and_eq_true, beq_iff_eq] at hp
    cases h
    exact .inl ⟨xs, b, ys, hbs, hp.1, hp.2, rfl, rfl⟩
  · split at h
    · rename_i xs b ys hs
      obtain ⟨hbs, hp, -⟩ := firstSplit_some hs
      simp only [Bool.and_eq_true, beq_iff_eq, decide_eq_true_eq] at hp
      cases h
      exact .inr ⟨xs, b, ys, hbs, hp.1, hp.2, rfl, rfl⟩
    · cases h

/-- When a request is served. Some block must be large enough and start on a multiple. -/
theorem allocate_isSome : (∃ r, allocate n a bs = some r) ↔ ∃ b ∈ bs, n ≤ b.size ∧ b.addr % a = 0 := by
  constructor
  · rintro ⟨⟨p, bs'⟩, h⟩
    obtain ⟨xs, b, ys, rfl, hs, hal, -, -⟩ | ⟨xs, b, ys, rfl, hs, hal, -, -⟩ := allocate_some h
    · exact ⟨b, by simp, hs.ge, hal⟩
    · exact ⟨b, by simp, hs.le, hal⟩
  · rintro ⟨b, hb, hs, hal⟩
    unfold allocate
    cases h₁ : firstSplit (fun b => b.size == n && b.addr % a == 0) bs with
    | some t => exact ⟨_, rfl⟩
    | none =>
      cases h₂ : firstSplit (fun b => decide (b.size > n) && b.addr % a == 0) bs with
      | some t => exact ⟨_, rfl⟩
      | none =>
        have hne := firstSplit_none.mp h₁ b hb
        have hnle := firstSplit_none.mp h₂ b hb
        simp only [hal, beq_self_eq_true, Bool.and_true, beq_eq_false_iff_ne] at hne
        simp only [hal, beq_self_eq_true, Bool.and_true, decide_eq_false_iff_not] at hnle
        omega

theorem allocate_aligned (h : allocate n a bs = some (p, bs')) : p % a = 0 := by
  obtain ⟨_, _, _, -, -, hal, rfl, -⟩ | ⟨_, _, _, -, -, hal, rfl, -⟩ := allocate_some h <;> exact hal

theorem allocate_cover (h : allocate n a bs = some (p, bs')) (x : Nat) :
    cover bs x = cover bs' x + cover [⟨p, n⟩] x := by
  obtain ⟨xs, ⟨_, s⟩, ys, rfl, rfl, -, rfl, rfl⟩ | ⟨xs, ⟨_, s⟩, ys, rfl, hn, -, rfl, rfl⟩ := allocate_some h
  · simp only [cover_append, cover_cons, cover_nil]
    omega
  · have hcut := cover_cut (b := ⟨p, s⟩) (c := p + n) (x := x) (by simp only; omega)
      (by simp only at hn ⊢; omega)
    simp only [show p + n - p = n by omega, show p + s - (p + n) = s - n by omega] at hcut
    simp only [cover_append, cover_cons, cover_nil] at hcut ⊢
    omega

theorem allocate_total (h : allocate n a bs = some (p, bs')) : total bs' ≤ total bs := by
  obtain ⟨xs, b, ys, rfl, -, -, -, rfl⟩ | ⟨xs, b, ys, rfl, -, -, -, rfl⟩ := allocate_some h
  · simp only [total_append, total_cons]; omega
  · simp only [total_append, total_cons]; omega

theorem allocate_fit (h : allocate n a bs = some (p, bs')) (hbs : ∀ b ∈ bs, Fit b)
    (hn : n.isPowerOfTwo) (h16 : 16 ∣ n) : Fit ⟨p, n⟩ := by
  obtain ⟨xs, b, ys, rfl, hs, -, rfl, -⟩ | ⟨xs, b, ys, rfl, hs, -, rfl, -⟩ := allocate_some h
  · subst hs; exact hbs b (by simp)
  · exact (hbs b (by simp)).front hn h16 hs

theorem allocate_grain (h : allocate n a bs = some (p, bs')) (hbs : ∀ b ∈ bs, Grain b) (h16 : 16 ∣ n) :
    ∀ b ∈ bs', Grain b := by
  obtain ⟨xs, b, ys, rfl, -, -, -, rfl⟩ | ⟨xs, b, ys, rfl, hs, -, -, rfl⟩ := allocate_some h
  · exact forall_mem_replace [] hbs (by simp)
  · exact forall_mem_replace [⟨b.addr + n, b.size - n⟩] hbs (by simpa using (hbs b (by simp)).rest h16 hs)

theorem allocate_ordered (h : allocate n a bs = some (p, bs')) (hbs : Ordered bs) : Ordered bs' := by
  obtain ⟨xs, b, ys, rfl, -, -, -, rfl⟩ | ⟨xs, b, ys, rfl, hs, -, -, rfl⟩ := allocate_some h
  · have := hbs.replace (show Ordered [] from .nil) (by simp)
    simpa using this
  · exact hbs.rest (Nat.le_of_lt hs)

end

/-! ## What a block can serve -/

theorem Buddies.aligned {b c : Block} {a : Nat} (h : Buddies b c) (hb : b.size.isPowerOfTwo) (ha : a.isPowerOfTwo)
    (hc : c.addr % a = 0) : b.addr % a = 0 := by
  obtain ⟨k, hk⟩ := hb
  obtain ⟨i, rfl⟩ := ha
  obtain ⟨hadj, -, hal⟩ := h
  have hdvd : 2 ^ (k + 1) ∣ b.addr := by
    rw [hk, Nat.mul_comm, ← Nat.pow_succ] at hal
    exact Nat.dvd_of_mod_eq_zero hal
  by_cases hik : i ≤ k + 1
  · exact Nat.mod_eq_zero_of_dvd (Nat.dvd_trans (pow_dvd_pow 2 hik) hdvd)
  · -- the upper buddy starts on an odd multiple of its size, so it is not aligned on twice that
    have hc' : 2 ^ (k + 1) ∣ b.addr + 2 ^ k := by
      rw [← hk, hadj]
      exact Nat.dvd_trans (pow_dvd_pow 2 (by omega)) (Nat.dvd_of_mod_eq_zero hc)
    have hpow := Nat.le_of_dvd (Nat.two_pow_pos k) ((Nat.dvd_add_right hdvd).mp hc')
    rw [Nat.pow_succ] at hpow
    have := Nat.two_pow_pos k
    omega

theorem merge_serves {n a : Nat} (ha : a.isPowerOfTwo) (bs : List Block) (hp : ∀ b ∈ bs, b.size.isPowerOfTwo)
    (h : ∃ b ∈ bs, n ≤ b.size ∧ b.addr % a = 0) : ∃ b ∈ merge bs, n ≤ b.size ∧ b.addr % a = 0 := by
  induction bs using merge.induct with
  | case1 b c bs hbud ih =>
    rw [merge, if_pos hbud]
    obtain ⟨d, hd, hn, hal⟩ := h
    simp only [List.mem_cons] at hd
    have hsize := hbud.2.1
    rcases hd with rfl | rfl | hd
    · exact ⟨_, List.mem_cons_self, by simp only; omega, hal⟩
    · exact ⟨_, List.mem_cons_self, by simp only; omega, hbud.aligned (hp b (by simp)) ha hal⟩
    · obtain ⟨e, he, hs⟩ := ih (fun e he => hp e (by simp [he])) ⟨d, hd, hn, hal⟩
      exact ⟨e, List.mem_cons_of_mem _ he, hs⟩
  | case2 b c bs hbud ih =>
    rw [merge, if_neg hbud]
    obtain ⟨d, hd, hs⟩ := h
    rcases List.mem_cons.mp hd with rfl | hd
    · exact ⟨d, List.mem_cons_self, hs⟩
    · obtain ⟨e, he, hs⟩ := ih (fun e he => hp e (List.mem_cons_of_mem _ he)) ⟨d, hd, hs⟩
      exact ⟨e, List.mem_cons_of_mem _ he, hs⟩
  | case3 bs hbs =>
    rw [merge]
    · exact h
    · exact hbs

/-- Aligned ranges. A block that fits holds an aligned range of `n` bytes only
at its start, or at its middle when half of it is large enough. -/
theorem Fit.contains_iff {b : Block} {n a : Nat} (hb : Fit b) (hn : 0 < n) (ha : a.isPowerOfTwo) :
    (∃ q, b.addr ≤ q ∧ q + n ≤ b.addr + b.size ∧ q % a = 0) ↔
      (n ≤ b.size ∧ b.addr % a = 0) ∨ (2 * n ≤ b.size ∧ (b.addr + b.size / 2) % a = 0) := by
  constructor
  · rintro ⟨q, hlo, hhi, hq⟩
    obtain ⟨k, hk⟩ := hb.size_pow
    obtain ⟨i, rfl⟩ := ha
    have h16 := Nat.le_of_dvd hb.size_pos hb.size_dvd
    obtain ⟨j, rfl⟩ : ∃ j, k = j + 1 := by
      cases k with
      | zero => simp at hk; omega
      | succ j => exact ⟨j, rfl⟩
    have hhalf : b.size / 2 = 2 ^ j := by rw [hk, Nat.pow_succ, Nat.mul_div_cancel _ (by decide)]
    obtain ⟨m, hm⟩ : 2 ^ j ∣ b.addr := hhalf ▸ hb.half_dvd
    have hpos := Nat.two_pow_pos j
    rw [Nat.pow_succ] at hk
    by_cases hij : i ≤ j
    · left
      exact ⟨by omega, Nat.mod_eq_zero_of_dvd (Nat.dvd_trans (pow_dvd_pow 2 hij) ⟨m, hm⟩)⟩
    · -- the range starts on a multiple of the whole size
      obtain ⟨r, hr⟩ : 2 ^ (j + 1) ∣ q :=
        Nat.dvd_trans (pow_dvd_pow 2 (by omega)) (Nat.dvd_of_mod_eq_zero hq)
      rw [Nat.pow_succ, Nat.mul_assoc] at hr
      have hle : m ≤ 2 * r := Nat.le_of_mul_le_mul_left (by omega) hpos
      have hlt : 2 * r < m + 2 := Nat.lt_of_mul_lt_mul_left (a := 2 ^ j) (by rw [Nat.mul_add]; omega)
      rcases (show m = 2 * r ∨ m + 1 = 2 * r by omega) with h | h
      · left
        have : b.addr = q := by rw [hm, hr, h]
        exact ⟨by omega, this ▸ hq⟩
      · right
        have : b.addr + b.size / 2 = q := by rw [hhalf, hm, hr, ← h, Nat.mul_add, Nat.mul_one]
        exact ⟨by omega, this ▸ hq⟩
  · rintro (⟨hs, hal⟩ | ⟨hs, hal⟩)
    · exact ⟨b.addr, le_rfl, by omega, hal⟩
    · exact ⟨b.addr + b.size / 2, by omega, by omega, hal⟩

def release (f : Block) (bs : List Block) : Option (List Block) :=
  match firstSplit (fun b => decide (f.addr < b.addr)) bs with
  | some (xs, b, ys) => some (xs ++ f :: b :: ys)
  | none => none

section
variable {f : Block} {bs bs' : List Block}

theorem release_some (h : release f bs = some bs') :
    ∃ xs b ys, bs = xs ++ b :: ys ∧ bs' = xs ++ f :: b :: ys ∧ f.addr < b.addr ∧
      ∀ c ∈ xs, c.addr ≤ f.addr := by
  unfold release at h
  split at h
  · rename_i xs b ys hs
    obtain ⟨hbs, hp, hxs⟩ := firstSplit_some hs
    cases h
    exact ⟨xs, b, ys, hbs, rfl, by simpa using hp, fun c hc => by simpa using hxs c hc⟩
  · cases h

/-- When a block can be put back. Some free block must lie above it. -/
theorem release_isSome : (∃ bs', release f bs = some bs') ↔ ∃ b ∈ bs, f.addr < b.addr := by
  unfold release
  cases hs : firstSplit (fun b => decide (f.addr < b.addr)) bs with
  | none =>
    have := firstSplit_none.mp hs
    simp only [decide_eq_false_iff_not] at this
    simp only [reduceCtorEq, exists_false, false_iff, not_exists, not_and]
    exact this
  | some t =>
    obtain ⟨xs, b, ys⟩ := t
    obtain ⟨rfl, hp, -⟩ := firstSplit_some hs
    simp only [Option.some.injEq, exists_eq', true_iff]
    exact ⟨b, by simp, by simpa using hp⟩

theorem release_perm (h : release f bs = some bs') : bs'.Perm (f :: bs) := by
  obtain ⟨xs, b, ys, rfl, rfl, -, -⟩ := release_some h
  exact List.perm_middle

theorem release_ordered (h : release f bs = some bs') (hbs : Ordered bs) (hf : 0 < f.size)
    (hpos : ∀ b ∈ bs, 0 < b.size) (hap : ∀ b ∈ bs, f.Apart b) : Ordered bs' := by
  obtain ⟨xs, b, ys, rfl, rfl, hlt, hxs⟩ := release_some h
  obtain ⟨hx, hy, hxy⟩ := ordered_append.mp hbs
  -- two blocks apart from each other are ordered as their addresses are
  have hbelow : ∀ c ∈ xs, c.addr + c.size ≤ f.addr := by
    intro c hc
    by_contra hlt'
    exact hap c (by simp [hc]) f.addr ⟨⟨by omega, by omega⟩, hxs c hc, by omega⟩
  have habove : ∀ c ∈ b :: ys, f.addr + f.size ≤ c.addr := by
    intro c hc
    have hbc : b.addr ≤ c.addr := by
      rcases List.mem_cons.mp hc with rfl | hc
      · exact le_rfl
      · have := (ordered_cons.mp hy).1 c hc; omega
    have hcpos := hpos c (List.mem_append_right _ hc)
    by_contra hlt'
    exact hap c (List.mem_append_right _ hc) c.addr ⟨⟨by omega, by omega⟩, le_rfl, by omega⟩
  refine ordered_append.mpr ⟨hx, ordered_cons.mpr ⟨habove, hy⟩, fun c hc d hd => ?_⟩
  rcases List.mem_cons.mp hd with rfl | hd
  · exact hbelow c hc
  · exact hxy c hc d hd

end

end Osymandias
