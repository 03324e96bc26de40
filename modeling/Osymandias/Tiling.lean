import Mathlib

/-!
# Blocks of addresses and tilings

`cover bs x` counts the blocks of `bs` that contain the address `x`. Cutting,
joining and moving blocks leave the counts alone, so a tiling (every address of
an interval counted once, every other not at all) survives any order of them.
-/

namespace Tiling

structure Block where
  addr : Nat
  size : Nat
  deriving DecidableEq, Repr

def Block.Has (b : Block) (x : Nat) : Prop := b.addr ≤ x ∧ x < b.addr + b.size

instance (b : Block) (x : Nat) : Decidable (b.Has x) := inferInstanceAs (Decidable (_ ∧ _))

def Block.Apart (b c : Block) : Prop := ∀ x, ¬ (b.Has x ∧ c.Has x)

def cover (bs : List Block) (x : Nat) : Nat := bs.countP fun b => decide (b.Has x)

def Separate (bs : List Block) : Prop := bs.Pairwise Block.Apart

def Ordered (bs : List Block) : Prop := bs.Pairwise fun b c => b.addr + b.size ≤ c.addr

/-- The blocks lie one behind another from `lo` to `hi`. -/
def Consecutive (hi : Nat) : Nat → List Block → Prop
  | lo, [] => lo = hi
  | lo, b :: bs => b.addr = lo ∧ 0 < b.size ∧ Consecutive hi (b.addr + b.size) bs

def Tiles (bs : List Block) (lo hi : Nat) : Prop := ∀ x, cover bs x = if lo ≤ x ∧ x < hi then 1 else 0

def total (bs : List Block) : Nat := (bs.map Block.size).sum

/-! ## Counting -/

section
variable {b : Block} {bs cs : List Block} {x lo hi : Nat}

@[simp] theorem cover_nil : cover [] x = 0 := rfl

@[simp] theorem cover_cons : cover (b :: bs) x = cover bs x + if b.Has x then 1 else 0 := by
  simp [cover, List.countP_cons]

@[simp] theorem cover_append : cover (bs ++ cs) x = cover bs x + cover cs x := List.countP_append ..

theorem cover_perm (h : bs.Perm cs) : cover bs x = cover cs x := h.countP_eq _

theorem cover_pos : 0 < cover bs x ↔ ∃ b ∈ bs, b.Has x := by
  simp [cover, List.countP_pos_iff]

theorem cover_flatMap {f : Block → List Block} (hf : ∀ b ∈ bs, ∀ x, cover (f b) x = cover [b] x) :
    cover (bs.flatMap f) x = cover bs x := by
  induction bs with
  | nil => rfl
  | cons b bs ih =>
    rw [List.flatMap_cons, cover_append, hf b (by simp), ih fun c hc => hf c (by simp [hc])]
    simp [Nat.add_comm]

theorem cover_cut {c : Nat} (h₁ : b.addr ≤ c) (h₂ : c ≤ b.addr + b.size) :
    cover [⟨b.addr, c - b.addr⟩, ⟨c, b.addr + b.size - c⟩] x = cover [b] x := by
  have hiff : b.Has x ↔ Block.Has ⟨b.addr, c - b.addr⟩ x ∨ Block.Has ⟨c, b.addr + b.size - c⟩ x := by
    simp only [Block.Has]; omega
  have hnot : ¬ (Block.Has ⟨b.addr, c - b.addr⟩ x ∧ Block.Has ⟨c, b.addr + b.size - c⟩ x) := by
    simp only [Block.Has]; omega
  simp only [cover_cons, cover_nil, hiff]
  by_cases h : Block.Has ⟨b.addr, c - b.addr⟩ x
  · have hc : ¬ Block.Has ⟨c, b.addr + b.size - c⟩ x := fun hc => hnot ⟨h, hc⟩
    simp [h, hc]
  · simp [h]

theorem apart_of_cover (h : cover (b :: bs) x ≤ 1) (hb : b.Has x) : ∀ c ∈ bs, ¬ c.Has x := by
  intro c hc hcx
  have := cover_pos.mpr ⟨c, hc, hcx⟩
  rw [cover_cons, if_pos hb] at h
  omega

theorem pairwise_apart : ∀ {bs : List Block}, (∀ x, cover bs x ≤ 1) → Separate bs
  | [], _ => .nil
  | b :: bs, h => by
    refine .cons (fun c hc x hx => apart_of_cover (h x) hx.1 c hc hx.2) (pairwise_apart fun x => ?_)
    have := h x
    rw [cover_cons] at this
    omega

theorem Tiles.le_one (h : Tiles bs lo hi) (x : Nat) : cover bs x ≤ 1 := by
  rw [h x]; split_ifs <;> omega

theorem Tiles.mem_iff (h : Tiles bs lo hi) (x : Nat) : (∃ b ∈ bs, b.Has x) ↔ lo ≤ x ∧ x < hi := by
  rw [← cover_pos, h x]
  split_ifs with hx <;> simp [hx]

theorem Tiles.within (h : Tiles bs lo hi) (hb : b ∈ bs) (hs : 0 < b.size) :
    lo ≤ b.addr ∧ b.addr + b.size ≤ hi := by
  have h₁ := (h.mem_iff b.addr).mp ⟨b, hb, by constructor <;> omega⟩
  have h₂ := (h.mem_iff (b.addr + b.size - 1)).mp ⟨b, hb, by constructor <;> omega⟩
  omega

end

/-! ## Order -/

section
variable {b : Block} {bs xs ys : List Block} {x : Nat}

theorem ordered_append : Ordered (xs ++ ys) ↔
    Ordered xs ∧ Ordered ys ∧ ∀ b ∈ xs, ∀ c ∈ ys, b.addr + b.size ≤ c.addr := List.pairwise_append

theorem ordered_cons : Ordered (b :: bs) ↔ (∀ c ∈ bs, b.addr + b.size ≤ c.addr) ∧ Ordered bs :=
  List.pairwise_cons

theorem Ordered.replace {zs : List Block} (h : Ordered (xs ++ b :: ys)) (hz : Ordered zs)
    (hin : ∀ c ∈ zs, b.addr ≤ c.addr ∧ c.addr + c.size ≤ b.addr + b.size) : Ordered (xs ++ zs ++ ys) := by
  obtain ⟨hx, hy, hxy⟩ := ordered_append.mp h
  obtain ⟨hby, hy⟩ := ordered_cons.mp hy
  refine ordered_append.mpr ⟨ordered_append.mpr ⟨hx, hz, ?_⟩, hy, ?_⟩
  · intro a ha c hc
    have := hxy a ha b (by simp)
    have := (hin c hc).1
    omega
  · intro a ha c hc
    rcases List.mem_append.mp ha with ha | ha
    · exact hxy a ha c (by simp [hc])
    · have := (hin a ha).2
      have := hby c hc
      omega

theorem Ordered.rest {n : Nat} (h : Ordered (xs ++ b :: ys)) (hn : n ≤ b.size) :
    Ordered (xs ++ ⟨b.addr + n, b.size - n⟩ :: ys) := by
  have hpart : Ordered [⟨b.addr + n, b.size - n⟩] := List.pairwise_singleton ..
  simpa using h.replace hpart (by simp; omega)

/-! ## Parts of a block in its place -/

theorem Block.Has.of_part {c : Block} (h : c.Has x) (hlo : b.addr ≤ c.addr)
    (hhi : c.addr + c.size ≤ b.addr + b.size) : b.Has x := by
  obtain ⟨h₁, h₂⟩ := h
  constructor <;> omega

theorem Block.Apart.symm {c : Block} (h : b.Apart c) : c.Apart b := by
  intro x hx
  exact h x ⟨hx.2, hx.1⟩

theorem Ordered.separate (h : Ordered bs) : Separate bs := by
  apply h.imp
  intro b c hbc x hx
  obtain ⟨⟨-, h₁⟩, h₂, -⟩ := hx
  omega

theorem separate_append : Separate (xs ++ ys) ↔
    Separate xs ∧ Separate ys ∧ ∀ b ∈ xs, ∀ c ∈ ys, b.Apart c := List.pairwise_append

theorem separate_cons : Separate (b :: bs) ↔ (∀ c ∈ bs, b.Apart c) ∧ Separate bs := List.pairwise_cons

theorem Separate.apart_middle (h : Separate (xs ++ b :: ys)) : ∀ c ∈ xs ++ ys, c.Apart b := by
  intro c hc
  obtain ⟨-, hy, hxy⟩ := separate_append.mp h
  rcases List.mem_append.mp hc with hc | hc
  · exact hxy c hc b List.mem_cons_self
  · exact ((separate_cons.mp hy).1 c hc).symm

theorem Separate.replace {zs : List Block} (h : Separate (xs ++ b :: ys)) (hz : Separate zs)
    (hin : ∀ c ∈ zs, b.addr ≤ c.addr ∧ c.addr + c.size ≤ b.addr + b.size) : Separate (xs ++ (zs ++ ys)) := by
  have hmid := h.apart_middle
  obtain ⟨hx, hy, hxy⟩ := separate_append.mp h
  have hpart : ∀ a ∈ xs ++ ys, ∀ c ∈ zs, a.Apart c := by
    intro a ha c hc x hax
    exact hmid a ha x ⟨hax.1, hax.2.of_part (hin c hc).1 (hin c hc).2⟩
  refine separate_append.mpr ⟨hx, separate_append.mpr ⟨hz, (separate_cons.mp hy).2, ?_⟩, ?_⟩
  · intro c hc a ha
    exact (hpart a (List.mem_append_right xs ha) c hc).symm
  · intro a ha c hc
    rcases List.mem_append.mp hc with hc | hc
    · exact hpart a (List.mem_append_left ys ha) c hc
    · exact hxy a ha c (List.mem_cons_of_mem b hc)

theorem Separate.cut {c : Nat} (h : Separate (xs ++ b :: ys)) (hlo : b.addr ≤ c) (hhi : c ≤ b.addr + b.size) :
    Separate (xs ++ ⟨b.addr, c - b.addr⟩ :: ⟨c, b.addr + b.size - c⟩ :: ys) := by
  have hparts : Ordered [⟨b.addr, c - b.addr⟩, ⟨c, b.addr + b.size - c⟩] :=
    ordered_cons.mpr ⟨by simp; omega, List.pairwise_singleton ..⟩
  exact h.replace hparts.separate (by simp; omega)

theorem consecutive_append {mid hi : Nat} : ∀ {xs : List Block} {lo : Nat}, Consecutive mid lo xs →
    Consecutive hi mid ys → Consecutive hi lo (xs ++ ys)
  | [], _, h, hy => by
    cases h
    exact hy
  | _ :: _, _, ⟨ha, hs, h⟩, hy => ⟨ha, hs, consecutive_append h hy⟩

theorem forall_mem_replace (zs : List Block) {P : Block → Prop} (h : ∀ d ∈ xs ++ b :: ys, P d)
    (hz : ∀ d ∈ zs, P d) : ∀ d ∈ xs ++ (zs ++ ys), P d := by
  intro d hd
  rcases List.mem_append.mp hd with hd | hd
  · exact h d (by simp [hd])
  · rcases List.mem_append.mp hd with hd | hd
    · exact hz d hd
    · exact h d (by simp [hd])

@[simp] theorem total_nil : total [] = 0 := rfl

@[simp] theorem total_cons : total (b :: bs) = b.size + total bs := by simp [total]

@[simp] theorem total_append : total (xs ++ ys) = total xs + total ys := by simp [total]

end

/-! ## The first block with a property -/

def firstSplit {α : Type} (p : α → Bool) : List α → Option (List α × α × List α)
  | [] => none
  | a :: as => if p a then some ([], a, as) else (firstSplit p as).map fun (xs, c, ys) => (a :: xs, c, ys)

section
variable {α : Type} {p : α → Bool}

theorem firstSplit_some : ∀ {as xs ys : List α} {a : α}, firstSplit p as = some (xs, a, ys) →
    as = xs ++ a :: ys ∧ p a = true ∧ ∀ c ∈ xs, p c = false
  | [], _, _, _, h => by cases h
  | c :: as, xs, ys, a, h => by
    rw [firstSplit] at h
    by_cases hc : p c = true
    · rw [if_pos hc] at h
      cases h
      exact ⟨rfl, hc, by simp⟩
    · rw [if_neg hc] at h
      obtain ⟨⟨xs', c', ys'⟩, h', he⟩ := Option.map_eq_some_iff.mp h
      cases he
      obtain ⟨rfl, ha, hxs⟩ := firstSplit_some h'
      refine ⟨rfl, ha, fun d hd => ?_⟩
      rcases List.mem_cons.mp hd with rfl | hd
      · simpa using hc
      · exact hxs d hd

theorem firstSplit_none : ∀ {as : List α}, firstSplit p as = none ↔ ∀ c ∈ as, p c = false
  | [] => by simp [firstSplit]
  | a :: as => by
    rw [firstSplit]
    by_cases ha : p a = true
    · simp [ha]
    · have ih := @firstSplit_none as
      simp [ha, ih]

end

end Tiling
