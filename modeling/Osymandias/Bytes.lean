import Mathlib

/-!
# Byte memories and little-endian words

A memory is a function from addresses to bytes. The addresses are any type
with a successor `a + 1`: the naturals for a bounded region, the bit vectors
for a machine whose addresses wrap around. A word of `n` bytes at `a` occupies
`cells a n`, and every fact about reads and writes is about those cells.
-/

namespace Bytes

section
variable {A : Type} [Add A] [One A]

def cells (a : A) : Nat → List A
  | 0 => []
  | n + 1 => a :: cells (a + 1) n

/-- The little-endian word of `n` bytes at `a`. -/
def read (m : A → UInt8) (a : A) : Nat → Nat
  | 0 => 0
  | n + 1 => (m a).toNat + 256 * read m (a + 1) n

def write [DecidableEq A] (m : A → UInt8) (a : A) : Nat → Nat → A → UInt8
  | 0, _ => m
  | n + 1, v => fun b => if b = a then UInt8.ofNat v else write m (a + 1) n (v / 256) b

theorem read_lt (m : A → UInt8) : ∀ (n : Nat) (a : A), read m a n < 256 ^ n
  | 0, _ => by simp [read]
  | n + 1, a => by
    have ih := read_lt m n (a + 1)
    have hb := (m a).toNat_lt
    rw [read, Nat.pow_succ]
    omega

theorem read_congr {m m' : A → UInt8} : ∀ (n : Nat) (a : A), (∀ b ∈ cells a n, m b = m' b) →
    read m a n = read m' a n
  | 0, _, _ => rfl
  | n + 1, a, h => by
    rw [read, read, h a (by simp [cells]), read_congr n (a + 1) fun b hb => h b (by simp [cells, hb])]

variable [DecidableEq A]

theorem write_of_not_mem (m : A → UInt8) : ∀ (n : Nat) (a : A) (v : Nat) {b : A}, b ∉ cells a n →
    write m a n v b = m b
  | 0, _, _, _, _ => rfl
  | n + 1, a, v, b, h => by
    simp only [cells, List.mem_cons, not_or] at h
    simp only [write, if_neg h.1]
    exact write_of_not_mem m n (a + 1) (v / 256) h.2

theorem read_write_self (m : A → UInt8) : ∀ (n : Nat) (a : A) (v : Nat), (cells a n).Nodup →
    read (write m a n v) a n = v % 256 ^ n
  | 0, _, v, _ => by simp [read, Nat.mod_one]
  | n + 1, a, v, h => by
    simp only [cells, List.nodup_cons] at h
    have htail : read (write m a (n + 1) v) (a + 1) n = read (write m (a + 1) n (v / 256)) (a + 1) n :=
      read_congr n (a + 1) fun b hb => by
        have hne : b ≠ a := fun e => h.1 (e ▸ hb)
        simp only [write, if_neg hne]
    rw [read, htail, read_write_self m n (a + 1) (v / 256) h.2]
    simp only [write, if_true, UInt8.toNat_ofNat']
    rw [Nat.pow_succ 256, Nat.mul_comm (256 ^ n), Nat.mod_mul]

theorem read_write_of_disjoint (m : A → UInt8) {n k : Nat} {a b : A} (v : Nat)
    (h : ∀ c ∈ cells a n, c ∉ cells b k) : read (write m b k v) a n = read m a n :=
  read_congr n a fun c hc => write_of_not_mem m k b v (h c hc)

end

/-! ## Natural addresses -/

theorem mem_cells : ∀ {n a b : Nat}, b ∈ cells a n ↔ a ≤ b ∧ b < a + n
  | 0, a, b => by simp [cells]
  | n + 1, a, b => by
    simp only [cells, List.mem_cons, mem_cells (n := n)]
    simp only [show (a + 1 : Nat) = a.succ from rfl]
    omega

theorem nodup_cells : ∀ (n a : Nat), (cells a n).Nodup
  | 0, _ => List.nodup_nil
  | n + 1, a => by
    refine List.nodup_cons.mpr ⟨fun h => ?_, nodup_cells n (a + 1)⟩
    have := (mem_cells.mp h).1
    exact absurd this (Nat.not_succ_le_self a)

/-! ## Wrapping addresses -/

section
variable {w : Nat}

theorem toNat_pred {d : BitVec w} (hd : d ≠ 0) : (d - 1).toNat = d.toNat - 1 := by
  have hpos : d.toNat ≠ 0 := fun e => hd (BitVec.eq_of_toNat_eq (by simpa using e))
  have hlt := d.isLt
  have hone : (1 : BitVec w).toNat = 1 := Nat.mod_eq_of_lt (show 1 < 2 ^ w by omega)
  rw [BitVec.toNat_sub_of_le (by rw [BitVec.le_def]; omega), hone]

theorem mem_cells_bv : ∀ {n : Nat} {a b : BitVec w}, n ≤ 2 ^ w →
    (b ∈ cells a n ↔ (b - a).toNat < n)
  | 0, a, b, _ => by simp [cells]
  | n + 1, a, b, h => by
    rw [cells, List.mem_cons, mem_cells_bv (n := n) (by omega), show b - (a + 1) = b - a - 1 by ring]
    by_cases hab : b = a
    · subst hab; simp
    · have hd : b - a ≠ 0 := fun e => hab (sub_eq_zero.mp e)
      have hpos : (b - a).toNat ≠ 0 := fun e => hd (BitVec.eq_of_toNat_eq (by simpa using e))
      rw [toNat_pred hd]
      simp only [hab, false_or]
      omega

theorem nodup_cells_bv : ∀ (n : Nat) (a : BitVec w), n ≤ 2 ^ w → (cells a n).Nodup
  | 0, _, _ => List.nodup_nil
  | n + 1, a, h => by
    refine List.nodup_cons.mpr ⟨fun hm => ?_, nodup_cells_bv n (a + 1) (by omega)⟩
    have hd := (mem_cells_bv (by omega)).mp hm
    have hlast : a - (a + 1) = -1#w := by ring_nf; rfl
    rw [hlast, BitVec.neg_one_eq_allOnes, BitVec.toNat_allOnes] at hd
    omega

/-- A machine whose memory is `mem` reads there what `mem` has, short of the end of the addresses. -/
theorem read_view {m : BitVec w → UInt8} {mem : Nat → UInt8} (h : ∀ a, m a = mem a.toNat) : ∀ {n a : Nat},
    a + n ≤ 2 ^ w → read m (.ofNat w a) n = read mem a n
  | 0, _, _ => rfl
  | n + 1, a, hle => by
    have hnext : BitVec.ofNat w a + 1 = .ofNat w (a + 1) := by
      rw [BitVec.ofNat_add]
      rfl
    rw [read, read, h, BitVec.toNat_ofNat, Nat.mod_eq_of_lt (by omega), hnext, read_view h (by omega)]

end

end Bytes
