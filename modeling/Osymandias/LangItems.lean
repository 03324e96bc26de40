import Osymandias.Bytes

/-!
# `memcpy`, `memmove`, `memset` and `memcmp`

The four functions the bootloader gives the compiler, from
`bootloader/src/lang_items.rs`. Addresses are 64-bit and `offset` wraps; a
buffer is `Fits` when it does not reach past the end of the address space, as
no object of the language does.
-/

namespace Osymandias

namespace LangItems

abbrev Pointer := BitVec 64

abbrev Usize := BitVec 64

abbrev Memory := Pointer → UInt8

/-- `p.offset(i as isize)`. -/
def offset (p : Pointer) (i : Nat) : Pointer := p + BitVec.ofNat 64 i

def copyByte (dest src : Pointer) (m : Memory) (i : Nat) : Memory :=
  Function.update m (offset dest i) (m (offset src i))

def memcpy (m : Memory) (dest src : Pointer) (n : Usize) : Pointer × Memory :=
  (dest, (List.range n.toNat).foldl (copyByte dest src) m)

def memmove (m : Memory) (dest src : Pointer) (n : Usize) : Pointer × Memory :=
  if src < dest then (dest, (List.range n.toNat).reverse.foldl (copyByte dest src) m)
  else (dest, (List.range n.toNat).foldl (copyByte dest src) m)

def memset (m : Memory) (s : Pointer) (c : BitVec 32) (n : Usize) : Pointer × Memory :=
  (s, (List.range n.toNat).foldl (fun m i => Function.update m (offset s i) (UInt8.ofNat c.toNat)) m)

/-- The loop of `memcmp` from `i` on, with `rounds` of it left before `i` is `n`. -/
def memcmpFrom (m : Memory) (s1 s2 : Pointer) : (rounds i : Nat) → Int
  | 0, _ => 0
  | rounds + 1, i =>
    let a := m (offset s1 i)
    let b := m (offset s2 i)
    if a ≠ b then (a.toNat : Int) - b.toNat
    else memcmpFrom m s1 s2 rounds (i + 1)

def memcmp (m : Memory) (s1 s2 : Pointer) (n : Usize) : Int := memcmpFrom m s1 s2 n.toNat 0

/-! ## Buffers -/

def Fits (p : Pointer) (n : Usize) : Prop := p.toNat + n.toNat ≤ 2 ^ 64

instance (p : Pointer) (n : Usize) : Decidable (Fits p n) := inferInstanceAs (Decidable (_ ≤ _))

def index (p a : Pointer) : Nat := (a - p).toNat

def bytes (m : Memory) (p : Pointer) (n : Nat) : List UInt8 := (List.range n).map fun i => m (offset p i)

theorem offset_index (p a : Pointer) : offset p (index p a) = a := by
  unfold offset index
  rw [BitVec.ofNat_toNat, BitVec.setWidth_eq, BitVec.add_comm, BitVec.sub_add_cancel]

theorem index_offset (p : Pointer) {i : Nat} (h : i < 2 ^ 64) : index p (offset p i) = i := by
  unfold offset index
  rw [BitVec.add_comm, BitVec.add_sub_cancel, BitVec.toNat_ofNat, Nat.mod_eq_of_lt h]

theorem offset_eq_iff (p a : Pointer) {i : Nat} (h : i < 2 ^ 64) : a = offset p i ↔ index p a = i := by
  constructor
  · rintro rfl
    exact index_offset p h
  · rintro rfl
    exact (offset_index p a).symm

theorem index_lt (p a : Pointer) : index p a < 2 ^ 64 := (a - p).isLt

theorem index_offset_other (dest src : Pointer) {k : Nat} (hk : k < 2 ^ 64) : index dest (offset src k) =
    if index src dest ≤ k then k - index src dest else 2 ^ 64 - index src dest + k := by
  unfold index offset
  simp only [BitVec.toNat_sub, BitVec.toNat_add, BitVec.toNat_ofNat]
  split <;> omega

/-! ## Copying upwards -/

/-- Copying from the first byte on. The byte `i` of the destination is the
byte `i` of the source, modulo the distance from the source to the
destination: a copy into the middle of the source repeats its beginning. -/
theorem foldl_copyByte (dest src : Pointer) (m : Memory) : ∀ {n : Nat}, n ≤ 2 ^ 64 →
    (List.range n).foldl (copyByte dest src) m =
      fun a => if index dest a < n then m (offset src (index dest a % index src dest)) else m a
  | 0, _ => by simp
  | n + 1, hn => by
    have hlt : n < 2 ^ 64 := hn
    rw [List.range_succ, List.foldl_append, foldl_copyByte dest src m hlt.le]
    funext a
    simp only [List.foldl_cons, List.foldl_nil, copyByte, Function.update_apply, offset_eq_iff dest a hlt,
      index_offset_other dest src hlt]
    by_cases ha : index dest a = n
    · rw [if_pos ha, ha, if_pos (Nat.lt_succ_self n)]
      -- The byte of the source that is read may have been written by an earlier round.
      by_cases hd : index src dest ≤ n
      · by_cases hz : index src dest = 0
        · rw [hz, if_pos (Nat.zero_le n), Nat.sub_zero, if_neg (Nat.lt_irrefl n), Nat.mod_zero]
        · rw [if_pos hd, if_pos (by omega), Nat.mod_eq_sub_mod hd]
      · have hdl := index_lt src dest
        rw [if_neg hd, if_neg (by omega), Nat.mod_eq_of_lt (by omega)]
    · have hiff : index dest a < n + 1 ↔ index dest a < n := by omega
      simp only [if_neg ha, hiff]

/-! ## Copying downwards -/

theorem foldl_reverse_copyByte (dest src : Pointer) (hlt : src < dest) : ∀ {n : Nat} (m : Memory),
    dest.toNat + n ≤ 2 ^ 64 → (List.range n).reverse.foldl (copyByte dest src) m =
      fun a => if index dest a < n then m (offset src (index dest a)) else m a
  | 0, m, _ => by simp
  | n + 1, m, hn => by
    have hn64 : n < 2 ^ 64 := by omega
    rw [List.range_succ, List.reverse_append, List.reverse_singleton, List.singleton_append, List.foldl_cons,
      foldl_reverse_copyByte dest src hlt _ (by omega)]
    funext a
    by_cases ha : index dest a < n
    · -- What is left of the source stands below the byte just written.
      have hne : index dest (offset src (index dest a)) ≠ n := by
        have hsd : index src dest = dest.toNat - src.toNat := by
          unfold index
          bv_omega
        have hlt' : src.toNat < dest.toNat := hlt
        rw [index_offset_other dest src (index_lt dest a), hsd]
        split <;> omega
      rw [if_pos ha, if_pos (by omega)]
      simp only [copyByte, Function.update_apply, offset_eq_iff dest _ hn64, if_neg hne]
    · rw [if_neg ha]
      simp only [copyByte, Function.update_apply, offset_eq_iff dest a hn64]
      by_cases hea : index dest a = n
      · rw [if_pos hea, hea, if_pos (Nat.lt_succ_self n)]
      · rw [if_neg hea, if_neg (by omega)]

/-! ## The four functions -/

def moved (m : Memory) (dest src : Pointer) (n : Nat) : Memory :=
  fun a => if index dest a < n then m (offset src (index dest a)) else m a

theorem bytes_moved (m : Memory) (dest src : Pointer) {n : Nat} (hn : n ≤ 2 ^ 64) :
    bytes (moved m dest src n) dest n = bytes m src n := by
  unfold bytes
  apply List.map_congr_left
  intro i hi
  have hin : i < n := List.mem_range.mp hi
  simp only [moved, index_offset dest (show i < 2 ^ 64 by omega), if_pos hin]

theorem mod_index_of_not_overlapping {dest src : Pointer} {n : Usize} (hsrc : Fits src n)
    (h : ¬ (src < dest ∧ dest.toNat < src.toNat + n.toNat)) {i : Nat} (hi : i < n.toNat) :
    i % index src dest = i := by
  by_cases hz : index src dest = 0
  · rw [hz, Nat.mod_zero]
  · have hn : n.toNat ≤ index src dest := by
      unfold Fits at hsrc
      unfold index at hz ⊢
      simp only [BitVec.lt_def, BitVec.toNat_sub] at h hz ⊢
      omega
    exact Nat.mod_eq_of_lt (by omega)

theorem memcpy_snd_apply (m : Memory) (dest src : Pointer) (n : Usize) (a : Pointer) : (memcpy m dest src n).2 a =
    if index dest a < n.toNat then m (offset src (index dest a % index src dest)) else m a := by
  rw [memcpy, foldl_copyByte dest src m n.isLt.le]

theorem memcpy_snd_eq_moved (m : Memory) {dest src : Pointer} {n : Usize} (hsrc : Fits src n)
    (h : ¬ (src < dest ∧ dest.toNat < src.toNat + n.toNat)) :
    (memcpy m dest src n).2 = moved m dest src n.toNat := by
  funext a
  rw [memcpy_snd_apply]
  unfold moved
  by_cases ha : index dest a < n.toNat
  · rw [if_pos ha, if_pos ha, mod_index_of_not_overlapping hsrc h ha]
  · rw [if_neg ha, if_neg ha]

theorem memmove_eq_moved (m : Memory) {dest src : Pointer} {n : Usize} (hdest : Fits dest n) (hsrc : Fits src n) :
    memmove m dest src n = (dest, moved m dest src n.toNat) := by
  unfold memmove
  by_cases hlt : src < dest
  · rw [if_pos hlt, foldl_reverse_copyByte dest src hlt m hdest]
    rfl
  · have hcpy : (memcpy m dest src n).2 = _ := memcpy_snd_eq_moved m hsrc fun h => hlt h.1
    rw [if_neg hlt, ← hcpy]
    rfl

/-- **`memmove` copies, however the buffers overlap.** Afterwards the
destination holds the bytes the source held before, and every byte outside the
destination is as it was. -/
theorem memmove_copies (m : Memory) (dest src : Pointer) (n : Usize) (hdest : Fits dest n) (hsrc : Fits src n) :
    (memmove m dest src n).1 = dest ∧
      bytes (memmove m dest src n).2 dest n.toNat = bytes m src n.toNat ∧
      ∀ a, n.toNat ≤ index dest a → (memmove m dest src n).2 a = m a := by
  rw [memmove_eq_moved m hdest hsrc]
  refine ⟨rfl, bytes_moved m dest src n.isLt.le, ?_⟩
  intro a ha
  exact if_neg (Nat.not_lt.mpr ha)

theorem memmove_copies_overlapping : bytes (memmove (fun a => UInt8.ofNat a.toNat) 17#64 16#64 3#64).2 17#64 3 =
    [16, 17, 18] :=
  (memmove_copies (fun a => UInt8.ofNat a.toNat) 17#64 16#64 3#64 (by decide +kernel) (by decide +kernel)).2.1.trans
    (by decide +kernel)

/-- What `memcpy` does. It copies like `memmove`, whatever the memory
holds, exactly when the destination does not begin inside the source; where it
does, the bytes of the source before the destination are repeated. -/
theorem memcpy_repeats (dest src : Pointer) (n : Usize) (hdest : Fits dest n) (hsrc : Fits src n) :
    (∀ m a, (memcpy m dest src n).2 a =
      if index dest a < n.toNat then m (offset src (index dest a % index src dest)) else m a) ∧
    ((∀ m, memcpy m dest src n = memmove m dest src n) ↔ ¬ (src < dest ∧ dest.toNat < src.toNat + n.toNat)) := by
  constructor
  · intro m a
    exact memcpy_snd_apply m dest src n a
  constructor
  · intro hall hover
    -- A memory that tells the first byte of the source from the first of the destination.
    have h := congrArg (fun r => r.2 (offset dest (index src dest))) (hall (Function.update (fun _ => 0) dest 1))
    have hd : index src dest = dest.toNat - src.toNat := by
      unfold index
      have hlt := hover.1
      bv_omega
    have hlt : src.toNat < dest.toNat := hover.1
    have hin : index src dest < n.toNat := by omega
    have hne : src ≠ dest := fun e => by simp [e] at hlt
    rw [memmove_eq_moved _ hdest hsrc] at h
    simp only [memcpy_snd_apply, moved, index_offset dest (index_lt src dest), if_pos hin, Nat.mod_self,
      offset_index] at h
    simp [offset, hne] at h
  · intro h m
    rw [memmove_eq_moved m hdest hsrc, ← memcpy_snd_eq_moved m hsrc h]
    rfl

theorem memcpy_repeats_overlapping : ¬ ∀ m, memcpy m 17#64 16#64 3#64 = memmove m 17#64 16#64 3#64 :=
  fun h => (memcpy_repeats 17#64 16#64 3#64 (by decide +kernel) (by decide +kernel)).2.mp h (by decide +kernel)

theorem memset_spec (m : Memory) (s : Pointer) (c : BitVec 32) (n : Usize) : memset m s c n =
    (s, fun a => if index s a < n.toNat then UInt8.ofNat c.toNat else m a) := by
  have hloop : ∀ k : Nat, k ≤ 2 ^ 64 →
      (List.range k).foldl (fun m i => Function.update m (offset s i) (UInt8.ofNat c.toNat)) m =
        fun a => if index s a < k then UInt8.ofNat c.toNat else m a := by
    intro k
    induction k with
    | zero => intro _; simp
    | succ k ih =>
      intro hk
      rw [List.range_succ, List.foldl_append, ih (by omega)]
      funext a
      simp only [List.foldl_cons, List.foldl_nil, Function.update_apply,
        offset_eq_iff s a (show k < 2 ^ 64 by omega)]
      by_cases ha : index s a = k
      · rw [if_pos ha, if_pos (by omega)]
      · have hiff : index s a < k + 1 ↔ index s a < k := by omega
        simp only [if_neg ha, hiff]
  rw [memset, hloop n.toNat n.isLt.le]

/-! ## Comparison -/

theorem bytes_succ (m : Memory) (p : Pointer) (i n : Nat) :
    (List.range (n + 1)).map (fun j => m (offset p (i + j))) =
    m (offset p i) :: (List.range n).map fun j => m (offset p (i + 1 + j)) := by
  rw [List.range_succ_eq_map, List.map_cons, List.map_map, Nat.add_zero]
  congr 1
  apply List.map_congr_left
  intro j _
  simp only [Function.comp_apply, Nat.succ_eq_add_one, Nat.add_right_comm i 1 j, Nat.add_assoc i j 1]

theorem memcmpFrom_spec (m : Memory) (s1 s2 : Pointer) : ∀ (rounds i : Nat),
    let xs := (List.range rounds).map fun j => m (offset s1 (i + j))
    let ys := (List.range rounds).map fun j => m (offset s2 (i + j))
    (memcmpFrom m s1 s2 rounds i < 0 ↔ xs < ys) ∧ (memcmpFrom m s1 s2 rounds i = 0 ↔ xs = ys) ∧
      |memcmpFrom m s1 s2 rounds i| ≤ 255
  | 0, i => by simp [memcmpFrom]
  | rounds + 1, i => by
    have ih := memcmpFrom_spec m s1 s2 rounds (i + 1)
    simp only [bytes_succ, memcmpFrom, List.cons_lt_cons_iff, List.cons.injEq]
    by_cases hab : m (offset s1 i) = m (offset s2 i)
    · simpa [hab] using ih
    · have ha := (m (offset s1 i)).toNat_lt
      have hb := (m (offset s2 i)).toNat_lt
      have hne : (m (offset s1 i)).toNat ≠ (m (offset s2 i)).toNat := fun e => hab (UInt8.toNat_inj.mp e)
      rw [if_pos hab]
      refine ⟨?_, ?_, ?_⟩
      · simp only [hab, false_and, or_false, UInt8.lt_iff_toNat_lt]
        omega
      · simp only [hab, false_and, iff_false]
        omega
      · rw [abs_le]
        omega

theorem memcmpFrom_comm (m : Memory) (s1 s2 : Pointer) : ∀ (rounds i : Nat),
    memcmpFrom m s2 s1 rounds i = - memcmpFrom m s1 s2 rounds i
  | 0, _ => rfl
  | rounds + 1, i => by
    have ih := memcmpFrom_comm m s1 s2 rounds (i + 1)
    by_cases hab : m (offset s1 i) = m (offset s2 i)
    · simpa [memcmpFrom, hab] using ih
    · simp [memcmpFrom, hab, Ne.symm hab]

/-- The sign of `memcmp` is the order of the two buffers as words over the bytes. -/
theorem memcmp_lexicographic (m : Memory) (s1 s2 : Pointer) (n : Usize) :
    (memcmp m s1 s2 n < 0 ↔ bytes m s1 n.toNat < bytes m s2 n.toNat) ∧
      (memcmp m s1 s2 n = 0 ↔ bytes m s1 n.toNat = bytes m s2 n.toNat) ∧
      (0 < memcmp m s1 s2 n ↔ bytes m s2 n.toNat < bytes m s1 n.toNat) ∧
      |memcmp m s1 s2 n| ≤ 255 := by
  have hspec := memcmpFrom_spec m s1 s2 n.toNat 0
  have hspec' := memcmpFrom_spec m s2 s1 n.toNat 0
  simp only [Nat.zero_add] at hspec hspec'
  obtain ⟨hlt, heq, habs⟩ := hspec
  refine ⟨hlt, heq, ?_, habs⟩
  have hcomm := memcmpFrom_comm m s1 s2 n.toNat 0
  have hpos : 0 < memcmp m s1 s2 n ↔ memcmpFrom m s2 s1 n.toNat 0 < 0 := by
    unfold memcmp
    omega
  exact hpos.trans hspec'.1

end LangItems

end Osymandias
