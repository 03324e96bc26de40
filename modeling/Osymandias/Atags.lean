import Osymandias.LinkedList

/-!
# The ATAGS

`pi/src/atags`. The firmware leaves a sequence of tags in memory. Each starts
with its length in words and its id, and a tag with the id `NONE` ends the
sequence. `Atags` walks it; `Area` is what a well-formed sequence looks like.
-/

namespace Osymandias

open Fuel

def u32At (m : Memory) (a : Nat) : Nat := Bytes.read m a 4

/-! ## Raw tags -/

namespace Raw

structure Atag where
  ptr : Nat
  deriving DecidableEq, Repr

structure Core where
  flags : Nat
  pageSize : Nat
  rootDev : Nat
  deriving DecidableEq, Repr

structure Mem where
  size : Nat
  start : Nat
  deriving DecidableEq, Repr

namespace Atag

def NONE : Nat := 0x00000000
def CORE : Nat := 0x54410001
def MEM : Nat := 0x54410002
def CMDLINE : Nat := 0x54410009

def dwords (self : Atag) (m : Memory) : Nat := u32At m self.ptr

def tag (self : Atag) (m : Memory) : Nat := u32At m (self.ptr + 4)

def kind (self : Atag) : Nat := self.ptr + 8

def core (self : Atag) (m : Memory) : Core :=
  ⟨u32At m self.kind, u32At m (self.kind + 4), u32At m (self.kind + 8)⟩

def mem (self : Atag) (m : Memory) : Mem := ⟨u32At m self.kind, u32At m (self.kind + 4)⟩

def next (self : Atag) (m : Memory) : Option Atag :=
  if self.tag m = NONE then none else some ⟨self.ptr + 4 * self.dwords m⟩

end Atag

end Raw

/-! ## `str::from_utf8` -/

structure Utf8Error where
  validUpTo : Nat
  errorLen : Option Nat
  deriving DecidableEq, Repr

namespace Utf8Error

/-- How many bytes a character has that begins with `b`, none if no character does. -/
def width (b : UInt8) : Nat :=
  if b < 0x80 then 1
  else if b < 0xc2 then 0
  else if b < 0xe0 then 2
  else if b < 0xf0 then 3
  else if b < 0xf5 then 4
  else 0

def secondByte (b : UInt8) : UInt8 × UInt8 :=
  if b = 0xe0 then (0xa0, 0xbf)
  else if b = 0xed then (0x80, 0x9f)
  else if b = 0xf0 then (0x90, 0xbf)
  else if b = 0xf4 then (0x80, 0x8f)
  else (0x80, 0xbf)

def skip (bounds : UInt8 × UInt8) (start : Nat) : Nat → Nat → List UInt8 → Except Utf8Error (List UInt8)
  | _, 0, text => .ok text
  | _, _ + 1, [] => .error ⟨start, none⟩
  | read, n + 1, b :: text =>
    if bounds.1 ≤ b ∧ b ≤ bounds.2 then skip (0x80, 0xbf) start (read + 1) n text
    else .error ⟨start, some read⟩

def find : Nat → Nat → List UInt8 → Option Utf8Error
  | 0, _, _ => none
  | _, _, [] => none
  | fuel + 1, start, b :: text =>
    match width b with
    | 0 => some ⟨start, some 1⟩
    | n + 1 =>
      match skip (secondByte b) start 1 n text with
      | .ok text => find fuel (start + n + 1) text
      | .error error => some error

end Utf8Error

def utf8Debug (buf : List UInt8) : String :=
  match Utf8Error.find buf.length 0 buf with
  | some error => "Utf8Error \x7b valid_up_to: " ++ toString error.validUpTo ++ ", error_len: " ++
    (match error.errorLen with
      | some n => "Some(" ++ toString n ++ ")"
      | none => "None") ++ " \x7d"
  | none => ""

/-! ## Tags -/

inductive Atag where
  | core (core : Raw.Core)
  | mem (mem : Raw.Mem)
  | cmd (cmd : String)
  | unknown (id : Nat)
  | none
  deriving DecidableEq, Repr

namespace Atag

def fromMem (mem : Raw.Mem) : Atag := .mem mem

def fromCore (core : Raw.Core) : Atag := .core core

/-- `while *end != 0 { end = end.add(1) }` -/
def scanNul (m : Memory) : Nat → Nat → Except Fault Nat
  | 0, _ => .error .outOfFuel
  | fuel + 1, e => if m e ≠ 0 then scanNul m fuel (e + 1) else .ok e

def bytesAt (m : Memory) (start : Nat) : Nat → List UInt8
  | 0 => []
  | n + 1 => m start :: bytesAt m (start + 1) n

def fromCmd (fuel : Nat) (m : Memory) (start : Nat) : Except Fault Atag := do
  let e ← scanNul m fuel start
  let offset ← usizeSub e start
  let buf := bytesAt m start offset
  match String.fromUTF8? ⟨buf.toArray⟩ with
  | .some text => return .cmd text
  | .none => .error (.panic ("utf8 conversion failed: " ++ utf8Debug buf))

def «from» (fuel : Nat) (m : Memory) (atag : Raw.Atag) : Except Fault Atag :=
  if atag.tag m = Raw.Atag.CORE then .ok (fromCore (atag.core m))
  else if atag.tag m = Raw.Atag.MEM then .ok (fromMem (atag.mem m))
  else if atag.tag m = Raw.Atag.CMDLINE then fromCmd fuel m atag.kind
  else if atag.tag m = Raw.Atag.NONE then .ok .none
  else .ok (.unknown (atag.tag m))

end Atag

/-! ## The iterator -/

def ATAG_BASE : Nat := 0x100

structure Atags where
  ptr : Raw.Atag
  deriving DecidableEq, Repr

namespace Atags

def get : Atags := ⟨⟨ATAG_BASE⟩⟩

def next (fuel : Nat) (m : Memory) (self : Atags) : Except Fault (Option Atag × Atags) :=
  match self.ptr.next m with
  | none => .ok (none, self)
  | some raw => do
    let atag ← Atag.from fuel m raw
    return (some atag, ⟨raw⟩)

def collect (m : Memory) : Nat → Atags → Except Fault (List Atag)
  | 0, _ => .error .outOfFuel
  | fuel + 1, self => do
    match ← self.next (fuel + 1) m with
    | (none, _) => return []
    | (some atag, self') => return atag :: (← collect m fuel self')

end Atags

/-! ## Well-formed areas -/

/-- A command line: UTF-8 text without a NUL, and the NUL that ends it, in `n` bytes. -/
def CmdLine (m : Memory) (start n : Nat) : Prop :=
  ∃ len < n, (∀ i < len, m (start + i) ≠ 0) ∧ m (start + len) = 0 ∧
    ByteArray.IsValidUTF8 ⟨(Atag.bytesAt m start len).toArray⟩

structure WellFormed (m : Memory) (atag : Raw.Atag) : Prop where
  tag : atag.tag m ≠ Raw.Atag.NONE
  dwords : 2 ≤ atag.dwords m
  cmdline : atag.tag m = Raw.Atag.CMDLINE → CmdLine m atag.kind (4 * atag.dwords m - 8)

/-- `Area m p tags`: the tags lie one behind another from `p` on, and a `NONE` tag ends them. -/
def Area (m : Memory) : Raw.Atag → List Raw.Atag → Prop
  | p, [] => p.tag m = Raw.Atag.NONE
  | p, t :: ts => p = t ∧ WellFormed m t ∧ Area m ⟨t.ptr + 4 * t.dwords m⟩ ts

def Decodes (m : Memory) (tags : List Raw.Atag) (atags : List Atag) : Prop :=
  List.Forall₂ (fun t a => Yields (fun fuel => Atag.from fuel m t) a) tags atags

/-! ## Decoding -/

section
variable {m : Memory} {p q : Raw.Atag} {a : Atag}

theorem scanNul_spec : ∀ (len fuel start : Nat), (∀ i < len, m (start + i) ≠ 0) → m (start + len) = 0 →
    len < fuel → Atag.scanNul m fuel start = .ok (start + len)
  | _, 0, _, _, _, hf => absurd hf (Nat.not_lt_zero _)
  | 0, fuel + 1, start, _, hz, _ => by
    rw [Nat.add_zero] at hz ⊢
    unfold Atag.scanNul
    exact if_neg (not_not_intro hz)
  | len + 1, fuel + 1, start, hne, hz, hf => by
    unfold Atag.scanNul
    have h0 := hne 0 (Nat.succ_pos len)
    rw [Nat.add_zero] at h0
    rw [if_pos h0, scanNul_spec len fuel (start + 1)]
    · congr 1
      omega
    · intro i hi
      rw [Nat.add_assoc, Nat.add_comm 1 i]
      exact hne (i + 1) (Nat.succ_lt_succ hi)
    · rw [Nat.add_assoc, Nat.add_comm 1 len]
      exact hz
    · omega

theorem CmdLine.fromCmd {start n : Nat} (h : CmdLine m start n) :
    ∃ text, Yields (fun fuel => Atag.fromCmd fuel m start) (.cmd text) := by
  obtain ⟨len, -, hne, hz, hv⟩ := h
  refine ⟨String.fromUTF8 _ hv, len + 1, fun fuel hf => ?_⟩
  simp only [Atag.fromCmd, scanNul_spec len fuel start hne hz hf, bind, Except.bind, usizeSub, Nat.le_add_right,
    if_true, Nat.add_sub_cancel_left]
  unfold String.fromUTF8?
  rw [dif_pos hv]
  rfl

theorem WellFormed.decodes (h : WellFormed m p) : ∃ a, Yields (fun fuel => Atag.from fuel m p) a := by
  unfold Atag.from
  by_cases hc : p.tag m = Raw.Atag.CORE
  · exact ⟨_, 0, fun fuel _ => if_pos hc⟩
  by_cases hm : p.tag m = Raw.Atag.MEM
  · exact ⟨_, 0, fun fuel _ => (if_neg hc).trans (if_pos hm)⟩
  by_cases hl : p.tag m = Raw.Atag.CMDLINE
  · obtain ⟨text, n, hn⟩ := (h.cmdline hl).fromCmd
    exact ⟨_, n, fun fuel hf => (if_neg hc).trans ((if_neg hm).trans ((if_pos hl).trans (hn fuel hf)))⟩
  · exact ⟨_, 0, fun fuel _ => (if_neg hc).trans ((if_neg hm).trans ((if_neg hl).trans (if_neg h.tag)))⟩

theorem fromCmd_ok {fuel start : Nat} (h : Atag.fromCmd fuel m start = .ok a) : ∃ text, a = .cmd text := by
  obtain ⟨e, -, h⟩ := bind_ok h
  obtain ⟨offset, -, h⟩ := bind_ok h
  dsimp only at h
  cases hs : String.fromUTF8? ⟨(Atag.bytesAt m start offset).toArray⟩ <;> rw [hs] at h <;> cases h
  exact ⟨_, rfl⟩

theorem from_eq_none {fuel : Nat} (h : Atag.from fuel m p = .ok .none) : p.tag m = Raw.Atag.NONE := by
  unfold Atag.from at h
  split_ifs at h with h1 h2 h3 h4
  · cases h
  · cases h
  · obtain ⟨text, ht⟩ := fromCmd_ok h
    cases ht
  · exact h4
  · cases h

theorem from_none (h : p.tag m = Raw.Atag.NONE) (fuel : Nat) : Atag.from fuel m p = .ok .none := by
  unfold Atag.from
  rw [h]
  rfl

/-! ## The walk -/

theorem collect_stop (h : p.next m = none) : Yields (fun fuel => Atags.collect m fuel ⟨p⟩) [] := by
  refine ⟨1, fun fuel hf => ?_⟩
  obtain ⟨n, rfl⟩ := Nat.exists_eq_add_of_le' hf
  simp only [Atags.collect, Atags.next, h]
  rfl

theorem collect_step {l : List Atag} (h : p.next m = some q) (ha : Yields (fun fuel => Atag.from fuel m q) a)
    (hl : Yields (fun fuel => Atags.collect m fuel ⟨q⟩) l) :
    Yields (fun fuel => Atags.collect m fuel ⟨p⟩) (a :: l) := by
  obtain ⟨n, hn⟩ := ha
  obtain ⟨k, hk⟩ := hl
  refine ⟨max n k + 1, fun fuel hf => ?_⟩
  obtain ⟨j, rfl⟩ := Nat.exists_eq_add_of_le' (Nat.le_trans (Nat.le_add_left 1 _) hf)
  simp only [Atags.collect, Atags.next, h, hn (j + 1) (by omega), hk j (by omega), bind,
    Except.bind, pure, Except.pure]

end

section
variable {m : Memory}

theorem Area.decodes : ∀ {tags : List Raw.Atag} {p : Raw.Atag}, Area m p tags → ∃ atags, Decodes m tags atags
  | [], _, _ => ⟨[], .nil⟩
  | _ :: _, _, ⟨_, hw, h⟩ => by
    obtain ⟨a, ha⟩ := hw.decodes
    obtain ⟨as, has⟩ := h.decodes
    exact ⟨a :: as, .cons ha has⟩

theorem Area.ne_none : ∀ {tags : List Raw.Atag} {atags : List Atag} {p : Raw.Atag}, Area m p tags →
    Decodes m tags atags → ∀ a ∈ atags, a ≠ .none
  | [], _, _, _, .nil, _, ha => by cases ha
  | _ :: _, _, _, ⟨_, hw, h⟩, .cons hd hds, b, hb => by
    rcases List.mem_cons.mp hb with rfl | hb
    · rintro rfl
      obtain ⟨n, hn⟩ := hd
      exact hw.tag (from_eq_none (hn n (Nat.le_refl n)))
    · exact h.ne_none hds b hb

/-- The walk. From a tag of the area the iterator yields every later tag, and then `None`. -/
theorem Area.collect : ∀ {tags : List Raw.Atag} {atags : List Atag} {t : Raw.Atag}, Area m t (t :: tags) →
    Decodes m tags atags → Yields (fun fuel => Atags.collect m fuel ⟨t⟩) (atags ++ [.none])
  | [], _, t, ⟨_, hw, h⟩, .nil => by
    have hnext : t.next m = some ⟨t.ptr + 4 * t.dwords m⟩ := if_neg hw.tag
    refine collect_step hnext ⟨0, fun fuel _ => from_none h fuel⟩ (collect_stop ?_)
    exact if_pos h
  | _ :: _, _, t, ⟨_, hw, h⟩, .cons hd hds => by
    have hnext : t.next m = some ⟨t.ptr + 4 * t.dwords m⟩ := if_neg hw.tag
    obtain rfl := h.1
    exact collect_step hnext hd (h.collect hds)

/-- Termination. The walk over a well-formed area ends, and no tag of it panics. -/
theorem Area.terminates {tags : List Raw.Atag} (h : Area m Atags.get.ptr tags) :
    ∃ atags, Yields (fun fuel => Atags.get.collect m fuel) atags := by
  cases tags with
  | nil => exact ⟨[], collect_stop (if_pos h)⟩
  | cons t tags =>
    obtain rfl := h.1
    obtain ⟨atags, hd⟩ := h.2.2.decodes
    exact ⟨atags ++ [.none], h.collect hd⟩

end

/-- The iterator from `Atags::get()` yields every tag, and perhaps a last `None`. -/
def VisitsAll (m : Memory) (tags : List Raw.Atag) : Prop :=
  ∃ atags, Decodes m tags atags ∧ (Yields (fun fuel => Atags.get.collect m fuel) atags ∨
    Yields (fun fuel => Atags.get.collect m fuel) (atags ++ [.none]))

theorem Area.not_visitsAll {m : Memory} {t : Raw.Atag} {tags : List Raw.Atag}
    (h : Area m Atags.get.ptr (t :: tags)) : ¬ VisitsAll m (t :: tags) := by
  rintro ⟨atags, hd, hy⟩
  have hne := h.ne_none hd
  obtain rfl := h.1
  cases hd with
  | @cons _ a _ as ha hds =>
    have hw := h.collect hds
    rcases hy with hy | hy
    · have he : as ++ [.none] = a :: as := hw.unique hy
      have hm : Atag.none ∈ a :: as := he ▸ List.mem_append_right as List.mem_cons_self
      exact hne _ hm rfl
    · have he : as ++ [.none] = a :: as ++ [.none] := hw.unique hy
      have hl := congrArg List.length he
      simp at hl

theorem Area.visitsAll_nil {m : Memory} (h : Area m Atags.get.ptr []) : VisitsAll m [] := by
  refine ⟨[], .nil, .inl (collect_stop ?_)⟩
  exact if_pos h

/-- **Visiting every tag, exactly.** The iterator yields the whole of a well-formed
area if and only if the area has no tag. -/
theorem visitsAll_iff_empty {m : Memory} {tags : List Raw.Atag} (h : Area m Atags.get.ptr tags) :
    VisitsAll m tags ↔ tags = [] := by
  constructor
  · intro hv
    cases tags with
    | nil => rfl
    | cons t ts => exact absurd hv h.not_visitsAll
  · rintro rfl
    exact h.visitsAll_nil

/-- The memory that holds the words `ws` from `ATAG_BASE` on, and zeroes elsewhere. -/
def firmware (ws : List Nat) : Memory := fun a =>
  if a < ATAG_BASE then 0 else UInt8.ofNat (ws.getD ((a - ATAG_BASE) / 4) 0 / 256 ^ ((a - ATAG_BASE) % 4))

def coreMem : Memory := firmware [5, Raw.Atag.CORE, 0, 4096, 0, 4, Raw.Atag.MEM, 0x3b000000, 0, 0, Raw.Atag.NONE]

theorem coreMem_area : Area coreMem Atags.get.ptr [⟨0x100⟩, ⟨0x114⟩] := by
  refine ⟨rfl, ⟨by decide, by decide, ?_⟩, by decide, ⟨by decide, by decide, ?_⟩, ?_⟩
  · intro hc
    exact absurd hc (by decide)
  · intro hc
    exact absurd hc (by decide)
  · show Raw.Atag.tag ⟨0x124⟩ coreMem = Raw.Atag.NONE
    decide

theorem visiting_fails :
    ¬ ∀ (m : Memory) (tags : List Raw.Atag), Area m Atags.get.ptr tags → VisitsAll m tags := by
  intro hall
  exact coreMem_area.not_visitsAll (hall _ _ coreMem_area)

theorem coreMem_not_visitsAll : ¬ VisitsAll coreMem [⟨0x100⟩, ⟨0x114⟩] := by
  intro hv
  have he := (visitsAll_iff_empty coreMem_area).mp hv
  cases he

end Osymandias
