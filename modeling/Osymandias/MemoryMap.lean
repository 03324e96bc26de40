import Osymandias.Atags
import Osymandias.Usize

/-!
# The memory map

`memory_map` of `allocator/mod.rs`: the heap starts behind the kernel's image
and ends where the memory of the first `MEM` tag does. The address of `_end`
is the linker's; `ext/layout.ld` puts the image at `0x80000`.
-/

namespace Osymandias

open Fuel

def Atag.isMem : Atag → Bool
  | .mem _ => true
  | _ => false

def Atag.mem? : Atag → Option Raw.Mem
  | .mem r => some r
  | _ => Option.none

def Atags.find (m : Memory) (predicate : Atag → Bool) : Nat → Atags → Except Fault (Option Atag × Atags)
  | 0, _ => .error .outOfFuel
  | fuel + 1, self => do
    match ← self.next (fuel + 1) m with
    | (none, self') => return (none, self')
    | (some atag, self') => if predicate atag then return (some atag, self') else find m predicate fuel self'

def memoryMap (profile : Profile) (fuel : Nat) (m : Memory) (endAddr : Nat) :
    Except Fault (Option (Nat × Nat)) := do
  -- the pointer is cast to `u32` and then to `usize`
  let binaryEnd := endAddr % 2 ^ 32
  match ← Atags.get.find m Atag.isMem fuel with
  | (none, _) => return none
  | (some atag, _) =>
    match atag.mem? with
    | none => return none
    | some mem => return some (binaryEnd, ← profile.add 32 mem.start mem.size)

/-! ## Finding a tag -/

section
variable {m : Memory}

theorem find_of_collect (predicate : Atag → Bool) : ∀ {fuel : Nat} {self : Atags} {atags : List Atag},
    Atags.collect m fuel self = .ok atags → ∃ self', self.find m predicate fuel = .ok (atags.find? predicate, self')
  | 0, _, _, h => by cases h
  | fuel + 1, self, _, h => by
    obtain ⟨⟨o, self'⟩, hn, h⟩ := bind_ok h
    unfold Atags.find
    rw [hn]
    cases o with
    | none =>
      cases h
      exact ⟨self', rfl⟩
    | some atag =>
      obtain ⟨rest, hr, h⟩ := bind_ok h
      cases h
      by_cases hp : predicate atag = true
      · rw [List.find?_cons_of_pos hp]
        exact ⟨self', if_pos hp⟩
      · obtain ⟨last, hf⟩ := find_of_collect predicate hr
        rw [List.find?_cons_of_neg hp]
        exact ⟨last, (if_neg hp).trans hf⟩

theorem from_isMem {fuel : Nat} {t : Raw.Atag} {a : Atag} (h : Atag.from fuel m t = .ok a) :
    if t.tag m = Raw.Atag.MEM then a = .mem (t.mem m) else ¬ a.isMem = true := by
  unfold Atag.from at h
  by_cases hm : t.tag m = Raw.Atag.MEM
  · have hc : ¬ t.tag m = Raw.Atag.CORE := by
      rw [hm]
      decide
    rw [if_neg hc, if_pos hm] at h
    rw [if_pos hm]
    cases h
    rfl
  · rw [if_neg hm] at h ⊢
    split_ifs at h
    · cases h
      exact Bool.false_ne_true
    · obtain ⟨text, rfl⟩ := fromCmd_ok h
      exact Bool.false_ne_true
    · cases h
      exact Bool.false_ne_true
    · cases h
      exact Bool.false_ne_true

theorem Decodes.find_mem : ∀ {tags : List Raw.Atag} {atags : List Atag}, Decodes m tags atags →
    (atags ++ [Atag.none]).find? Atag.isMem =
      (tags.find? fun t => t.tag m = Raw.Atag.MEM).map fun t => .mem (t.mem m)
  | [], [], .nil => rfl
  | t :: tags, a :: atags, .cons hd hds => by
    obtain ⟨n, hn⟩ := hd
    have ha := from_isMem (hn n (Nat.le_refl n))
    by_cases hm : t.tag m = Raw.Atag.MEM
    · rw [if_pos hm] at ha
      simp [List.find?_cons, hm, ha, Atag.isMem]
    · rw [if_neg hm] at ha
      rw [List.find?_cons_of_neg (by simpa using hm), List.cons_append, List.find?_cons_of_neg ha]
      exact find_mem hds

end

/-! ## The region -/

def memRegion (profile : Profile) (m : Memory) (endAddr : Nat) : Option Raw.Atag → Except Fault (Option (Nat × Nat))
  | none => .ok none
  | some t =>
    (profile.add 32 (t.mem m).start (t.mem m).size).map fun physicalEnd => some (endAddr % 2 ^ 32, physicalEnd)

section
variable {m : Memory} {t : Raw.Atag} {tags : List Raw.Atag} {endAddr : Nat} {profile : Profile}

theorem memoryMap_collect {fuel : Nat} {atags : List Atag} (h : Atags.get.collect m fuel = .ok (atags ++ [.none]))
    (hd : Decodes m tags atags) :
    memoryMap profile fuel m endAddr =
      memRegion profile m endAddr (tags.find? fun t => t.tag m = Raw.Atag.MEM) := by
  obtain ⟨self', hf⟩ := find_of_collect Atag.isMem h
  rw [hd.find_mem] at hf
  unfold memoryMap
  rw [hf]
  cases tags.find? fun t => t.tag m = Raw.Atag.MEM with
  | none => rfl
  | some t =>
    simp only [Option.map, Atag.mem?, memRegion, bind, Except.bind]
    cases profile.add 32 (t.mem m).start (t.mem m).size <;> rfl

/-- The search. Behind a first tag that is not a `MEM` tag itself, `memory_map`
stops at the first `MEM` tag, or at the end of the area. -/
theorem Area.memoryMap (profile : Profile) (endAddr : Nat) (h : Area m Atags.get.ptr (t :: tags))
    (ht : t.tag m ≠ Raw.Atag.MEM) :
    ∃ n, ∀ fuel, n ≤ fuel → memoryMap profile fuel m endAddr =
      memRegion profile m endAddr ((t :: tags).find? fun t => t.tag m = Raw.Atag.MEM) := by
  obtain rfl := h.1
  obtain ⟨atags, hd⟩ := h.2.2.decodes
  obtain ⟨n, hn⟩ := h.collect hd
  refine ⟨n, fun fuel hf => ?_⟩
  rw [List.find?_cons_of_neg (by simpa using ht)]
  exact memoryMap_collect (hn fuel hf) hd

theorem memRegion_eq (hend : endAddr < 2 ^ 32) (hfit : (t.mem m).start + (t.mem m).size < 2 ^ 32) :
    memRegion profile m endAddr (some t) = .ok (some (endAddr, (t.mem m).start + (t.mem m).size)) := by
  simp only [memRegion, Profile.add]
  rw [profile.fit_eq hfit, Nat.mod_eq_of_lt hend]
  rfl

theorem memRegion_ne_outOfFuel : ∀ o : Option Raw.Atag, memRegion profile m endAddr o ≠ .error .outOfFuel
  | none => nofun
  | some t => by
    have h := profile.fit_ne_outOfFuel 32 ((t.mem m).start + (t.mem m).size) "attempt to add with overflow"
    simp only [memRegion, Profile.add]
    cases hf : profile.fit 32 ((t.mem m).start + (t.mem m).size) "attempt to add with overflow" with
    | ok e => exact nofun
    | error e =>
      rw [hf] at h
      intro he
      cases he
      exact h rfl

theorem memRegion_none (profile : Profile) (m : Memory) (endAddr : Nat) :
    ∀ o : Option Raw.Atag, memRegion profile m endAddr o = .ok none ↔ o = none
  | none => iff_of_true rfl rfl
  | some t => by
    simp only [memRegion]
    cases profile.add 32 (t.mem m).start (t.mem m).size <;> exact iff_of_false nofun nofun

end

/-- **`memory_map` finds the memory.** On every well-formed area that starts with
a `CORE` tag it stops. It returns `None` if and only if the area has no `MEM`
tag, and else the region that the first one gives, if its end fits a `u32`. -/
theorem memoryMap_finds {m : Memory} {core : Raw.Atag} {tags : List Raw.Atag} (profile : Profile) {endAddr : Nat}
    (hlinked : endAddr < 2 ^ 32) (h : Area m Atags.get.ptr (core :: tags)) (hcore : core.tag m = Raw.Atag.CORE) :
    Halts (fun fuel => memoryMap profile fuel m endAddr) ∧
    (Yields (fun fuel => memoryMap profile fuel m endAddr) none ↔ ∀ t ∈ core :: tags, t.tag m ≠ Raw.Atag.MEM) ∧
    ∀ before t after, core :: tags = before ++ t :: after → (∀ b ∈ before, b.tag m ≠ Raw.Atag.MEM) →
      t.tag m = Raw.Atag.MEM → (t.mem m).start + (t.mem m).size < 2 ^ 32 →
      Yields (fun fuel => memoryMap profile fuel m endAddr) (some (endAddr, (t.mem m).start + (t.mem m).size)) := by
  have hne : core.tag m ≠ Raw.Atag.MEM := by
    rw [hcore]
    decide
  obtain ⟨n, hn⟩ := h.memoryMap profile endAddr hne
  refine ⟨⟨_, memRegion_ne_outOfFuel _, n, hn⟩, ?_, ?_⟩
  · have hnone : ((core :: tags).find? fun t => t.tag m = Raw.Atag.MEM) = none ↔
        ∀ t ∈ core :: tags, t.tag m ≠ Raw.Atag.MEM := by simp
    rw [← hnone, ← memRegion_none profile m endAddr]
    constructor
    · intro hy
      obtain ⟨k, hk⟩ := hy
      exact (hn _ (Nat.le_max_left n k)).symm.trans (hk _ (Nat.le_max_right n k))
    · intro hr
      exact ⟨n, fun fuel hf => (hn fuel hf).trans hr⟩
  · intro before t after hsplit hbefore ht hfit
    have hfind : (core :: tags).find? (fun t => t.tag m = Raw.Atag.MEM) = some t := by
      rw [hsplit, List.find?_append, List.find?_eq_none.mpr (by simpa using hbefore),
        List.find?_cons_of_pos (by simpa using ht)]
      rfl
    refine ⟨n, fun fuel hf => (hn fuel hf).trans ?_⟩
    rw [hfind]
    exact memRegion_eq hlinked hfit

theorem coreMem_region :
    Yields (fun fuel => memoryMap .release fuel coreMem 0xa0000) (some (0xa0000, 0x3b000000)) :=
  (memoryMap_finds .release (by decide) coreMem_area (by decide)).2.2 [⟨0x100⟩] ⟨0x114⟩ [] rfl
    (by simp only [List.forall_mem_singleton]; decide) (by decide) (by decide)

end Osymandias
